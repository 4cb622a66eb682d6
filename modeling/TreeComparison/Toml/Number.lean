import TreeComparison.Toml.Basic
import TreeComparison.Toml.Text

/-!
Numbers, dates and times in TOML text. An integer must fit in 64 bits with a sign. A float may not
be so large that it rounds to infinity; one that rounds to negative infinity is let through.
-/

namespace TreeComparison.Toml

/-! ### Digits -/

/-- Digits with at most one underscore between two of them. -/
def areSpaced : List Char → Bool
  | [] => false
  | '_' :: _ => false
  | [_] => true
  | _ :: '_' :: rest => areSpaced rest
  | _ :: rest => areSpaced rest

/-- Reads digits of some kind with underscores between them, and returns the digits alone. -/
def digits? (isDigit : Char → Bool) (cs : List Char) : Option (List Char × List Char) :=
  let inside := fun c => isDigit c || c = '_'
  if areSpaced (cs.takeWhile inside) then
    some ((cs.takeWhile inside).filter isDigit, cs.dropWhile inside)
  else none

/-- Reads a sign, if there is one; whether it is a minus. -/
def sign : List Char → Bool × List Char
  | '-' :: rest => (true, rest)
  | '+' :: rest => (false, rest)
  | cs => (false, cs)

/-- Reads the digits of a decimal number without sign: none but a lone zero begins with zero. -/
def whole? (cs : List Char) : Option (List Char × List Char) := do
  let (ds, rest) ← digits? Char.isDigit cs
  if ds.head? = some '0' ∧ (cs.takeWhile fun c => c.isDigit || c = '_') ≠ ['0'] then none
  else some (ds, rest)

/-! ### Integers -/

/-- Whether a digit counts in a base. -/
def isDigitOf (base : Nat) (c : Char) : Bool := (Digits.valueIn? base c).isSome

/-- Reads the digits of a number in a base. -/
def natural? (base : Nat) (cs : List Char) : Option (Int × List Char) := do
  let (ds, rest) ← digits? (isDigitOf base) cs
  let n ← Digits.read? base ds
  some (n, rest)

/-- Reads a decimal integer with its sign. -/
def decimal? (cs : List Char) : Option (Int × List Char) := do
  let (negative, cs) := sign cs
  let (ds, rest) ← whole? cs
  let n ← Digits.read? 10 ds
  some (if negative then -(n : Int) else n, rest)

/-- Reads an integer. -/
def integer? (cs : List Char) : Option (Toml × List Char) := do
  let (n, rest) ← match cs with
    | '0' :: 'x' :: rest => natural? 16 rest
    | '0' :: 'o' :: rest => natural? 8 rest
    | '0' :: 'b' :: rest => natural? 2 rest
    | cs => decimal? cs
  if Int64.minValue.toInt ≤ n ∧ n ≤ Int64.maxValue.toInt then some (.integer n, rest) else none

/-! ### Floats -/

/-- The least number that rounds to infinity: half a step above the largest float. -/
def infinityFrom : Nat := (1 <<< 1024) - (1 <<< 970)

/-- Whether the digits of a whole number, times ten to the power of `exponent`, round to infinity.
With an exponent above 400 all but zero does, and nothing does that is less than one. -/
def isInfinite (digits : List Char) (exponent : Int) : Bool :=
  match Digits.read? 10 digits with
  | none => false
  | some 0 => false
  | some n =>
    if 400 < exponent then true
    else if exponent + digits.length ≤ 0 then false
    else infinityFrom * Nat.pow 10 (-exponent).toNat ≤ n * Nat.pow 10 exponent.toNat

/-- Reads the part of a float from its point on, if there is one. -/
def fraction? : List Char → Option (List Char × List Char)
  | '.' :: rest => digits? Char.isDigit rest
  | cs => some ([], cs)

/-- Reads the exponent of a float, if there is one. -/
def exponent? : List Char → Option (Int × List Char)
  | c :: rest =>
    if c = 'e' ∨ c = 'E' then do
      let (negative, rest) := sign rest
      let (ds, rest) ← digits? Char.isDigit rest
      let n ← Digits.read? 10 ds
      some (if negative then -(n : Int) else n, rest)
    else some (0, c :: rest)
  | [] => some (0, [])

/-- Reads a float written with digits, and says whether it is infinite. -/
def finite? (cs : List Char) : Option (Bool × List Char) := do
  let (ds, afterWhole) ← whole? cs
  let (fs, afterFraction) ← fraction? afterWhole
  let (e, rest) ← exponent? afterFraction
  if rest.length = afterWhole.length then none
  else some (isInfinite (ds ++ fs) (e - fs.length), rest)

/-- Reads the name of infinity or of what is no number. -/
def special? : List Char → Option (List Char)
  | 'i' :: 'n' :: 'f' :: rest => some rest
  | 'n' :: 'a' :: 'n' :: rest => some rest
  | _ => none

/-- The characters that were read when `rest` is what is left of `cs`. -/
def spelling (cs rest : List Char) : String := String.ofList (cs.take (cs.length - rest.length))

/-- Reads a float. -/
def float? (cs : List Char) : Option (Toml × List Char) :=
  let (negative, digits) := sign cs
  match special? digits, finite? digits with
  | some rest, _ => some (.float (spelling cs rest), rest)
  | none, some (infinite, rest) =>
    if infinite && !negative then none else some (.float (spelling cs rest), rest)
  | none, none => none

/-! ### Dates and times -/

/-- Reads a number of exactly `count` digits between two bounds. -/
def bounded? (count low high : Nat) (cs : List Char) : Option (Nat × List Char) := do
  let n ← Digits.read? 10 (cs.take count)
  if count ≤ cs.length ∧ low ≤ n ∧ n ≤ high then some (n, cs.drop count) else none

/-- Whether a year has a leap day. -/
def isLeapYear (year : Nat) : Bool :=
  year % 4 = 0 && (year % 100 ≠ 0 || year % 400 = 0)

/-- How many days a month has. -/
def daysIn (year month : Nat) : Nat :=
  if month = 2 then if isLeapYear year then 29 else 28
  else if month ∈ [4, 6, 9, 11] then 30
  else 31

/-- Reads a date. -/
def date? (cs : List Char) : Option (List Char) := do
  let (year, cs) ← bounded? 4 0 9999 cs
  let cs ← mark? '-' cs
  let (month, cs) ← bounded? 2 1 12 cs
  let cs ← mark? '-' cs
  let (_, cs) ← bounded? 2 1 (daysIn year month) cs
  some cs

/-- Passes over the fraction of a second, if there is one. -/
def skipFraction (cs : List Char) : List Char :=
  match cs with
  | '.' :: rest =>
    if (rest.takeWhile Char.isDigit).isEmpty then cs else rest.dropWhile Char.isDigit
  | _ => cs

/-- Reads a time of day. -/
def time? (cs : List Char) : Option (List Char) := do
  let (_, cs) ← bounded? 2 0 23 cs
  let cs ← mark? ':' cs
  let (_, cs) ← bounded? 2 0 59 cs
  let cs ← mark? ':' cs
  let (_, cs) ← bounded? 2 0 60 cs
  some (skipFraction cs)

/-- Reads the distance of a time from that of the prime meridian. -/
def offset? : List Char → Option (List Char)
  | c :: cs =>
    if c = 'Z' ∨ c = 'z' then some cs
    else if c = '+' ∨ c = '-' then do
      let (_, cs) ← bounded? 2 0 23 cs
      let cs ← mark? ':' cs
      let (_, cs) ← bounded? 2 0 59 cs
      some cs
    else none
  | [] => none

/-- Reads the time after a date, if there is one, with its offset, if it has one. -/
def skipTimeOfDate (cs : List Char) : List Char :=
  match cs with
  | c :: rest =>
    if c = 'T' ∨ c = 't' ∨ c = ' ' then
      match time? rest with
      | some rest => (offset? rest).getD rest
      | none => cs
    else cs
  | [] => []

/-- Reads a date, a time or both. -/
def datetime? (cs : List Char) : Option (Toml × List Char) := do
  let rest ← (date? cs).map skipTimeOfDate <|> time? cs
  some (.datetime (spelling cs rest), rest)

/-- Reads a number, a date or a time. -/
def number? (cs : List Char) : Option (Toml × List Char) :=
  datetime? cs <|> float? cs <|> integer? cs

end TreeComparison.Toml

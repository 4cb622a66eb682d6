import TreeComparison.Text.Utf8

/-!
Numbers as digits: two lowercase hexadecimal digits for a byte, octal digits for a file mode.
-/

namespace TreeComparison.Digits

/-- The two lowercase hexadecimal digits of a byte, the high half first. -/
def hexByte (b : UInt8) : List Char :=
  [Nat.digitChar (b.toNat / 16), Nat.digitChar (b.toNat % 16)]

/-- The lowercase hexadecimal digits of a byte string. -/
def hex (bytes : Bytes) : String := String.ofList (bytes.flatMap hexByte)

/-- The octal digits of a number, without leading zeros. -/
def octal (n : Nat) : String := String.ofList (Nat.toDigits 8 n)

/-- The value of a digit in a base of at most sixteen; both cases of a letter are read. -/
def valueIn? (base : Nat) (c : Char) : Option Nat :=
  let v :=
    if '0' ≤ c ∧ c ≤ '9' then c.toNat - '0'.toNat
    else if 'a' ≤ c ∧ c ≤ 'f' then c.toNat - 'a'.toNat + 10
    else if 'A' ≤ c ∧ c ≤ 'F' then c.toNat - 'A'.toNat + 10
    else 16
  if v < base then some v else none

/-- The number that a run of digits in a base spells; an empty run spells none. -/
def read? (base : Nat) (cs : List Char) : Option Nat :=
  if cs.isEmpty then none
  else cs.foldlM (fun n c => (valueIn? base c).map (n * base + ·)) 0

/-- The byte that two hexadecimal digits spell. -/
def byte? (high low : Char) : Option UInt8 := (read? 16 [high, low]).map UInt8.ofNat

/-- The byte string that pairs of hexadecimal digits spell. -/
def unhex? : List Char → Option Bytes
  | [] => some []
  | [_] => none
  | h :: l :: rest => do
    let b ← byte? h l
    let bs ← unhex? rest
    some (b :: bs)

end TreeComparison.Digits

import TreeComparison.Text.Digits

/-!
Strings, keys, comments and line ends in TOML text. Each reader takes characters from the front and
returns what it has read together with the rest.
-/

namespace TreeComparison.Toml

/-- The characters that may stand between the parts of a line. -/
def isBlank (c : Char) : Bool := c = ' ' || c = '\t'

/-- The characters that a line may hold: no control character but the tab. -/
def isPlain (c : Char) : Bool := c = '\t' || (0x20 ≤ c.toNat && c.toNat ≠ 0x7F)

/-- Passes over blanks. -/
def skipBlanks (cs : List Char) : List Char := cs.dropWhile isBlank

/-- Reads a given character. -/
def mark? (c : Char) : List Char → Option (List Char)
  | d :: rest => if d = c then some rest else none
  | [] => none

/-! ### Lines -/

/-- Reads a line break. -/
def newline? : List Char → Option (List Char)
  | '\n' :: rest => some rest
  | '\r' :: '\n' :: rest => some rest
  | _ => none

/-- Passes over a comment, if one begins here. -/
def skipComment : List Char → List Char
  | '#' :: rest => rest.dropWhile isPlain
  | cs => cs

/-- Reads the end of a line: blanks, a comment, and a line break or the end of the text. -/
def lineEnd? (cs : List Char) : Option (List Char) :=
  match skipComment (skipBlanks cs) with
  | [] => some []
  | rest => newline? rest

/-- Passes over blanks, line breaks and comments; the flag says that a comment has begun. A comment
must end in a line break. -/
def skipLines? : Bool → List Char → Option (List Char)
  | inComment, [] => if inComment then none else some []
  | _, '\n' :: rest => skipLines? false rest
  | _, '\r' :: '\n' :: rest => skipLines? false rest
  | true, c :: rest => if isPlain c then skipLines? true rest else none
  | false, c :: rest =>
    if c = '#' then skipLines? true rest
    else if isBlank c then skipLines? false rest
    else some (c :: rest)

/-! ### Strings -/

/-- The character that an escape with one letter stands for. -/
def shortEscape? : Char → Option Char
  | 'b' => some '\x08'
  | 'f' => some '\x0c'
  | 'n' => some '\n'
  | 'r' => some '\r'
  | 't' => some '\t'
  | '\\' => some '\\'
  | '"' => some '"'
  | _ => none

/-- The character that the hexadecimal digits of an escape name. -/
def numberedChar? (digits : List Char) : Option Char := do
  let n ← Digits.read? 16 digits
  if n.isValidChar then some (Char.ofNat n) else none

/-- Puts a character in front of what was read after it. -/
def inFront (c : Char) (r : List Char × List Char) : List Char × List Char := (c :: r.1, r.2)

/-- Reads a string on one line, whose opening quote has been read, up to its closing quote. -/
def basic? : List Char → Option (List Char × List Char)
  | [] => none
  | '"' :: rest => some ([], rest)
  | '\\' :: 'u' :: a :: b :: c :: d :: rest => do
    let x ← numberedChar? [a, b, c, d]
    (basic? rest).map (inFront x)
  | '\\' :: 'U' :: a :: b :: c :: d :: e :: f :: g :: h :: rest => do
    let x ← numberedChar? [a, b, c, d, e, f, g, h]
    (basic? rest).map (inFront x)
  | '\\' :: e :: rest => do
    let x ← shortEscape? e
    (basic? rest).map (inFront x)
  | c :: rest => if isPlain c ∧ c ≠ '\\' then (basic? rest).map (inFront c) else none

/-- Whether nothing but blanks stands before the next line break. -/
def lineIsOver (cs : List Char) : Bool := (newline? (skipBlanks cs)).isSome

/-- Reads a string over several lines, whose opening quotes have been read, up to its closing
quotes. Up to two quotes may stand directly before these. A backslash at the end of a line takes
away all blanks and line breaks after it; the flag says that this is going on. -/
def longBasic? : Bool → List Char → Option (List Char × List Char)
  | _, [] => none
  | _, '"' :: '"' :: '"' :: '"' :: '"' :: rest => some (['"', '"'], rest)
  | _, '"' :: '"' :: '"' :: '"' :: rest => some (['"'], rest)
  | _, '"' :: '"' :: '"' :: rest => some ([], rest)
  | _, '\\' :: 'u' :: a :: b :: c :: d :: rest => do
    let x ← numberedChar? [a, b, c, d]
    (longBasic? false rest).map (inFront x)
  | _, '\\' :: 'U' :: a :: b :: c :: d :: e :: f :: g :: h :: rest => do
    let x ← numberedChar? [a, b, c, d, e, f, g, h]
    (longBasic? false rest).map (inFront x)
  | _, '\\' :: e :: rest =>
    if lineIsOver (e :: rest) then longBasic? true (e :: rest)
    else do
      let x ← shortEscape? e
      (longBasic? false rest).map (inFront x)
  | trimming, '\r' :: '\n' :: rest =>
    if trimming then longBasic? true rest else (longBasic? false rest).map (inFront '\n')
  | trimming, c :: rest =>
    if trimming ∧ (isBlank c ∨ c = '\n') then longBasic? true rest
    else if (isPlain c ∧ c ≠ '\\') ∨ c = '\n' then (longBasic? false rest).map (inFront c)
    else none

/-- Reads a string without escapes, whose opening quote has been read, up to its closing quote. -/
def literal? (cs : List Char) : Option (List Char × List Char) :=
  let inside := fun c => isPlain c && c ≠ '\''
  (mark? '\'' (cs.dropWhile inside)).map fun rest => (cs.takeWhile inside, rest)

/-- Reads a string without escapes over several lines, whose opening quotes have been read, up to
its closing quotes. Up to two quotes may stand directly before these. -/
def longLiteral? : List Char → Option (List Char × List Char)
  | [] => none
  | '\'' :: '\'' :: '\'' :: '\'' :: '\'' :: rest => some (['\'', '\''], rest)
  | '\'' :: '\'' :: '\'' :: '\'' :: rest => some (['\''], rest)
  | '\'' :: '\'' :: '\'' :: rest => some ([], rest)
  | '\r' :: '\n' :: rest => (longLiteral? rest).map (inFront '\n')
  | c :: rest => if isPlain c ∨ c = '\n' then (longLiteral? rest).map (inFront c) else none

/-- The text after the opening quotes of a string over several lines: a line break that comes first
does not belong to it. -/
def afterOpening (cs : List Char) : List Char := (newline? cs).getD cs

/-- Reads a string. -/
def string? : List Char → Option (String × List Char)
  | '"' :: '"' :: '"' :: rest => close (longBasic? false (afterOpening rest))
  | '"' :: rest => close (basic? rest)
  | '\'' :: '\'' :: '\'' :: rest => close (longLiteral? (afterOpening rest))
  | '\'' :: rest => close (literal? rest)
  | _ => none
where
  close (r : Option (List Char × List Char)) : Option (String × List Char) :=
    r.map fun r => (String.ofList r.1, r.2)

/-! ### Keys -/

/-- The characters of a key without quotes. -/
def isBare (c : Char) : Bool := c.isAlphanum || c = '-' || c = '_'

/-- Reads one part of a key. -/
def keyPart? : List Char → Option (String × List Char)
  | '"' :: rest => (basic? rest).map fun r => (String.ofList r.1, r.2)
  | '\'' :: rest => (literal? rest).map fun r => (String.ofList r.1, r.2)
  | cs =>
    if (cs.takeWhile isBare).isEmpty then none
    else some (String.ofList (cs.takeWhile isBare), cs.dropWhile isBare)

/-- Reads the parts of a key with the dots between them, blanks around each part included, and
returns the last part by itself. -/
def keyParts? : Nat → List Char → Option (List String × String × List Char)
  | 0, _ => none
  | bound + 1, cs => do
    let (part, rest) ← keyPart? (skipBlanks cs)
    match skipBlanks rest with
    | '.' :: rest => do
      let (path, last, rest) ← keyParts? bound rest
      some (part :: path, last, rest)
    | rest => some ([], part, rest)

/-- How many parts a key can have at most. -/
def maxParts : Nat := 79

/-- Reads a key: the parts before its last dot, its last part, and the rest of the text. -/
def key? (cs : List Char) : Option (List String × String × List Char) := keyParts? maxParts cs

end TreeComparison.Toml

/-!
UTF-8 as a way to cut a byte string into pieces. Read from the left, a piece is a character whose
whole encoding stands there, or else the longest run of bytes that begins some encoding without
finishing it; a byte that begins no encoding is a piece of its own. Each byte lies in exactly one
piece, so nothing is lost by cutting.
-/

namespace TreeComparison

/-- Raw bytes, as names, link targets, labels and contents are stored. -/
abbrev Bytes := List UInt8

namespace Utf8

/-- What the first byte of an encoding promises: how many bytes follow, and the range in which the
first of them must lie. The narrow ranges keep out overlong forms, surrogates and values above the
last code point. -/
inductive Lead where
  | ascii
  | two
  | three (lo hi : UInt8)
  | four (lo hi : UInt8)
  | stray
  deriving DecidableEq, Repr

/-- The promise of a first byte. -/
def lead (a : UInt8) : Lead :=
  if a < 0x80 then .ascii
  else if a < 0xC2 then .stray
  else if a < 0xE0 then .two
  else if a = 0xE0 then .three 0xA0 0xBF
  else if a = 0xED then .three 0x80 0x9F
  else if a < 0xF0 then .three 0x80 0xBF
  else if a = 0xF0 then .four 0x90 0xBF
  else if a < 0xF4 then .four 0x80 0xBF
  else if a = 0xF4 then .four 0x80 0x8F
  else .stray

/-- Whether `b` lies between the two bounds, bounds included. -/
def within (lo hi b : UInt8) : Bool := lo ≤ b && b ≤ hi

/-- A continuation byte. -/
def isTail (b : UInt8) : Bool := within 0x80 0xBF b

/-- The character that a first byte of `k` payload bits (as the modulus `2 ^ k`) and its
continuation bytes of six bits each stand for. -/
def charOf (modulus : Nat) (a : UInt8) (tail : Bytes) : Char :=
  Char.ofNat (tail.foldl (fun n b => n * 64 + b.toNat % 64) (a.toNat % modulus))

/-- A piece of a byte string. -/
inductive Piece where
  | char (c : Char)
  | stray (bytes : Bytes)
  deriving DecidableEq, Repr

/-- Cuts a byte string into its pieces. -/
def pieces : Bytes → List Piece
  | [] => []
  | a :: r =>
    match lead a with
    | .ascii => .char (charOf 128 a []) :: pieces r
    | .stray => .stray [a] :: pieces r
    | .two =>
      match r with
      | [] => [.stray [a]]
      | b :: s =>
        if isTail b then .char (charOf 32 a [b]) :: pieces s
        else .stray [a] :: pieces (b :: s)
    | .three lo hi =>
      match r with
      | [] => [.stray [a]]
      | b :: s =>
        if within lo hi b then
          match s with
          | [] => [.stray [a, b]]
          | c :: t =>
            if isTail c then .char (charOf 16 a [b, c]) :: pieces t
            else .stray [a, b] :: pieces (c :: t)
        else .stray [a] :: pieces (b :: s)
    | .four lo hi =>
      match r with
      | [] => [.stray [a]]
      | b :: s =>
        if within lo hi b then
          match s with
          | [] => [.stray [a, b]]
          | c :: t =>
            if isTail c then
              match t with
              | [] => [.stray [a, b, c]]
              | d :: u =>
                if isTail d then .char (charOf 8 a [b, c, d]) :: pieces u
                else .stray [a, b, c] :: pieces (d :: u)
            else .stray [a, b] :: pieces (c :: t)
        else .stray [a] :: pieces (b :: s)

/-- The bytes of a text. -/
def encode (s : String) : Bytes := s.toList.flatMap String.utf8EncodeChar

/-- The characters of a byte string, if it is the encoding of some. -/
def chars? (bytes : Bytes) : Option (List Char) :=
  (pieces bytes).mapM fun
    | .char c => some c
    | .stray _ => none

/-- The text that a byte string encodes, if it encodes one. -/
def decode? (bytes : Bytes) : Option String := (chars? bytes).map String.ofList

/-- The text of a byte string for display: each stray piece becomes one replacement character. -/
def display (bytes : Bytes) : String :=
  String.ofList <| (pieces bytes).map fun
    | .char c => c
    | .stray _ => '\uFFFD'

end Utf8

end TreeComparison

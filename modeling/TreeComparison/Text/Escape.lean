import TreeComparison.Text.Digits

/-!
Bytes shown as report text. A valid character stands for itself, a backslash is doubled, and a byte
that belongs to no character is written as a backslash, an `x` and two hexadecimal digits. The text
is a list of tokens of these three kinds, and reading the tokens back gives the bytes again, so two
byte strings never look alike.
-/

namespace TreeComparison

namespace Escape

/-- One unit of escaped text. -/
inductive Token where
  | plain (c : Char)
  | backslash
  | byte (b : UInt8)
  deriving DecidableEq, Repr

/-- The characters that spell a token. -/
def Token.spelling : Token → List Char
  | .plain c => [c]
  | .backslash => ['\\', '\\']
  | .byte b => '\\' :: 'x' :: Digits.hexByte b

/-- The bytes that a token stands for. -/
def Token.bytes : Token → Bytes
  | .plain c => String.utf8EncodeChar c
  | .backslash => [0x5C]
  | .byte b => [b]

/-- The tokens of one piece of a byte string. -/
def ofPiece : Utf8.Piece → List Token
  | .char c => if c = '\\' then [.backslash] else [.plain c]
  | .stray bytes => bytes.map .byte

/-- The tokens of a byte string. -/
def tokens (bytes : Bytes) : List Token := (Utf8.pieces bytes).flatMap ofPiece

/-- The text that a list of tokens spells. -/
def spell (ts : List Token) : String := String.ofList (ts.flatMap Token.spelling)

/-- The bytes that a list of tokens stands for. -/
def unescape (ts : List Token) : Bytes := ts.flatMap Token.bytes

end Escape

/-- Renders raw bytes as report text. -/
def escape (bytes : Bytes) : String := Escape.spell (Escape.tokens bytes)

/-! ### Labels and logical paths -/

/-- The bytes that some tools leave at the end of a label. -/
def isPadding (b : UInt8) : Bool := b = 0x0A || b = 0x00

/-- A label without the newline and NUL bytes at its end. -/
def trimPadding (label : Bytes) : Bytes := (label.reverse.dropWhile isPadding).reverse

/-- The text of a stored label: padding at the end does not count. -/
def normalizeLabel (label : Bytes) : String := escape (trimPadding label)

/-- The logical path of the entry `name` in the directory with the logical path `parent`. -/
def joinPath (parent : String) (name : Bytes) : String :=
  if parent.toList.getLast? = some '/' then parent ++ escape name
  else parent ++ "/" ++ escape name

end TreeComparison

import TreeComparison.Json.Basic

/-!
Writing JSON text, either without any blanks or with one item a line, indented by two blanks a
level. An empty array or object is written without a line break in both layouts.
-/

namespace TreeComparison.Json

/-- How a value is laid out. -/
inductive Layout where
  | compact
  | indented
  deriving DecidableEq, Repr

/-- The break before an item at a depth. -/
def Layout.newline : Layout → Nat → List Char
  | .compact, _ => []
  | .indented, depth => '\n' :: List.replicate (2 * depth) ' '

/-- What stands between a name and its value. -/
def Layout.colon : Layout → List Char
  | .compact => [':']
  | .indented => [':', ' ']

/-- How a character is written inside a string. -/
def escapeChar (c : Char) : List Char :=
  if c = '"' then ['\\', '"']
  else if c = '\\' then ['\\', '\\']
  else if c = '\x08' then ['\\', 'b']
  else if c = '\x0c' then ['\\', 'f']
  else if c = '\n' then ['\\', 'n']
  else if c = '\r' then ['\\', 'r']
  else if c = '\t' then ['\\', 't']
  else if c.toNat < 0x20 then ['\\', 'u', '0', '0'] ++ Digits.hexByte c.toNat.toUInt8
  else [c]

/-- How a string is written. One that stands for no text is written as half of a pair. -/
def quote : JsonText → List Char
  | some s => '"' :: (s.toList.flatMap escapeChar ++ ['"'])
  | none => ['"', '\\', 'u', 'd', '8', '0', '0', '"']

mutual

/-- The text of a value whose items, if it has any, stand at `depth + 1`. -/
def render (layout : Layout) (depth : Nat) : Json → List Char
  | .null => ['n', 'u', 'l', 'l']
  | .bool true => ['t', 'r', 'u', 'e']
  | .bool false => ['f', 'a', 'l', 's', 'e']
  | .number spelling => spelling.toList
  | .string t => quote t
  | .array [] => ['[', ']']
  | .array (v :: vs) =>
    '[' :: (layout.newline (depth + 1) ++ render layout (depth + 1) v
      ++ renderItems layout (depth + 1) vs ++ layout.newline depth ++ [']'])
  | .object [] => ['\x7b', '\x7d']
  | .object ((name, v) :: ms) =>
    '\x7b' :: (layout.newline (depth + 1) ++ quote name ++ layout.colon
      ++ render layout (depth + 1) v ++ renderMembers layout (depth + 1) ms
      ++ layout.newline depth ++ ['\x7d'])

/-- The text of the items after the first. -/
def renderItems (layout : Layout) (depth : Nat) : List Json → List Char
  | [] => []
  | v :: vs =>
    ',' :: (layout.newline depth ++ render layout depth v ++ renderItems layout depth vs)

/-- The text of the members after the first. -/
def renderMembers (layout : Layout) (depth : Nat) : List (JsonText × Json) → List Char
  | [] => []
  | (name, v) :: ms =>
    ',' :: (layout.newline depth ++ quote name ++ layout.colon ++ render layout depth v
      ++ renderMembers layout depth ms)

end

/-- The text of a value. -/
def print (layout : Layout) (v : Json) : String := String.ofList (render layout 0 v)

end TreeComparison.Json

/-!
TOML values. A float and a datetime keep their spelling, which says all that is ever asked of them.
-/

namespace TreeComparison

/-- A TOML value. The names in a table are distinct. -/
inductive Toml where
  | string (text : String)
  | integer (n : Int)
  | float (spelling : String)
  | boolean (b : Bool)
  | datetime (spelling : String)
  | array (items : List Toml)
  | table (entries : List (String × Toml))
  deriving Inhabited

namespace Toml

/-- The truth value that a value is. -/
def bool? : Toml → Option Bool
  | .boolean b => some b
  | _ => none

/-- The text that a value is. -/
def text? : Toml → Option String
  | .string t => some t
  | _ => none

/-- An array or a table with nothing in it. -/
def isHollow : Toml → Bool
  | .array [] => true
  | .table [] => true
  | _ => false

/-- The values of named fields. A table gives them under their names, and a datetime counts as a
table that has none of the names; an array gives the first of them in order. What else a table or
an array holds is passed over. -/
def fields? (names : List String) : Toml → Option (List (Option Toml))
  | .table entries => some (names.map fun name => entries.lookup name)
  | .datetime _ => some (names.map fun _ => none)
  | .array items =>
    some ((items.map some ++ List.replicate names.length none).take names.length)
  | _ => none

/-- The alternative that a value names: a string, or a table with that one name and no content. -/
def variant? (ofName? : String → Option α) : Toml → Option α
  | .string name => ofName? name
  | .table [(name, content)] => if content.isHollow then ofName? name else none
  | _ => none

end Toml

end TreeComparison

import TreeComparison.Text.Digits

/-!
JSON values as they are written: the members of an object keep their order and their repetitions,
and a number keeps its spelling.
-/

namespace TreeComparison

/-- The text of a JSON string; `none` if its escapes name half of a surrogate pair, which is no
character. -/
abbrev JsonText := Option String

/-- A JSON value. -/
inductive Json where
  | null
  | bool (b : Bool)
  | number (spelling : String)
  | string (text : JsonText)
  | array (items : List Json)
  | object (members : List (JsonText × Json))
  deriving Inhabited

namespace Json

/-- A JSON string of a text. -/
def text (s : String) : Json := .string (some s)

/-- A JSON number. -/
def nat (n : Nat) : Json := .number (toString n)

/-- A JSON object of members with the given names. -/
def record (members : List (String × Json)) : Json :=
  .object (members.map fun m => (some m.1, m.2))

/-- The truth value that a JSON value is. -/
def bool? : Json → Option Bool
  | .bool b => some b
  | _ => none

/-- The text that a JSON value is. -/
def text? : Json → Option String
  | .string t => t
  | _ => none

/-- The number that a JSON value is, if it is spelled with digits alone. -/
def nat? : Json → Option Nat
  | .number s => Digits.read? 10 s.toList
  | _ => none

/-- The items of a JSON array, each read by `read`. -/
def list? (read : Json → Option α) : Json → Option (List α)
  | .array items => items.mapM read
  | _ => none

/-- The members of a JSON object whose names are texts. -/
def members? : Json → Option (List (String × Json))
  | .object ms => ms.mapM fun m => m.1.map fun name => (name, m.2)
  | _ => none

/-- The only value that goes with a name; fails if the name is repeated. -/
def unique? (members : List (String × Json)) (name : String) : Option (Option Json) :=
  match members.filter fun m => m.1 = name with
  | [] => some none
  | [m] => some (some m.2)
  | _ => none

/-- The values of named fields. An object gives them under their names, none more than once, and
may hold other members besides; an array gives the first of them in order. -/
def fields? (names : List String) : Json → Option (List (Option Json))
  | .array items =>
    if items.length ≤ names.length then
      some (items.map some ++ List.replicate (names.length - items.length) none)
    else none
  | j => do
    let ms ← j.members?
    names.mapM (unique? ms)

/-- The alternative that a JSON value names: a string, or an object with that one name and no
content. -/
def variant? (ofName? : String → Option α) : Json → Option α
  | .string (some name) => ofName? name
  | .object [(some name, .null)] => ofName? name
  | _ => none

end Json

end TreeComparison

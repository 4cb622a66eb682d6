import TreeComparison.Toml.Basic

/-!
Tables while a document is being read. A name is given a value only once. A table can be opened by a
header of its own only once, be it before or after the headers of the tables below it; dotted keys
reach neither into a table that has a header nor, with their last part, into one that headers have
passed through, and no header opens a table that dotted keys have made.
-/

namespace TreeComparison.Toml

/-- How a table came to be. -/
inductive Origin where
  /-- A header of its own opened it. -/
  | header
  /-- It lies on the way to a table that a header opened. -/
  | passed
  /-- It lies on the way of a dotted key. -/
  | dotted
  deriving DecidableEq, Repr

/-- What a name stands for in a table that is not finished. -/
inductive Item where
  | value (v : Toml)
  | table (origin : Origin) (entries : List (String × Item))
  /-- An array of tables, of which the last one is not finished. -/
  | elements (earlier : List Toml) (last : List (String × Item))

/-- The entries of a table that is not finished. -/
abbrev Entries := List (String × Item)

mutual

/-- The value of an item. -/
def Item.finish : Item → Toml
  | .value v => v
  | .table _ entries => .table (finishAll entries)
  | .elements earlier last => .array (earlier ++ [.table (finishAll last)])

/-- The values of some entries. -/
def finishAll : Entries → List (String × Toml)
  | [] => []
  | (name, item) :: rest => (name, item.finish) :: finishAll rest

end

namespace Entries

/-- The entries with the item of one name replaced. -/
def replace (es : Entries) (name : String) (item : Item) : Entries :=
  es.map fun e => if e.1 = name then (name, item) else e

/-- Changes the table that a path leads to. A table that is missing on the way is made with the
origin `made`; of an array of tables the last one is entered. Dotted keys do not enter a table with
a header. -/
def descend (made : Origin) (change : Origin → Entries → Option Entries) :
    Origin → List String → Entries → Option Entries
  | here, [], es => change here es
  | _, name :: path, es =>
    match es.lookup name with
    | none => do
      let inner ← descend made change made path []
      some (es ++ [(name, .table made inner)])
    | some (.value _) => none
    | some (.elements earlier last) => do
      let last ← descend made change .header path last
      some (es.replace name (.elements earlier last))
    | some (.table origin inner) =>
      if made = .dotted ∧ origin = .header then none
      else do
        let inner ← descend made change origin path inner
        some (es.replace name (.table origin inner))

/-- Gives a value to the dotted key of the names in `path` and the last name `name`. -/
def insert (here : Origin) (path : List String) (name : String) (v : Toml) (es : Entries) :
    Option Entries :=
  es.descend .dotted
    (fun there es =>
      if (there = .dotted ↔ path = []) ∨ (es.lookup name).isSome then none
      else some (es ++ [(name, .value v)]))
    here path

/-- Opens a table by its header. -/
def openTable (path : List String) (name : String) (es : Entries) : Option Entries :=
  es.descend .passed
    (fun _ es =>
      match es.lookup name with
      | none => some (es ++ [(name, .table .header [])])
      | some (.table .passed inner) => some (es.replace name (.table .header inner))
      | some _ => none)
    .header path

/-- Opens a new element of an array of tables by its header. -/
def openElement (path : List String) (name : String) (es : Entries) : Option Entries :=
  es.descend .passed
    (fun _ es =>
      match es.lookup name with
      | none => some (es ++ [(name, .elements [] [])])
      | some (.elements earlier last) =>
        some (es.replace name (.elements (earlier ++ [.table (finishAll last)]) []))
      | some _ => none)
    .header path

end Entries

end TreeComparison.Toml

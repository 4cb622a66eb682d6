import TreeComparison.Toml.Number
import TreeComparison.Toml.Table

/-!
Reading TOML documents. The readers of values take a bound on their depth of calls, which the length
of the text makes large enough, and a bound on how deep arrays and inline tables are nested, which
belongs to what is accepted. A document is a list of lines; each opens a table or gives a value to a
key of the table that was opened last.
-/

namespace TreeComparison.Toml

/-! ### Values -/

/-- Reads `word` and gives `v` for it. -/
def word? (word : List Char) (v : Toml) (cs : List Char) : Option (Toml × List Char) :=
  if word.isPrefixOf cs then some (v, cs.drop word.length) else none

/-- Reads a value that holds no others. -/
def simple? : List Char → Option (Toml × List Char)
  | [] => none
  | c :: rest =>
    if c = '"' ∨ c = '\'' then (string? (c :: rest)).map fun r => (.string r.1, r.2)
    else if c = 't' then word? ['t', 'r', 'u', 'e'] (.boolean true) (c :: rest)
    else if c = 'f' then word? ['f', 'a', 'l', 's', 'e'] (.boolean false) (c :: rest)
    else number? (c :: rest)

mutual

/-- Reads a value. -/
def value? : Nat → Nat → List Char → Option (Toml × List Char)
  | 0, _, _ => none
  | bound + 1, levels, cs =>
    match cs, levels with
    | '[' :: _, 0 => none
    | '\x7b' :: _, 0 => none
    | '[' :: rest, levels + 1 =>
      (items? bound levels rest).map fun (vs, rest) => (.array vs, rest)
    | '\x7b' :: rest, levels + 1 =>
      match skipBlanks rest with
      | '\x7d' :: rest => some (.table [], rest)
      | rest => (pairs? bound levels [] rest).map fun (es, rest) => (.table (finishAll es), rest)
    | cs, _ => simple? cs

/-- Reads the items of an array and its end. A comma may stand after the last item. -/
def items? : Nat → Nat → List Char → Option (List Toml × List Char)
  | 0, _, _ => none
  | bound + 1, levels, cs => do
    match ← skipLines? false cs with
    | ']' :: rest => some ([], rest)
    | cs => do
      let (v, rest) ← value? bound levels cs
      match ← skipLines? false rest with
      | ',' :: rest => do
        let (vs, rest) ← items? bound levels rest
        some (v :: vs, rest)
      | ']' :: rest => some ([v], rest)
      | _ => none

/-- Reads the entries of an inline table that has some, and its end, and adds them to `es`. -/
def pairs? : Nat → Nat → Entries → List Char → Option (Entries × List Char)
  | 0, _, _, _ => none
  | bound + 1, levels, es, cs => do
    let (path, name, rest) ← key? cs
    let rest ← mark? '=' rest
    let (v, rest) ← value? bound levels (skipBlanks rest)
    let es ← es.insert .header path name v
    match skipBlanks rest with
    | ',' :: rest => pairs? bound levels es rest
    | '\x7d' :: rest => some (es, rest)
    | _ => none

end

/-- How deep arrays and inline tables can be nested. -/
def maxLevels : Nat := 79

/-! ### Lines -/

/-- A document of which some lines have been read: its entries so far, and the path of the table
that was opened last. -/
structure Draft where
  entries : Entries
  place : List String

namespace Draft

/-- Before the first line, keys belong to the document itself. -/
def empty : Draft := ⟨[], []⟩

/-- Gives a value to a key of the table that was opened last. -/
def insert (d : Draft) (path : List String) (name : String) (v : Toml) : Option Draft := do
  let es ← d.entries.descend .passed (fun here es => es.insert here path name v) .header d.place
  some { d with entries := es }

/-- Opens a table. -/
def openTable (d : Draft) (path : List String) (name : String) : Option Draft :=
  (d.entries.openTable path name).map fun es => ⟨es, path ++ [name]⟩

/-- Opens a new element of an array of tables. -/
def openElement (d : Draft) (path : List String) (name : String) : Option Draft :=
  (d.entries.openElement path name).map fun es => ⟨es, path ++ [name]⟩

end Draft

/-- Reads one line and its end. -/
def line? (d : Draft) : List Char → Option (Draft × List Char)
  | '[' :: '[' :: rest => do
    let (path, name, rest) ← key? rest
    let rest ← mark? ']' rest >>= mark? ']' >>= lineEnd?
    let d ← d.openElement path name
    some (d, rest)
  | '[' :: rest => do
    let (path, name, rest) ← key? rest
    let rest ← mark? ']' rest >>= lineEnd?
    let d ← d.openTable path name
    some (d, rest)
  | cs =>
    match lineEnd? cs with
    | some rest => some (d, rest)
    | none => do
      let (path, name, rest) ← key? cs
      let rest ← mark? '=' rest
      let (v, rest) ← value? (2 * rest.length + 2) maxLevels (skipBlanks rest)
      let rest ← lineEnd? rest
      let d ← d.insert path name v
      some (d, rest)

/-- Reads lines up to the end of the text, at most so many. -/
def lines? : Nat → Draft → List Char → Option Draft
  | 0, _, _ => none
  | bound + 1, d, cs =>
    match skipBlanks cs with
    | [] => some d
    | cs => do
      let (d, rest) ← line? d cs
      lines? bound d rest

/-- The text without the mark that some editors put at its beginning. -/
def skipMark : List Char → List Char
  | '\uFEFF' :: rest => rest
  | cs => cs

/-- The table that a text describes, if it is a document. -/
def parse? (text : String) : Option Toml :=
  let cs := skipMark text.toList
  (lines? (cs.length + 1) .empty cs).map fun d => .table (finishAll d.entries)

end TreeComparison.Toml

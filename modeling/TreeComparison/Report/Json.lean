import TreeComparison.Json.Parser
import TreeComparison.Json.Printer
import TreeComparison.Report.Basic

/-!
Reports as JSON. A report is an object with the fields `added_files`, `deleted_files`,
`differences` and `errors`, the last one only if it is not empty; the two values of a difference are
an array of two. Read back, a record may also be given as the array of its fields in order, and of
a path or an attribute that is given twice the last one counts.
-/

namespace TreeComparison

/-- A value as JSON: owners as numbers, all else as text. -/
def PropertyValue.toJson : PropertyValue → Json
  | .id n => .nat n.toNat
  | .text s => .text s

/-- Reads a value; a number must fit in 32 bits. -/
def PropertyValue.ofJson? (j : Json) : Option PropertyValue :=
  match j.nat? with
  | some n => if n < UInt32.size then some (.id (UInt32.ofNat n)) else none
  | none => j.text?.map .text

/-- The two values of a difference as JSON. -/
def PropertyDiff.pairToJson (p : PropertyValue × PropertyValue) : Json :=
  .array [p.1.toJson, p.2.toJson]

/-- Reads the two values of a difference. -/
def PropertyDiff.pairOfJson? : Json → Option (PropertyValue × PropertyValue)
  | .array [a, b] => do
    let a ← PropertyValue.ofJson? a
    let b ← PropertyValue.ofJson? b
    some (a, b)
  | _ => none

/-- The differing attributes of a path as JSON, in the order of their names. -/
def PropertyDiff.toJson (d : PropertyDiff) : Json :=
  .record (d.entries.map fun e => (e.1.name, pairToJson e.2))

/-- Reads the differing attributes of a path. -/
def PropertyDiff.ofJson? (j : Json) : Option PropertyDiff := do
  let ms ← j.members?
  let entries ← ms.mapM fun m => do
    let p ← Property.ofName? m.1
    let v ← pairOfJson? m.2
    some (p, v)
  some (SortedMap.ofList entries)

/-- A skipped operation as JSON. -/
def Skip.toJson (s : Skip) : Json :=
  .record [("path", .text s.path), ("operation", .text s.operation.name),
    ("message", .text s.message)]

/-- Reads a skipped operation. -/
def Skip.ofJson? (j : Json) : Option Skip :=
  match j.fields? ["path", "operation", "message"] with
  | some [some p, some o, some m] => do
    let p ← p.text?
    let o ← Json.variant? Operation.ofName? o
    let m ← m.text?
    some ⟨p, o, m⟩
  | _ => none

namespace Report

/-- A report as JSON. -/
def toJson (r : Report) : Json :=
  .record <|
    [("added_files", .array (r.added.map .text)),
      ("deleted_files", .array (r.deleted.map .text)),
      ("differences", .record (r.differences.entries.map fun e => (e.1, e.2.toJson)))] ++
    if r.errors.isEmpty then [] else [("errors", .array (r.errors.map Skip.toJson))]

/-- The text of a report, on one line or indented. -/
def print (r : Report) (pretty : Bool) : String :=
  r.toJson.print (if pretty then .indented else .compact)

/-- Reads the differences of a report. -/
def differencesOfJson? (j : Json) : Option (SortedMap String PropertyDiff) := do
  let ms ← j.members?
  let entries ← ms.mapM fun m => (PropertyDiff.ofJson? m.2).map fun d => (m.1, d)
  some (SortedMap.ofList entries)

/-- Reads a report from a JSON value; only its errors may be left out. -/
def ofJson? (j : Json) : Option Report :=
  match j.fields? ["added_files", "deleted_files", "differences", "errors"] with
  | some [some a, some d, some diffs, e] => do
    let a ← a.list? Json.text?
    let d ← d.list? Json.text?
    let diffs ← differencesOfJson? diffs
    let e ← match e with
      | none => some []
      | some e => e.list? Skip.ofJson?
    some ⟨a, d, diffs, e⟩
  | _ => none

/-- Reads a report from JSON text. -/
def parse? (text : String) : Option Report := Json.parse? text >>= ofJson?

end Report

end TreeComparison

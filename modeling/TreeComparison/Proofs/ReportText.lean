import TreeComparison.Proofs.JsonFields
import TreeComparison.Proofs.JsonText
import TreeComparison.Proofs.Recording
import TreeComparison.Report.Json

/-!
Reports as text. Each part of a report is read back from what it is written as: a number from its
digits and a text from its characters, which are never taken for each other, a map from its members
in the order of their keys, and the errors also when they were left out because there are none. So a
report is the same after it was written and read, on one line or indented.
-/

namespace TreeComparison

namespace Json

theorem list?_array {α : Type} {write : α → Json} {read : Json → Option α}
    (h : ∀ x, read (write x) = some x) (l : List α) :
    (Json.array (l.map write)).list? read = some l := by
  rw [list?]
  exact mapM_map_eq_some h l

theorem text?_text (s : String) : (text s).text? = some s := rfl

theorem nat?_nat (n : Nat) : (nat n).nat? = some n := by
  rw [nat, nat?, Nat.toString_eq_ofList_toDigits, String.toList_ofList]
  exact Digits.read?_toDigits (by decide) (by decide)

end Json

/-! ### Values -/

theorem PropertyValue.isData_toJson (v : PropertyValue) : v.toJson.IsData := by
  cases v with
  | id n => exact .nat _
  | text s => exact .text s

theorem PropertyDiff.isData_toJson (d : PropertyDiff) : d.toJson.IsData := by
  refine .record _ (List.forall_mem_map.2 fun e _ => .array _ ?_)
  simp [PropertyValue.isData_toJson]

theorem Skip.isData_toJson (s : Skip) : s.toJson.IsData := by
  refine .record _ ?_
  simp [Json.IsData.text]

theorem PropertyValue.ofJson?_toJson (v : PropertyValue) : ofJson? v.toJson = some v := by
  cases v with
  | id n =>
    rw [toJson, ofJson?, Json.nat?_nat]
    simp only [n.toNat_lt_size, if_true, UInt32.ofNat_toNat]
  | text s => rfl

theorem PropertyDiff.pairOfJson?_pairToJson (p : PropertyValue × PropertyValue) :
    pairOfJson? (pairToJson p) = some p := by
  rw [pairToJson, pairOfJson?, PropertyValue.ofJson?_toJson, PropertyValue.ofJson?_toJson]
  rfl

theorem Property.ofName?_name (p : Property) : ofName? p.name = some p := by
  cases p <;> decide

theorem Operation.ofName?_name (o : Operation) : ofName? o.name = some o := by
  cases o <;> decide

theorem PropertyDiff.ofJson?_toJson (d : PropertyDiff) : ofJson? d.toJson = some d := by
  rw [toJson, ofJson?, Json.members?_record, Option.bind_eq_bind, Option.bind_some,
    mapM_map_eq_some (fun e => ?_) d.entries, Option.bind_eq_bind, Option.bind_some,
    SortedMap.ofList_entries]
  simp only [Property.ofName?_name, pairOfJson?_pairToJson, Option.bind_eq_bind, Option.bind_some]

theorem Skip.ofJson?_toJson (s : Skip) : ofJson? s.toJson = some s := by
  have hfields : s.toJson.fields? ["path", "operation", "message"]
      = some [some (.text s.path), some (.text s.operation.name), some (.text s.message)] := by
    rw [toJson, Json.fields?_record]
    rfl
  rw [ofJson?, hfields]
  simp only [Json.text, Json.text?, Json.variant?, Operation.ofName?_name, Option.bind_eq_bind,
    Option.bind_some]

/-! ### Reports -/

namespace Report

theorem differencesOfJson?_record (m : SortedMap String PropertyDiff) :
    differencesOfJson? (.record (m.entries.map fun e => (e.1, e.2.toJson))) = some m := by
  rw [differencesOfJson?, Json.members?_record, Option.bind_eq_bind, Option.bind_some,
    mapM_map_eq_some (fun e => ?_) m.entries, Option.bind_eq_bind, Option.bind_some,
    SortedMap.ofList_entries]
  rw [PropertyDiff.ofJson?_toJson, Option.map_some]

/-- The errors are found among the fields of a report just if there are any. -/
theorem fields?_toJson (r : Report) :
    r.toJson.fields? ["added_files", "deleted_files", "differences", "errors"]
      = some [some (.array (r.added.map .text)), some (.array (r.deleted.map .text)),
        some (.record (r.differences.entries.map fun e => (e.1, e.2.toJson))),
        if r.errors.isEmpty then none else some (.array (r.errors.map Skip.toJson))] := by
  rw [toJson, Json.fields?_record]
  split <;> rfl

theorem ofJson?_toJson (r : Report) : ofJson? r.toJson = some r := by
  have htexts (l : List String) : (Json.array (l.map Json.text)).list? Json.text? = some l :=
    Json.list?_array Json.text?_text l
  have herrors : (Json.array (r.errors.map Skip.toJson)).list? Skip.ofJson? = some r.errors :=
    Json.list?_array Skip.ofJson?_toJson r.errors
  rw [ofJson?, fields?_toJson]
  -- errors that were left out are read as none, which is what they were
  cases hempty : r.errors.isEmpty with
  | true =>
    simp only [htexts, differencesOfJson?_record, Option.bind_eq_bind, Option.bind_some, if_true,
      ← List.isEmpty_iff.1 hempty]
  | false =>
    simp only [htexts, differencesOfJson?_record, herrors, Option.bind_eq_bind, Option.bind_some,
      Bool.false_eq_true, if_false]

theorem isData_toJson (r : Report) : r.toJson.IsData := by
  have htexts (l : List String) : (Json.array (l.map Json.text)).IsData :=
    .array _ (List.forall_mem_map.2 fun s _ => .text s)
  have hdifferences : (Json.record (r.differences.entries.map fun e => (e.1, e.2.toJson))).IsData :=
    .record _ (List.forall_mem_map.2 fun e _ => e.2.isData_toJson)
  have herrors : (Json.array (r.errors.map Skip.toJson)).IsData :=
    .array _ (List.forall_mem_map.2 fun s _ => s.isData_toJson)
  refine .record _ ?_
  split <;> simp [htexts, hdifferences, herrors]

/-- A report is the same after it was written and read, on one line or indented. -/
theorem print_roundTrips (r : Report) (pretty : Bool) : parse? (r.print pretty) = some r := by
  rw [parse?, print, Json.parse?_print r.isData_toJson, Option.bind_eq_bind, Option.bind_some,
    ofJson?_toJson]

end Report

end TreeComparison

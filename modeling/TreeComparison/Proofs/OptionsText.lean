import TreeComparison.Proofs.JsonFields
import TreeComparison.Proofs.JsonText

/-!
Options as text. Which texts are options, and which options they are, follows from what value a text
is: an object gives each field by one member or by none, an array gives them in order, and nothing
else gives any. So blanks, the spelling of names, the order of the members and what else an object
holds are of no account.
-/

namespace TreeComparison

variable {members members' : List (String × Json)} {v : Json} {o : Options}

theorem HashAlgorithm.ofTag?_eq_some_iff {text : String} {h : HashAlgorithm} :
    ofTag? text = some h ↔ text = h.tag := by
  constructor
  · intro hfind
    have htag := List.find?_some hfind
    exact (of_decide_eq_true htag).symm
  · rintro rfl
    cases h <;> rfl

namespace Json

/-- The algorithm that a value says: by its name, or by an object with this one name and null. -/
inductive SaysAlgorithm : Json → HashAlgorithm → Prop
  | text (h : HashAlgorithm) : SaysAlgorithm (.text h.tag) h
  | record (h : HashAlgorithm) : SaysAlgorithm (.record [(h.tag, .null)]) h

/-- The truth value that a value says. -/
def SaysBool (v : Json) (b : Bool) : Prop := v = .bool b

theorem variant?_eq_some_iff {h : HashAlgorithm} :
    variant? HashAlgorithm.ofTag? v = some h ↔ SaysAlgorithm v h := by
  constructor
  · intro hread
    rw [variant?.eq_def] at hread
    split at hread
    · rw [HashAlgorithm.ofTag?_eq_some_iff] at hread
      exact hread ▸ .text h
    · rw [HashAlgorithm.ofTag?_eq_some_iff] at hread
      exact hread ▸ .record h
    · cases hread
  · rintro (_ | _) <;> exact HashAlgorithm.ofTag?_eq_some_iff.2 rfl

theorem bool?_eq_some_iff {b : Bool} : v.bool? = some b ↔ SaysBool v b := by
  cases v <;> simp [bool?, SaysBool]

end Json

namespace Options

/-- The members of an object that have the name of a field. -/
def known (members : List (String × Json)) : List (String × Json) :=
  members.filter fun m => m.1 ∈ ["hash_algorithm", "strict"]

/-- The options that the items of an array say, the algorithm first. -/
inductive AreItems : List Json → Options → Prop
  | none : AreItems [] ⟨.sha256, false⟩
  | first {v : Json} {h : HashAlgorithm} (hv : Json.SaysAlgorithm v h) : AreItems [v] ⟨h, false⟩
  | both {v w : Json} {h : HashAlgorithm} {b : Bool} (hv : Json.SaysAlgorithm v h)
      (hw : Json.SaysBool w b) : AreItems [v, w] ⟨h, b⟩

/-! ### Options from a value -/

theorem ofJson?_record_eq_some_iff : ofJson? (.record members) = some o ↔
    Json.Gives Json.SaysAlgorithm .sha256 members "hash_algorithm" o.hashAlgorithm ∧
    Json.Gives Json.SaysBool false members "strict" o.strict := by
  rw [← Json.field?_unique?_eq_some_iff fun _ _ => Json.variant?_eq_some_iff,
    ← Json.field?_unique?_eq_some_iff fun _ _ => Json.bool?_eq_some_iff, ofJson?,
    Json.fields?_record]
  simp only [List.mapM_cons, List.mapM_nil]
  obtain ⟨h, b⟩ := o
  cases Json.unique? members "hash_algorithm" <;> cases Json.unique? members "strict" <;>
    simp [Option.bind_eq_some_iff, default]

theorem filter_known {name : String} (hname : name ∈ ["hash_algorithm", "strict"]) :
    (known members).filter (fun m => m.1 = name) = members.filter fun m => m.1 = name := by
  rw [known, List.filter_filter]
  refine List.filter_congr fun m _ => ?_
  by_cases hm : m.1 = name
  · simp [hm, hname]
  · simp [hm]

/-- Only the members with the name of a field count, and their order does not. -/
theorem ofJson?_record_eq (h : (known members).Perm (known members')) :
    ofJson? (.record members) = ofJson? (.record members') := by
  have hname : ∀ name ∈ ["hash_algorithm", "strict"],
      Json.unique? members name = Json.unique? members' name := by
    intro name hname
    have hperm := h.filter fun m => m.1 = name
    rw [filter_known hname, filter_known hname] at hperm
    exact Json.unique?_eq_of_perm hperm
  simp only [ofJson?, Json.fields?_record, List.mapM_cons, List.mapM_nil,
    hname "hash_algorithm" (by decide), hname "strict" (by decide)]

theorem ofJson?_first : ofJson? (.array [v]) =
    (Json.variant? HashAlgorithm.ofTag? v).bind fun h => some ⟨h, false⟩ := rfl

theorem ofJson?_both {w : Json} : ofJson? (.array [v, w]) =
    (Json.variant? HashAlgorithm.ofTag? v).bind fun h => w.bool?.bind fun b => some ⟨h, b⟩ := rfl

/-- An array with more items than there are fields says no options. -/
theorem ofJson?_array_eq_none {items : List Json} (h : 2 < items.length) :
    ofJson? (.array items) = none := by
  have hlength : ¬ items.length ≤ ["hash_algorithm", "strict"].length := Nat.not_le.2 h
  rw [ofJson?, Json.fields?, if_neg hlength]

theorem ofJson?_array_eq_some_iff {items : List Json} :
    ofJson? (.array items) = some o ↔ AreItems items o := by
  constructor
  · intro hread
    rcases items with _ | ⟨v, _ | ⟨w, _ | ⟨x, rest⟩⟩⟩
    · obtain rfl : ⟨.sha256, false⟩ = o := Option.some.inj hread
      exact .none
    · rw [ofJson?_first, Option.bind_eq_some_iff] at hread
      obtain ⟨h, hv, ho⟩ := hread
      obtain rfl := Option.some.inj ho
      exact .first (Json.variant?_eq_some_iff.1 hv)
    · simp only [ofJson?_both, Option.bind_eq_some_iff] at hread
      obtain ⟨h, hv, b, hw, ho⟩ := hread
      obtain rfl := Option.some.inj ho
      exact .both (Json.variant?_eq_some_iff.1 hv) (Json.bool?_eq_some_iff.1 hw)
    · rw [ofJson?_array_eq_none (by simp)] at hread
      cases hread
  · intro hitems
    cases hitems with
    | none => rfl
    | first hv => rw [ofJson?_first, Json.variant?_eq_some_iff.2 hv, Option.bind_some]
    | both hv hw =>
      rw [ofJson?_both, Json.variant?_eq_some_iff.2 hv, Json.bool?_eq_some_iff.2 hw,
        Option.bind_some, Option.bind_some]

theorem ofJson?_eq_none (harray : ∀ items, v ≠ .array items)
    (hrecord : ∀ members, v ≠ .record members) : ofJson? v = none := by
  rw [ofJson?, Json.fields?_eq_none harray hrecord]

/-! ### Options from a text -/

/-- Whether a text is read as just the options that are said by the value that it is. -/
structure ReadsExactly (text : String) : Prop where
  /-- Of an object both fields are given, or left out for their defaults. -/
  record : ∀ members, Json.IsText text (.record members) → ∀ o, parse? text = some o ↔
    Json.Gives Json.SaysAlgorithm .sha256 members "hash_algorithm" o.hashAlgorithm ∧
    Json.Gives Json.SaysBool false members "strict" o.strict
  /-- The order of its members does not matter, nor do members with other names. -/
  members : ∀ members, Json.IsText text (.record members) →
    ∀ text' members', Json.IsText text' (.record members') →
      (known members).Perm (known members') → parse? text = parse? text'
  /-- An array says the fields in order, and may leave out the last ones. -/
  array : ∀ items, Json.IsText text (.array items) → ∀ o, parse? text = some o ↔ AreItems items o
  /-- No other value says any options. -/
  other : ∀ v, Json.IsText text v → (∀ items, v ≠ .array items) → (∀ members, v ≠ .record members) →
    parse? text = none
  /-- A text that is no value is refused. -/
  noValue : (∀ v, ¬ Json.IsText text v) → parse? text = none

theorem parse?_eq_ofJson? {text : String} (h : Json.IsText text v) : parse? text = ofJson? v := by
  rw [parse?, Json.parse?_eq_some_iff.2 h, Option.bind_eq_bind, Option.bind_some]

theorem isData_toJson (o : Options) : o.toJson.IsData := by
  refine .record _ ?_
  simp [Json.IsData.text, Json.IsData.bool]

/-- Options are the same after they were written and read, in both layouts. -/
theorem parse?_print (o : Options) (layout : Json.Layout) :
    parse? (o.toJson.print layout) = some o := by
  have hhash : Json.IsOnly
      [("hash_algorithm", .text o.hashAlgorithm.tag), ("strict", .bool o.strict)]
      "hash_algorithm" (.text o.hashAlgorithm.tag) := ⟨[], [_], rfl, by simp⟩
  have hstrict : Json.IsOnly
      [("hash_algorithm", .text o.hashAlgorithm.tag), ("strict", .bool o.strict)]
      "strict" (.bool o.strict) := ⟨[_], [], rfl, by simp⟩
  rw [parse?_eq_ofJson? (Json.isText_print o.isData_toJson), toJson, ofJson?_record_eq_some_iff]
  exact ⟨.present hhash (.text _), .present hstrict rfl⟩

/-- Every text is read as options just if it is a value that says options, and then as these. -/
theorem parse?_isExact (text : String) : ReadsExactly text where
  record members h o := by
    rw [parse?_eq_ofJson? h]
    exact ofJson?_record_eq_some_iff
  members members h text' members' h' hperm := by
    rw [parse?_eq_ofJson? h, parse?_eq_ofJson? h']
    exact ofJson?_record_eq hperm
  array items h o := by
    rw [parse?_eq_ofJson? h]
    exact ofJson?_array_eq_some_iff
  other v h harray hrecord := by
    rw [parse?_eq_ofJson? h]
    exact ofJson?_eq_none harray hrecord
  noValue h := by
    have hnone : Json.parse? text = none :=
      Option.eq_none_iff_forall_ne_some.2 fun v hv => h v (Json.parse?_eq_some_iff.1 hv)
    rw [parse?, hnone]
    rfl

/-- An object with a field inside another value, and a field of its own. -/
def mixed : List (String × Json) :=
  [("deep", .array [.record [("hash_algorithm", .null)]]), ("strict", .bool true)]

/-- What is inside another value says nothing of the options. -/
theorem parse?_mixed : Json.IsText ((Json.record mixed).print .indented) (.record mixed) ∧
    parse? ((Json.record mixed).print .indented) = some ⟨.sha256, true⟩ := by
  have hdata : (Json.record mixed).IsData := by
    refine .record _ (List.forall_mem_cons.2 ⟨.array _ ?_, List.forall_mem_singleton.2 (.bool _)⟩)
    exact List.forall_mem_singleton.2 (.record _ (List.forall_mem_singleton.2 .null))
  have htext : Json.IsText ((Json.record mixed).print .indented) (.record mixed) :=
    Json.isText_print hdata
  have hstrict : Json.IsOnly mixed "strict" (.bool true) := ⟨[_], [], rfl, by simp⟩
  refine ⟨htext, ((parse?_isExact _).record mixed htext ⟨.sha256, true⟩).2 ⟨?_, ?_⟩⟩
  · exact .absent (by simp [mixed])
  · exact .present hstrict rfl

/-- The name of a field may be spelled with an escape. -/
example : parse? " \x7b\"deep\": [\x7b\"strict\": 1e9\x7d], \"stri\\u0063t\": true\x7d"
    = some ⟨.sha256, true⟩ := by decide +kernel

example : parse? "[\x7b\"blake3\": null\x7d]" = some ⟨.blake3, false⟩ := by decide +kernel

end Options

end TreeComparison

import Mathlib.Data.List.Basic
import TreeComparison.Options

/-!
The fields of a JSON value. The members of an object give a field if just one of them has its name,
and leave it out if none has. Which of the two it is, and the value that is given, depends neither
on the order of the members nor on those with other names.
-/

namespace TreeComparison

/-- Items that are each read back are read back as a list. -/
theorem mapM_map_eq_some {α β : Type} {write : α → β} {read : β → Option α}
    (h : ∀ x, read (write x) = some x) (l : List α) : (l.map write).mapM read = some l := by
  have hread : read ∘ write = fun x => some x := funext h
  rw [List.mapM_map, hread]
  simpa using List.mapM_pure (m := Option) (l := l) (f := id)

namespace Json

variable {α : Type} {members members' : List (String × Json)} {name : String} {v : Json}

/-! ### Members -/

theorem members?_record (members : List (String × Json)) :
    (record members).members? = some members := by
  rw [record, members?]
  refine mapM_map_eq_some (fun m => ?_) members
  rfl

/-- The members of an object are read just if all their names are texts. -/
theorem members?_eq_some_iff : v.members? = some members ↔ v = record members := by
  refine ⟨fun h => ?_, fun h => h ▸ members?_record members⟩
  cases v with
  | object ms =>
    rw [members?] at h
    rw [record, Json.object.injEq]
    induction ms generalizing members with
    | nil =>
      obtain rfl : [] = members := Option.some.inj h
      rfl
    | cons m ms ih =>
      obtain ⟨t, w⟩ := m
      simp only [List.mapM_cons, Option.bind_eq_bind, Option.bind_eq_some_iff,
        Option.map_eq_some_iff] at h
      obtain ⟨_, ⟨name, rfl, rfl⟩, members, hms, heq⟩ := h
      obtain rfl := Option.some.inj heq
      rw [List.map_cons, ← ih hms]
  | _ => cases h

theorem fields?_record (names : List String) (members : List (String × Json)) :
    (record members).fields? names = names.mapM (unique? members) := by
  have hmembers := members?_record members
  rw [record] at hmembers ⊢
  rw [fields?, hmembers]
  · rfl
  · intro _ h
    cases h

/-- Nothing but an array and an object with texts for names has fields. -/
theorem fields?_eq_none {names : List String} (harray : ∀ items, v ≠ .array items)
    (hrecord : ∀ members, v ≠ record members) : v.fields? names = none := by
  have hmembers : v.members? = none :=
    Option.eq_none_iff_forall_ne_some.2 fun ms h => hrecord ms (members?_eq_some_iff.1 h)
  rw [fields?, hmembers]
  · rfl
  · exact harray

/-! ### The member with a name -/

/-- Whether just one of some members has a name, and has this value. -/
def IsOnly (members : List (String × Json)) (name : String) (v : Json) : Prop :=
  ∃ before after, members = before ++ (name, v) :: after ∧ ∀ m ∈ before ++ after, m.1 ≠ name

theorem unique?_eq_some_none_iff :
    unique? members name = some none ↔ ∀ m ∈ members, m.1 ≠ name := by
  have hnil : members.filter (fun m => m.1 = name) = [] ↔ ∀ m ∈ members, m.1 ≠ name := by
    simp [List.filter_eq_nil_iff]
  rw [← hnil, unique?]
  split
  · rename_i h
    exact iff_of_true rfl h
  · rename_i h
    rw [h]
    exact iff_of_false (by simp) (by simp)
  · rename_i h _
    exact iff_of_false (by simp) h

theorem filter_eq_singleton_iff {m : String × Json} :
    members.filter (fun m => m.1 = name) = [m] ↔ m.1 = name ∧ IsOnly members name m.2 := by
  rw [List.filter_eq_cons_iff]
  constructor
  · rintro ⟨before, after, rfl, hbefore, hm, hafter⟩
    have hname : m.1 = name := of_decide_eq_true hm
    refine ⟨hname, before, after, by rw [← hname], fun x hx => ?_⟩
    rcases List.mem_append.1 hx with hx | hx
    · simpa using hbefore x hx
    · simpa using List.filter_eq_nil_iff.1 hafter x hx
  · rintro ⟨rfl, before, after, rfl, hothers⟩
    refine ⟨before, after, rfl, fun x hx => ?_, decide_eq_true rfl, ?_⟩
    · simpa using hothers x (List.mem_append_left _ hx)
    · exact List.filter_eq_nil_iff.2 fun x hx => by
        simpa using hothers x (List.mem_append_right _ hx)

theorem unique?_eq_some_some_iff :
    unique? members name = some (some v) ↔ IsOnly members name v := by
  have hone : IsOnly members name v ↔ members.filter (fun m => m.1 = name) = [(name, v)] := by
    simp [filter_eq_singleton_iff]
  rw [hone, unique?]
  split
  · rename_i h
    rw [h]
    simp
  · rename_i m h
    obtain ⟨hname, -⟩ := filter_eq_singleton_iff.1 h
    rw [h]
    constructor
    · intro hv
      obtain rfl : m.2 = v := by simpa using hv
      rw [← hname]
    · intro hm
      rw [(List.cons.inj hm).1]
  · rename_i h
    exact iff_of_false (by simp) (h _)

/-- Only the members with a name count for it, and their order does not. -/
theorem unique?_eq_of_perm
    (h : (members.filter fun m => m.1 = name).Perm (members'.filter fun m => m.1 = name)) :
    unique? members name = unique? members' name := by
  rw [unique?, unique?]
  split
  · rename_i hnil
    rw [hnil, List.nil_perm] at h
    rw [h]
  · rename_i m hone
    rw [hone, List.singleton_perm] at h
    rw [← h]
  · rename_i hnil hone
    split
    · rename_i hnil'
      rw [hnil', List.perm_nil] at h
      exact absurd h hnil
    · rename_i m hone'
      rw [hone', List.perm_singleton] at h
      exact absurd h (hone m)
    · rfl

/-! ### Fields -/

/-- What some members give to a field: its default if none of them has its name, and what a value
says if just this one goes with its name. -/
inductive Gives (Says : Json → α → Prop) (fallback : α) (members : List (String × Json))
    (name : String) : α → Prop
  | absent (h : ∀ m ∈ members, m.1 ≠ name) : Gives Says fallback members name fallback
  | present {v : Json} {a : α} (hv : IsOnly members name v) (ha : Says v a) :
      Gives Says fallback members name a

/-- A field is read as what the members give to it. -/
theorem field?_unique?_eq_some_iff {Says : Json → α → Prop} {read : Json → Option α}
    {fallback a : α} (hread : ∀ v a, read v = some a ↔ Says v a) :
    (unique? members name).bind (field? read fallback) = some a ↔
      Gives Says fallback members name a := by
  rw [Option.bind_eq_some_iff]
  constructor
  · rintro ⟨_ | v, hv, ha⟩
    · obtain rfl : fallback = a := Option.some.inj ha
      exact .absent (unique?_eq_some_none_iff.1 hv)
    · exact .present (unique?_eq_some_some_iff.1 hv) ((hread v a).1 ha)
  · intro h
    cases h with
    | absent h => exact ⟨none, unique?_eq_some_none_iff.2 h, rfl⟩
    | present hv ha => exact ⟨some _, unique?_eq_some_some_iff.2 hv, (hread _ _).2 ha⟩

end Json

end TreeComparison

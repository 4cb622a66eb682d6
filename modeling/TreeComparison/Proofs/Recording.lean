import Mathlib.Data.List.Induction
import TreeComparison.Proofs.Association
import TreeComparison.Walk.Run

/-!
What a report says, read off the findings that were written into it. The lists of a report are the
findings of one sort, in their order. Of the differences it keeps the last values for each attribute
of each path; where no attribute was found to differ in two ways, these are exactly the findings.
-/

namespace TreeComparison

instance : Std.Asymm (α := Property) (· < ·) where
  asymm := fun a b hlt => Std.Asymm.asymm (r := fun x y : String => x < y) a.name b.name hlt

/-- The path of a finding that belongs to one side only. -/
def Finding.only? (side : Side) : Finding → Option String
  | .only side' path => if side' = side then some path else none
  | _ => none

/-- The record of a finding that says what was skipped. -/
def Finding.skip? : Finding → Option Skip
  | .skipped path operation fault => some ⟨path, operation, fault.message⟩
  | _ => none

theorem Finding.only?_eq_some_iff {side : Side} {f : Finding} {path : String} :
    f.only? side = some path ↔ f = .only side path := by
  cases f with
  | only side' path' =>
    rw [only?]
    split
    · rename_i heq
      subst heq
      simp
    · rename_i hne
      simp [hne]
  | _ => simp [only?]

namespace Report

variable {r r' : Report} {strict : Bool} {f : Finding} {fs : List Finding} {path p : String}
  {q property : Property} {v w : PropertyValue}

/-- The paths that one side only has. -/
def paths (r : Report) : Side → List String
  | .deleted => r.deleted
  | .added => r.added

/-- The two values that are recorded for an attribute of a path. -/
def difference? (r : Report) (path : String) (q : Property) :
    Option (PropertyValue × PropertyValue) :=
  (r.properties? path).bind fun m => m.get? q

/-! ### One finding -/

theorem paths_note {side : Side} :
    (r.note strict f).paths side = r.paths side ++ (f.only? side).toList := by
  cases f with
  | only side' path =>
    cases side' <;> cases side <;> simp [note, recordDeleted, recordAdded, paths, Finding.only?]
  | skipped path operation fault =>
    cases strict <;> cases side <;> simp [note, recordSkipped, paths, Finding.only?]
  | _ => cases side <;> simp [note, recordDifference, paths, Finding.only?]

theorem errors_note :
    (r.note strict f).errors = r.errors ++ if strict then f.skip?.toList else [] := by
  cases f with
  | only side path => cases side <;> simp [note, recordDeleted, recordAdded, Finding.skip?]
  | skipped path operation fault =>
    cases strict <;> simp [note, recordSkipped, Finding.skip?]
  | _ => simp [note, recordDifference, Finding.skip?]

theorem difference?_recordDifference :
    (r.recordDifference path property v w).difference? p q =
      if p = path ∧ q = property then some (v, w) else r.difference? p q := by
  rw [difference?, properties?, recordDifference]
  by_cases hp : p = path
  · subst hp
    rw [SortedMap.get?_insert_self, Option.bind_some]
    by_cases hq : q = property
    · subst hq
      simp
    · rw [SortedMap.get?_insert_of_ne hq, difference?]
      cases r.properties? p <;> simp [hq]
  · rw [SortedMap.get?_insert_of_ne hp]
    simp [hp, difference?, properties?]

theorem difference?_note : (r.note strict f).difference? p q = some (v, w) ↔
    f = .differs p q v w ∨ (∀ v' w', f ≠ .differs p q v' w') ∧ r.difference? p q = some (v, w) := by
  cases f with
  | differs path property v' w' =>
    rw [note, difference?_recordDifference]
    split
    · rename_i hsame
      obtain ⟨rfl, rfl⟩ := hsame
      simp
    · rename_i hother
      have hne : ∀ x y, Finding.differs path property v' w' ≠ .differs p q x y := by
        intro x y heq
        obtain ⟨hp, hq, -⟩ := Finding.differs.inj heq
        exact hother ⟨hp.symm, hq.symm⟩
      simp [hne]
  | only side path =>
    cases side <;> simp [note, recordDeleted, recordAdded, difference?, properties?]
  | skipped path operation fault =>
    cases strict <;> simp [note, recordSkipped, difference?, properties?]
  | _ => simp [note]

/-! ### All findings -/

theorem noteAll_append_singleton :
    r.noteAll strict (fs ++ [f]) = (r.noteAll strict fs).note strict f := by
  rw [noteAll, List.foldl_append]; rfl

theorem paths_noteAll {side : Side} :
    (r.noteAll strict fs).paths side = r.paths side ++ fs.filterMap (Finding.only? side) := by
  induction fs using List.reverseRecOn with
  | nil => simp [noteAll]
  | append_singleton fs f ih =>
    rw [noteAll_append_singleton, paths_note, ih, List.filterMap_append, List.append_assoc]
    cases hf : f.only? side <;> simp [hf]

/-- The lists of a report are the paths that were found for each side. -/
theorem paths_noteAll_empty {side : Side} :
    ((∅ : Report).noteAll strict fs).paths side = fs.filterMap (Finding.only? side) := by
  have hempty : (∅ : Report).paths side = [] := by cases side <;> rfl
  rw [paths_noteAll, hempty, List.nil_append]

theorem mem_paths_noteAll {side : Side} :
    p ∈ ((∅ : Report).noteAll strict fs).paths side ↔ .only side p ∈ fs := by
  rw [paths_noteAll_empty, List.mem_filterMap]
  simp only [Finding.only?_eq_some_iff, exists_eq_right]

theorem errors_noteAll : (r.noteAll strict fs).errors
    = r.errors ++ if strict then fs.filterMap Finding.skip? else [] := by
  induction fs using List.reverseRecOn with
  | nil => simp [noteAll]
  | append_singleton fs f ih =>
    rw [noteAll_append_singleton, errors_note, ih]
    cases strict
    · simp
    · cases hf : f.skip? <;> simp [hf]

/-- A report holds the differences that were found, if none was found with two pairs of values. -/
theorem difference?_noteAll (hunique : ∀ p q v w v' w', .differs p q v w ∈ fs →
    .differs p q v' w' ∈ fs → v = v' ∧ w = w') :
    ((∅ : Report).noteAll strict fs).difference? p q = some (v, w) ↔ .differs p q v w ∈ fs := by
  induction fs using List.reverseRecOn with
  | nil => exact iff_of_false (fun hnone => nomatch hnone) (fun hmem => nomatch hmem)
  | append_singleton fs f ih =>
    have hunique' : ∀ p q v w v' w', .differs p q v w ∈ fs → .differs p q v' w' ∈ fs →
        v = v' ∧ w = w' := fun p q v w v' w' hf hf' =>
      hunique p q v w v' w' (List.mem_append_left _ hf) (List.mem_append_left _ hf')
    rw [noteAll_append_singleton, difference?_note, ih hunique', List.mem_append,
      List.mem_singleton]
    constructor
    · rintro (rfl | ⟨-, hmem⟩)
      · exact .inr rfl
      · exact .inl hmem
    · rintro (hmem | rfl)
      · by_cases hlast : f = .differs p q v w
        · exact .inl hlast
        · -- any other value that `f` might put in its place was ruled out
          refine .inr ⟨?_, hmem⟩
          rintro v' w' rfl
          obtain ⟨rfl, rfl⟩ := hunique p q v w v' w' (List.mem_append_left _ hmem) (by simp)
          exact hlast rfl
      · exact .inl rfl

/-! ### Paths with differences -/

/-- Whether something is recorded for each path that has a record of differences. -/
def IsMeaningful (r : Report) : Prop :=
  ∀ p m, r.properties? p = some m → ∃ q vw, m.get? q = some vw

theorem isMeaningful_note (hr : r.IsMeaningful) : (r.note strict f).IsMeaningful := by
  cases f with
  | differs path property v w =>
    intro p m hm
    rw [note, properties?, recordDifference] at hm
    by_cases hp : p = path
    · subst hp
      rw [SortedMap.get?_insert_self] at hm
      obtain rfl := Option.some.inj hm
      exact ⟨property, (v, w), SortedMap.get?_insert_self⟩
    · rw [SortedMap.get?_insert_of_ne hp] at hm
      exact hr p m hm
  | only side path => cases side <;> exact hr
  | skipped path operation fault => cases strict <;> exact hr
  | _ => exact hr

theorem isMeaningful_noteAll : ((∅ : Report).noteAll strict fs).IsMeaningful := by
  induction fs using List.reverseRecOn with
  | nil => exact fun p m hm => nomatch hm
  | append_singleton fs f ih =>
    rw [noteAll_append_singleton]
    exact isMeaningful_note ih

/-- The paths with differences are those for which some attribute is recorded. -/
theorem mem_keys_differences_iff (hr : r.IsMeaningful) :
    p ∈ r.differences.keys ↔ ∃ q vw, r.difference? p q = some vw := by
  rw [SortedMap.mem_keys_iff]
  constructor
  · rintro ⟨m, hm⟩
    obtain ⟨q, vw, hq⟩ := hr p m hm
    exact ⟨q, vw, Option.bind_eq_some_iff.2 ⟨m, hm, hq⟩⟩
  · rintro ⟨q, vw, hq⟩
    obtain ⟨m, hm, -⟩ := Option.bind_eq_some_iff.1 hq
    exact ⟨m, hm⟩

theorem difference?_of_isEmpty (hr : r.isEmpty = true) : r.difference? p q = none := by
  have hdifferences : r.differences.entries = [] :=
    List.isEmpty_iff.1 (Bool.and_eq_true_iff.1 hr).2
  rw [difference?, properties?, SortedMap.get?, hdifferences]
  rfl

theorem paths_of_isEmpty {side : Side} (hr : r.isEmpty = true) : r.paths side = [] := by
  obtain ⟨hadded, hdeleted⟩ := Bool.and_eq_true_iff.1 (Bool.and_eq_true_iff.1 hr).1
  cases side with
  | deleted => exact List.isEmpty_iff.1 hdeleted
  | added => exact List.isEmpty_iff.1 hadded

/-- If nothing is recorded for any attribute of a path, the path has no record of differences. -/
theorem properties?_eq_none (hr : r.IsMeaningful) (h : ∀ q, r.difference? p q = none) :
    r.properties? p = none := by
  cases hm : r.properties? p with
  | none => rfl
  | some m =>
    obtain ⟨q, vw, hvw⟩ := hr p m hm
    have hnone := h q
    rw [difference?, hm, Option.bind_some, hvw] at hnone
    cases hnone

/-- Two reports have the same of a path, if they have the same of each attribute of it. -/
theorem properties?_eq (hr : r.IsMeaningful) (hr' : r'.IsMeaningful)
    (h : ∀ q, r.difference? p q = r'.difference? p q) : r.properties? p = r'.properties? p := by
  cases hm : r.properties? p with
  | none =>
    refine (properties?_eq_none hr' fun q => ?_).symm
    rw [← h q, difference?, hm]
    rfl
  | some m =>
    cases hm' : r'.properties? p with
    | none =>
      have hnone : r.properties? p = none := by
        refine properties?_eq_none hr fun q => ?_
        rw [h q, difference?, hm']
        rfl
      rw [hm] at hnone
      cases hnone
    | some m' =>
      refine congrArg some (SortedMap.ext_get? fun q => ?_)
      have hsome := h q
      rwa [difference?, difference?, hm, hm'] at hsome

section Keys

variable (hr : r.IsMeaningful) (hr' : r'.IsMeaningful)
include hr hr'

/-- Two reports have the same attributes of a path, if each is there in both or in none. -/
theorem keys_properties?_eq (h : ∀ q, (r.difference? p q).isSome = (r'.difference? p q).isSome) :
    (r.properties? p).map SortedMap.keys = (r'.properties? p).map SortedMap.keys := by
  have hnone : ∀ q, r.difference? p q = none ↔ r'.difference? p q = none := fun q => by
    rw [← Option.not_isSome_iff_eq_none, h, Option.not_isSome_iff_eq_none]
  cases hm : r.properties? p with
  | none =>
    rw [properties?_eq_none hr' fun q => (hnone q).1 (by rw [difference?, hm]; rfl)]
  | some m =>
    cases hm' : r'.properties? p with
    | none =>
      rw [properties?_eq_none hr fun q => (hnone q).2 (by rw [difference?, hm']; rfl)] at hm
      cases hm
    | some m' =>
      refine congrArg some (SortedMap.keys_eq fun q => ?_)
      have hq := h q
      rw [difference?, difference?, hm, hm', Option.bind_some, Option.bind_some] at hq
      rw [SortedMap.mem_keys_iff, SortedMap.mem_keys_iff, ← Option.isSome_iff_exists, hq,
        Option.isSome_iff_exists]

/-- Two reports have the same paths, if each attribute of each is there in both or in none. -/
theorem keys_differences_eq
    (h : ∀ p q, (r.difference? p q).isSome = (r'.difference? p q).isSome) :
    r.differences.keys = r'.differences.keys := by
  refine SortedMap.keys_eq fun p => ?_
  rw [mem_keys_differences_iff hr, mem_keys_differences_iff hr']
  simp only [← Option.isSome_iff_exists, h]

end Keys

/-- Two reports have the same differences, if they have the same of each attribute of each path. -/
theorem differences_eq (hr : r.IsMeaningful) (hr' : r'.IsMeaningful)
    (h : ∀ p q, r.difference? p q = r'.difference? p q) : r.differences = r'.differences :=
  SortedMap.ext_get? fun p => properties?_eq hr hr' (h p)

end Report

end TreeComparison

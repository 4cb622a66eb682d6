import TreeComparison.Proofs.Relisting
import TreeComparison.Proofs.ReportText

/-!
The text of a sorted report. Sorting puts the two lists of paths in order and leaves the errors in
the order in which they were found. So for two file systems that differ in the order of listing only
the sorted reports differ in the order of the errors at most; and as a report can be read off its
text, the texts are the same just if the errors come in the same order. In a lax run there are none.
-/

namespace TreeComparison

/-- A list is sorted into the same list in whatever order it comes. -/
theorem mergeSort_eq_of_perm {α : Type} {le : α → α → Bool}
    (trans : ∀ x y z, le x y → le y z → le x z) (total : ∀ x y, le x y || le y x)
    (antisymm : ∀ x y, le x y → le y x → x = y) {l l' : List α} (h : l.Perm l') :
    l.mergeSort le = l'.mergeSort le := by
  have hperm : (l.mergeSort le).Perm (l'.mergeSort le) :=
    (List.mergeSort_perm l le).trans (h.trans (List.mergeSort_perm l' le).symm)
  exact hperm.eq_of_pairwise (fun x y _ _ => antisymm x y)
    (List.pairwise_mergeSort trans total l) (List.pairwise_mergeSort trans total l')

namespace Report

variable {r r' : Report} {pretty : Bool}

theorem decide_le_trans (x y z : String) (hxy : decide (x ≤ y) = true)
    (hyz : decide (y ≤ z) = true) : decide (x ≤ z) = true :=
  decide_eq_true (String.le_trans (of_decide_eq_true hxy) (of_decide_eq_true hyz))

theorem decide_le_total (x y : String) : (decide (x ≤ y) || decide (y ≤ x)) = true := by
  simpa using String.le_total x y

theorem mergeSort_paths_eq {l l' : List String} (h : l.Perm l') :
    (l.mergeSort fun x y => decide (x ≤ y)) = l'.mergeSort fun x y => decide (x ≤ y) := by
  refine mergeSort_eq_of_perm decide_le_trans decide_le_total ?_ h
  intro x y hxy hyx
  exact String.le_antisymm (of_decide_eq_true hxy) (of_decide_eq_true hyx)

theorem pairwise_mergeSort_paths {l : List String} :
    (l.mergeSort fun x y => decide (x ≤ y)).Pairwise (· ≤ ·) :=
  (List.pairwise_mergeSort decide_le_trans decide_le_total l).imp of_decide_eq_true

@[simp] theorem errors_sort : r.sort.errors = r.errors := rfl

/-- A sorted report is left as it is by sorting. -/
theorem sort_sort : r.sort.sort = r.sort := by
  have hsorted : ∀ l : List String, ((l.mergeSort fun x y => decide (x ≤ y)).mergeSort fun x y =>
      decide (x ≤ y)) = l.mergeSort fun x y => decide (x ≤ y) := fun l =>
    List.mergeSort_of_pairwise (List.pairwise_mergeSort decide_le_trans decide_le_total l)
  rw [sort, sort, hsorted, hsorted]

/-- Sorted, reports that differ in the order of their lists differ in that of their errors alone. -/
theorem sort_eq_of_reordered (h : r.Reordered r') :
    r'.sort = { r.sort with errors := r'.errors } := by
  rw [sort, sort, mergeSort_paths_eq h.added, mergeSort_paths_eq h.deleted, h.differences]

/-- Reports that are written in the same way are the same. -/
theorem print_inj (h : r.print pretty = r'.print pretty) : r = r' := by
  have hjson : some r.toJson = some r'.toJson := by
    rw [← Json.parse?_print r.isData_toJson, ← Json.parse?_print r'.isData_toJson]
    exact congrArg Json.parse? h
  have hread := congrArg ofJson? (Option.some.inj hjson)
  rw [ofJson?_toJson, ofJson?_toJson] at hread
  exact Option.some.inj hread

theorem print_sort_eq_iff (h : r.Reordered r') :
    r.sort.print pretty = r'.sort.print pretty ↔ r.errors = r'.errors := by
  rw [sort_eq_of_reordered h]
  constructor
  · intro hprint
    simpa only [errors_sort] using congrArg errors (print_inj hprint)
  · intro herrors
    rw [← herrors]
    rfl

end Report

namespace Store

/-- Whatever order the directories list their entries in, the sorted reports are the same up to the
order of their errors, and their texts are the same just if that order is the same too. So they are
in a lax run, which records no errors. -/
theorem print_sort_diff_eq_iff {s t : Store} (hst : s.Relisted t) (u : User) (o : Options)
    (a b : DirectoryId) (pretty : Bool) :
    (t.diff u o a b ∅).sort = { (s.diff u o a b ∅).sort with errors := (t.diff u o a b ∅).errors } ∧
    (s.diff u o a b ∅).errors.Perm (t.diff u o a b ∅).errors ∧
    ((s.diff u o a b ∅).sort.print pretty = (t.diff u o a b ∅).sort.print pretty ↔
      (s.diff u o a b ∅).errors = (t.diff u o a b ∅).errors) ∧
    (o.strict = false →
      (s.diff u o a b ∅).sort.print pretty = (t.diff u o a b ∅).sort.print pretty) := by
  have hreordered := hst.reordered_diff (u := u) (o := o) (a := a) (b := b)
  refine ⟨Report.sort_eq_of_reordered hreordered, hreordered.errors,
    Report.print_sort_eq_iff hreordered, fun ho => ?_⟩
  refine (Report.print_sort_eq_iff hreordered).2 ?_
  rw [errors_diff, errors_diff, ho]
  rfl

/-- A lax run on the two vaults gives the same text. -/
theorem print_sort_diff_vault : (vault forth).Relisted (vault back) ∧
    ((vault forth).diff ⟨8, 8, false⟩ ⟨.sha256, false⟩ 0 1 ∅).sort.print true
      = ((vault back).diff ⟨8, 8, false⟩ ⟨.sha256, false⟩ 0 1 ∅).sort.print true := by
  refine ⟨relisted_forth_back, ?_⟩
  exact (print_sort_diff_eq_iff relisted_forth_back ⟨8, 8, false⟩ ⟨.sha256, false⟩ 0 1
    true).2.2.2 rfl

/-- In a strict run the errors follow the order of the files. -/
theorem errors_forth_back :
    ((vault forth).diff ⟨8, 8, false⟩ ⟨.sha256, true⟩ 0 1 ∅).errors.map Skip.path = ["/p", "/q"] ∧
    ((vault back).diff ⟨8, 8, false⟩ ⟨.sha256, true⟩ 0 1 ∅).errors.map Skip.path =
      ["/q", "/p"] := by
  decide

/-- And so the texts of a strict run differ: sorting leaves the errors as they were found. -/
theorem sorted_texts_differ : (vault forth).Relisted (vault back) ∧
    ((vault forth).diff ⟨8, 8, false⟩ ⟨.sha256, true⟩ 0 1 ∅).sort.print false
      ≠ ((vault back).diff ⟨8, 8, false⟩ ⟨.sha256, true⟩ 0 1 ∅).sort.print false := by
  refine ⟨relisted_forth_back, fun htext => ?_⟩
  have herrors := (Report.print_sort_eq_iff relisted_forth_back.reordered_diff).1 htext
  have hpaths := congrArg (List.map Skip.path) herrors
  rw [errors_forth_back.1, errors_forth_back.2] at hpaths
  exact absurd hpaths (by decide)

end Store

end TreeComparison

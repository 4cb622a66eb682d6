import TreeComparison.Proofs.Comparison

/-!
What a report says is so, whatever was refused. A refusal may keep something out of a report, but it
never makes an entry look as if it were missing on one side.
-/

namespace TreeComparison.Store

variable {s : Store} {u : User} {a b : DirectoryId} {p : String} {o : Options}

/-- Whether a path is that of an entry of the first tree and of no entry of the second. -/
def IsPathOfFirst (s : Store) (a b : DirectoryId) (p : String) : Prop :=
  (∃ ns, ns ≠ [] ∧ p = logicalPath ns ∧ (s.entryAt (.directory a) ns).isSome = true) ∧
    ∀ ns, p = logicalPath ns → s.entryAt (.directory b) ns = none

/-- Whether a path is that of the two roots or of an entry that both trees have. -/
def IsPathOfBoth (s : Store) (a b : DirectoryId) (p : String) : Prop :=
  p = "/" ∨ ∃ ns, p = logicalPath ns ∧ (s.entryAt (.directory a) ns).isSome = true ∧
    (s.entryAt (.directory b) ns).isSome = true

/-- Whether nothing that a report says of two trees is wrong, and nothing is said twice. -/
structure IsSound (s : Store) (a b : DirectoryId) (r : Report) : Prop where
  nodup_deleted : r.deleted.Nodup
  nodup_added : r.added.Nodup
  nodup_errors : r.errors.Nodup
  of_mem_deleted : ∀ p ∈ r.deleted, s.IsPathOfFirst a b p
  of_mem_added : ∀ p ∈ r.added, s.IsPathOfFirst b a p
  of_mem_keys : ∀ p ∈ r.differences.keys, s.IsPathOfBoth a b p
  deleted_added : r.deleted.Disjoint r.added
  deleted_keys : r.deleted.Disjoint r.differences.keys
  added_keys : r.added.Disjoint r.differences.keys

theorem LoneAt.isPathOfFirst {ns : List Name} (hlone : s.LoneAt a b ns) :
    s.IsPathOfFirst a b (logicalPath ns) := by
  refine ⟨⟨ns, hlone.ne_nil, rfl, hlone.isSome⟩, ?_⟩
  intro ns' hpath
  rw [← logicalPath_injective hpath]
  exact hlone.entryAt_eq_none

/-- What one tree alone has, the other has not. -/
theorem IsPathOfFirst.not_swap (h : s.IsPathOfFirst a b p) : ¬ s.IsPathOfFirst b a p := by
  obtain ⟨⟨ns, -, hpath, hsome⟩, -⟩ := h
  rintro ⟨-, hnone⟩
  rw [hnone ns hpath] at hsome
  cases hsome

/-- What one tree alone has, is not had by both. -/
theorem IsPathOfFirst.not_both (h : s.IsPathOfFirst a b p) : ¬ s.IsPathOfBoth a b p := by
  obtain ⟨⟨ns, hne, hpath, -⟩, hnone⟩ := h
  rintro (hroot | ⟨ns', hpath', -, hsome⟩)
  · exact logicalPath_ne_root hne (hpath.symm.trans hroot)
  · rw [hnone ns' hpath'] at hsome
    cases hsome

theorem IsPathOfBoth.symm (h : s.IsPathOfBoth a b p) : s.IsPathOfBoth b a p := by
  rcases h with hroot | ⟨ns, hpath, ha, hb⟩
  · exact .inl hroot
  · exact .inr ⟨ns, hpath, hb, ha⟩

theorem isPathOfFirst_of_mem_deleted (hp : p ∈ (s.diff u o a b ∅).deleted) :
    s.IsPathOfFirst a b p := by
  have hf := only_mem_compare_iff.1 ((mem_paths_diff .deleted).1 hp)
  obtain ⟨ns, rfl, -, hlone⟩ := justified_of_mem_level hf
  exact LoneAt.isPathOfFirst hlone

theorem isPathOfFirst_of_mem_added (hp : p ∈ (s.diff u o a b ∅).added) : s.IsPathOfFirst b a p := by
  have hf := only_mem_compare_iff.1 ((mem_paths_diff .added).1 hp)
  obtain ⟨ns, rfl, -, hlone⟩ := justified_of_mem_level hf
  exact LoneAt.isPathOfFirst hlone

theorem isPathOfBoth_of_mem_keys (hp : p ∈ (s.diff u o a b ∅).differences.keys) :
    s.IsPathOfBoth a b p := by
  obtain ⟨q, ⟨v, w⟩, hq⟩ := (Report.mem_keys_differences_iff isMeaningful_diff).1 hp
  rcases differs_mem_compare (difference?_diff.1 hq) with
    ⟨hroot, -⟩ | ⟨ns, x, y, -, hpath, ⟨hx, hy, -⟩, -⟩
  · exact .inl hroot
  · exact .inr ⟨ns, hpath, by rw [hx]; rfl, by rw [hy]; rfl⟩

/-- Every report on trees at rest is sound, for every user and with all options. -/
theorem diff_isSound : s.IsSound a b (s.diff u o a b ∅) where
  nodup_deleted := nodup_paths_diff .deleted
  nodup_added := nodup_paths_diff .added
  nodup_errors := nodup_errors_diff
  of_mem_deleted := fun _ => isPathOfFirst_of_mem_deleted
  of_mem_added := fun _ => isPathOfFirst_of_mem_added
  of_mem_keys := fun _ => isPathOfBoth_of_mem_keys
  deleted_added := fun _ hdeleted hadded =>
    (isPathOfFirst_of_mem_deleted hdeleted).not_swap (isPathOfFirst_of_mem_added hadded)
  deleted_keys := fun _ hdeleted hkey =>
    (isPathOfFirst_of_mem_deleted hdeleted).not_both (isPathOfBoth_of_mem_keys hkey)
  added_keys := fun _ hadded hkey =>
    (isPathOfFirst_of_mem_added hadded).not_both (isPathOfBoth_of_mem_keys hkey).symm

end TreeComparison.Store

import TreeComparison.FileSystem.Change

/-!
What a change leaves as it is. A change alters the records of a few directories, which can be told
before it is made: those that list what is added, taken away or given other attributes, and those
that are emptied. New directories come after all that the table has. Every other directory keeps its
record, whoever makes the change and wherever the paths lead.
-/

namespace TreeComparison

namespace Store

variable {s t t' : Store} {u : User} {base d : DirectoryId} {ds ds' : List DirectoryId}
  {dir : Directory} {c : Change}

/-! ### Tables that differ in some places -/

/-- Whether a second table is a first one with other records in some places, and with records in
new places. -/
structure Alters (ds : List DirectoryId) (s t : Store) : Prop where
  size : s.size ≤ t.size
  directory : ∀ d < s.size, d ∉ ds → t.directory d = s.directory d

theorem Alters.refl (s : Store) : Alters ds s s := ⟨Nat.le_refl _, fun _ _ _ => rfl⟩

theorem Alters.trans (h : Alters ds s t) (h' : Alters ds' t t') : Alters (ds ++ ds') s t' where
  size := Nat.le_trans h.size h'.size
  directory := by
    intro d hd hmem
    rw [List.mem_append, not_or] at hmem
    rw [h'.directory d (Nat.lt_of_lt_of_le hd h.size) hmem.2, h.directory d hd hmem.1]

theorem Alters.mono (h : Alters ds s t) (hsub : ∀ d ∈ ds, d ∈ ds' ∨ s.size ≤ d) :
    Alters ds' s t where
  size := h.size
  directory := by
    intro d hd hmem
    refine h.directory d hd fun hds => ?_
    rcases hsub d hds with hds' | hle
    · exact hmem hds'
    · exact Nat.not_le_of_lt hd hle

theorem alters_setDirectory : Alters [d] s (s.setDirectory d dir) where
  size := by
    have hsize : (s.setDirectory d dir).size = s.size := Array.size_setIfInBounds
    exact Nat.le_of_eq hsize.symm
  directory := by
    intro e _ hmem
    have hne : d ≠ e := fun heq => hmem (heq ▸ List.mem_singleton.2 rfl)
    simp [directory, setDirectory, hne]

theorem alters_addDirectory : Alters [] s (s.addDirectory dir) where
  size := by simp [size, addDirectory]
  directory := by
    intro d hd _
    have hne : d ≠ s.directories.size := Nat.ne_of_lt hd
    simp [directory, addDirectory, Array.getElem?_push, hne]

mutual

/-- To make a node no directory is altered that there was before. -/
theorem alters_plant (s : Store) : ∀ n : Node, Alters [] s (s.plant n).1
  | .file _ _ => .refl s
  | .symlink _ _ => .refl s
  | .special _ _ => .refl s
  | .directory a children => by
    have hnew : Alters [] s (plantAll (s.addDirectory .vacant) ∅ children).1 :=
      alters_addDirectory.trans (alters_plantAll _ ∅ children)
    rw [plant]
    refine (hnew.trans alters_setDirectory).mono fun d hd => .inr ?_
    exact Nat.le_of_eq (List.mem_singleton.1 hd).symm

theorem alters_plantAll (s : Store) (done : Listing) :
    ∀ ns : List (Name × Node), Alters [] s (s.plantAll done ns).1
  | [] => .refl s
  | (name, n) :: ns => by
    rw [plantAll]
    exact (alters_plant s n).trans (alters_plantAll _ _ ns)

end

/-! ### Changes -/

end Store

end TreeComparison

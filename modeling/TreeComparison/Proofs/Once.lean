import Mathlib.Data.List.Nodup
import TreeComparison.Proofs.Places

/-!
Nothing is noted down twice, but that labels cannot be read, which is noted down once for each side.
What is noted down for an entry has a path at the entry or below it, and such paths differ for two
entries of one directory; so it is enough that each entry for itself is noted down without
repetition, which goes down the tree level by level.
-/

namespace TreeComparison

/-- Whether a path is a given one or leads on from it. -/
def Reaches (path q : String) : Prop := ∃ ns, q = pathBelow path ns

theorem reaches_self (path : String) : Reaches path path := ⟨[], rfl⟩

/-- Paths that lead on from two entries of one directory are different. -/
theorem name_eq_of_reaches {m : List Name} {n n' : Name} {q : String}
    (h : Reaches (logicalPath (m ++ [n])) q) (h' : Reaches (logicalPath (m ++ [n'])) q) :
    n = n' := by
  obtain ⟨ns, hns⟩ := h
  obtain ⟨ns', hns'⟩ := h'
  rw [← logicalPath_append] at hns hns'
  have heq := logicalPath_injective (hns.symm.trans hns')
  simp only [List.append_assoc, List.append_cancel_left_eq, List.cons_append,
    List.nil_append] at heq
  exact (List.cons.inj heq).1

/-- No path leads on to itself. -/
theorem eq_nil_of_pathBelow_eq {m ns : List Name}
    (h : logicalPath m = pathBelow (logicalPath m) ns) : ns = [] := by
  rw [← logicalPath_append] at h
  exact List.self_eq_append_right.1 (logicalPath_injective h)

/-- What is gathered from the entries of a directory is not repeated, if each entry gives something
at its own path or below it, and gives it once. -/
theorem nodup_flatMap_entries {α : Type} (m : List Name) {es : List (Name × Entry)}
    {part : Name × Entry → List α} (place : α → String) (hes : (es.map (·.1)).Nodup)
    (hplace : ∀ e ∈ es, ∀ p ∈ part e, Reaches (logicalPath (m ++ [e.1])) (place p))
    (hpart : ∀ e ∈ es, (part e).Nodup) : (es.flatMap part).Nodup := by
  rw [List.nodup_flatMap]
  refine ⟨hpart, (List.pairwise_map.1 hes).imp_of_mem ?_⟩
  intro e e' he he' hne p hp hp'
  exact hne (name_eq_of_reaches (hplace e he p hp) (hplace e' he' p hp'))

/-- Whether a finding is for both sides at once or for the one side that has an entry. -/
def Finding.isSingle : Finding → Bool
  | .unreadableLabel _ _ => false
  | _ => true

namespace Store

variable {s : Store} {u : User} {h : HashAlgorithm} {k : Nat} {a b : DirectoryId} {m : List Name}
  {n : Name} {x y : Entry} {path : String} {f : Finding} {side : Side}

theorem nodup_entries (s : Store) (d : DirectoryId) : ((s.entries d).map (·.1)).Nodup :=
  (s.directory d).listing.distinct

/-! ### Where the parts of a level have their paths -/

theorem reaches_of_mem_notesUnder (hf : f ∈ s.notesUnder u k x path) : Reaches path f.path := by
  obtain ⟨ns, ⟨-, rfl⟩ | ⟨operation, rfl⟩⟩ := exists_of_mem_notesUnder hf
  · exact ⟨ns, rfl⟩
  · exact ⟨ns, rfl⟩

theorem reaches_of_mem_oneSidedNotes (hf : f ∈ s.oneSidedNotes u k side x path) :
    Reaches path f.path := by
  rcases mem_oneSidedNotes_iff.1 hf with rfl | hf | ⟨q, hq, rfl⟩
  · exact reaches_self path
  · exact reaches_of_mem_notesUnder hf
  · obtain ⟨ns, -, -, rfl⟩ := exists_of_mem_cons_pathsUnder hq
    exact ⟨ns, rfl⟩

theorem reaches_of_mem_pairNotes (hf : f ∈ s.pairNotes u h k x y path) : Reaches path f.path := by
  cases mem_pairNotes_iff.1 hf with
  | differs q v w hq hread hlabel => exact reaches_self path
  | unlabelled hlabel => exact reaches_self path
  | refused operation hmode hread hkind => exact reaches_self path
  | inside c d hx hy hmode hc hd _ hf =>
    obtain ⟨ns, hns, -⟩ := justified_of_mem_level hf
    exact ⟨ns, hns⟩

theorem reaches_of_mem_visitNotes (hf : f ∈ s.visitNotes u h k b n x path) :
    Reaches path f.path := by
  rcases List.mem_cons.1 hf with rfl | hf
  · exact reaches_self path
  · split at hf
    · split at hf
      · exact reaches_of_mem_oneSidedNotes hf
      · exact reaches_of_mem_pairNotes hf
    · rw [List.mem_singleton.1 hf]
      exact reaches_self path

/-! ### One side alone -/

theorem nodup_notesUnder : (s.notesUnder u k x (logicalPath m)).Nodup := by
  induction k generalizing x m with
  | zero =>
    cases x with
    | directory c =>
      rw [notesUnder]
      split
      · exact List.nodup_nil
      · exact List.nodup_singleton _
    | _ => exact List.nodup_nil
  | succ k ih =>
    cases x with
    | directory c =>
      cases hc : s.listable u c with
      | false =>
        rcases notesUnder_of_not_listable hc with hskip | hskip <;> rw [hskip] <;>
          exact List.nodup_singleton _
      | true =>
        rw [notesUnder_of_listable hc]
        simp only [joinPath_logicalPath]
        refine nodup_flatMap_entries m Finding.path (s.nodup_entries c) ?_ ?_
        · intro e _ f hf
          rcases List.mem_cons.1 hf with rfl | hf
          · exact reaches_self _
          · exact reaches_of_mem_notesUnder hf
        · intro e _
          refine List.nodup_cons.2 ⟨?_, ih⟩
          intro hmem
          obtain ⟨ns, ⟨hne, heq⟩ | ⟨operation, heq⟩⟩ := exists_of_mem_notesUnder hmem
          · exact hne (eq_nil_of_pathBelow_eq (Finding.enumerated.inj heq))
          · cases heq
    | _ => exact List.nodup_nil

theorem nodup_cons_pathsUnder : (logicalPath m :: s.pathsUnder u k x (logicalPath m)).Nodup := by
  have hself : ∀ {k : Nat} {x : Entry} {m : List Name},
      logicalPath m ∉ s.pathsUnder u k x (logicalPath m) := by
    intro k x m hmem
    obtain ⟨ns, -, hne, -, heq⟩ := exists_of_mem_pathsUnder hmem
    exact hne (eq_nil_of_pathBelow_eq heq)
  refine List.nodup_cons.2 ⟨hself, ?_⟩
  induction k generalizing x m with
  | zero =>
    rw [pathsUnder_zero]
    exact List.nodup_nil
  | succ k ih =>
    cases x with
    | directory c =>
      cases hc : s.listable u c with
      | false =>
        rw [pathsUnder_of_not_listable hc]
        exact List.nodup_nil
      | true =>
        rw [pathsUnder_of_listable hc]
        simp only [joinPath_logicalPath]
        refine nodup_flatMap_entries m id (s.nodup_entries c) ?_ ?_
        · intro e _ q hq
          obtain ⟨ns, -, -, hns⟩ := exists_of_mem_cons_pathsUnder hq
          exact ⟨ns, hns⟩
        · intro e _
          exact List.nodup_cons.2 ⟨hself, ih⟩
    | _ => exact List.nodup_nil

theorem nodup_oneSidedNotes : (s.oneSidedNotes u k side x (logicalPath m)).Nodup := by
  have honly : ∀ q q' : String, Finding.only side q = .only side q' → q = q' :=
    fun q q' heq => (Finding.only.inj heq).2
  refine List.nodup_cons.2 ⟨?_, List.nodup_append.2
    ⟨nodup_notesUnder, nodup_cons_pathsUnder.map honly, ?_⟩⟩
  · intro hmem
    rcases List.mem_append.1 hmem with hf | hf
    · obtain ⟨ns, ⟨-, heq⟩ | ⟨operation, heq⟩⟩ := exists_of_mem_notesUnder hf <;> cases heq
    · obtain ⟨q, -, heq⟩ := List.mem_map.1 hf
      cases heq
  · rintro f hf g hg rfl
    obtain ⟨q, -, rfl⟩ := List.mem_map.1 hg
    obtain ⟨ns, ⟨-, heq⟩ | ⟨operation, heq⟩⟩ := exists_of_mem_notesUnder hf <;> cases heq

/-! ### Both sides -/

theorem nodup_differing {q : Property} {v w : PropertyValue} : (differing path q v w).Nodup := by
  rw [differing]
  split
  · exact List.nodup_nil
  · exact List.nodup_singleton _

theorem differs_of_mem_labelNotes (hf : f ∈ (s.labelNotes u x y path).filter Finding.isSingle) :
    ∃ v w, f = .differs path .selinux v w := by
  obtain ⟨hf, hsingle⟩ := List.mem_filter.1 hf
  rcases (mem_labelNotes_iff (h := .sha256)).1 hf with ⟨-, v, w, -, rfl⟩ | ⟨-, rfl⟩
  · exact ⟨v, w, rfl⟩
  · cases hsingle

theorem nodup_labelNotes : ((s.labelNotes u x y path).filter Finding.isSingle).Nodup := by
  rw [labelNotes]
  split
  · exact nodup_differing.filter _
  · exact List.nodup_nil

theorem nodup_metadataFindings : (metadataFindings (s.snapshot x) (s.snapshot y) path).Nodup := by
  rw [metadataFindings]
  split
  · exact List.nodup_singleton _
  · refine List.nodup_append.2 ⟨nodup_differing, nodup_differing, ?_⟩
    rintro f hf g hg rfl
    obtain ⟨v, w, -, rfl⟩ := mem_differing_iff.1 hf
    obtain ⟨v', w', -, heq⟩ := mem_differing_iff.1 hg
    cases heq

/-- What two entries hold gives differences in two attributes only. -/
theorem property_of_mem_bodyNotes {q : Property} {v w : PropertyValue}
    (hf : .differs (logicalPath m) q v w ∈ s.bodyNotes u h k (logicalPath m) x y) :
    q = .symlink ∨ q = .content := by
  cases x <;> cases y <;> rw [bodyNotes] at hf
  case directory.directory c d =>
    split at hf
    · obtain ⟨ns, hns, hroot, -⟩ := justified_of_mem_level hf
      cases hroot (eq_nil_of_pathBelow_eq hns)
    · cases List.mem_singleton.1 hf
  case file.file p content p' content' =>
    split at hf
    · obtain ⟨v, w, -, heq⟩ := mem_differing_iff.1 hf
      exact .inr (Finding.differs.inj heq).2.1
    · cases List.mem_singleton.1 hf
  case symlink.symlink p target p' target' =>
    split at hf
    · cases hf
    · exact .inl (Finding.differs.inj (List.mem_singleton.1 hf)).2.1
  all_goals cases hf

section Pair

variable (ih : ∀ (a b : DirectoryId) (m : List Name),
  (((Walk.level u h k a b (logicalPath m)).findings s).filter Finding.isSingle).Nodup)
include ih

theorem nodup_bodyNotes :
    ((s.bodyNotes u h k (logicalPath m) x y).filter Finding.isSingle).Nodup := by
  cases x <;> cases y
  case directory.directory c d =>
    rw [bodyNotes]
    split
    · exact ih c d m
    · exact List.nodup_singleton _
  case file.file p content p' content' =>
    rw [bodyNotes]
    split
    · exact nodup_differing.filter _
    · exact List.nodup_singleton _
  case symlink.symlink p target p' target' =>
    rw [bodyNotes]
    split
    · exact List.nodup_nil
    · exact List.nodup_singleton _
  all_goals exact List.nodup_nil

theorem nodup_pairNotes :
    ((s.pairNotes u h k x y (logicalPath m)).filter Finding.isSingle).Nodup := by
  have hbody : ∀ {f}, f ∈ (if s.modeOf x = s.modeOf y then
      s.bodyNotes u h k (logicalPath m) x y else []).filter Finding.isSingle →
      f ∈ s.bodyNotes u h k (logicalPath m) x y := by
    intro f hf
    replace hf := List.mem_of_mem_filter hf
    split at hf
    · exact hf
    · cases hf
  have hmeta : ((metadataFindings (s.snapshot x) (s.snapshot y) (logicalPath m) ++
      if s.modeOf x = s.modeOf y then s.bodyNotes u h k (logicalPath m) x y else []).filter
        Finding.isSingle).Nodup := by
    rw [List.filter_append]
    refine List.nodup_append.2 ⟨nodup_metadataFindings.filter _, ?_, ?_⟩
    · split
      · exact nodup_bodyNotes ih
      · exact List.nodup_nil
    · rintro f hf g hg rfl
      obtain ⟨q, v, w, hq, -, rfl⟩ :=
        (mem_metadataFindings_iff (h := h)).1 (List.mem_of_mem_filter hf)
      rcases property_of_mem_bodyNotes (hbody hg) with rfl | rfl <;> simp at hq
  rw [pairNotes, List.filter_append]
  refine List.nodup_append.2 ⟨nodup_labelNotes, hmeta, ?_⟩
  rintro f hf g hg rfl
  obtain ⟨v, w, rfl⟩ := differs_of_mem_labelNotes hf
  rw [List.filter_append] at hg
  rcases List.mem_append.1 hg with hg | hg
  · obtain ⟨q, v', w', hq, -, heq⟩ :=
      (mem_metadataFindings_iff (h := h)).1 (List.mem_of_mem_filter hg)
    obtain ⟨-, rfl, -⟩ := Finding.differs.inj heq
    simp at hq
  · rcases property_of_mem_bodyNotes (hbody hg) with heq | heq <;> cases heq

/-- The primary pass says first, and only once, that it is about to look at an entry. -/
theorem nodup_visitNotes :
    ((s.visitNotes u h k b n x (logicalPath m)).filter Finding.isSingle).Nodup := by
  rw [visitNotes, List.filter_cons_of_pos rfl]
  refine List.nodup_cons.2 ⟨?_, ?_⟩
  · intro hmem
    replace hmem := List.mem_of_mem_filter hmem
    split at hmem
    · split at hmem
      · rcases mem_oneSidedNotes_iff.1 hmem with heq | hf | ⟨q, -, heq⟩
        · cases heq
        · obtain ⟨ns, ⟨-, heq⟩ | ⟨operation, heq⟩⟩ := exists_of_mem_notesUnder hf <;>
            cases heq
        · cases heq
      · cases mem_pairNotes_iff.1 hmem with
        | inside c d hx hy hmode hc hd _ hf =>
          obtain ⟨ns, hns, hroot, -⟩ := justified_of_mem_level hf
          cases hroot (eq_nil_of_pathBelow_eq hns)
    · cases List.mem_singleton.1 hmem
  · split
    · split
      · exact nodup_oneSidedNotes.filter _
      · exact nodup_pairNotes ih
    · exact List.nodup_singleton _

end Pair

/-! ### One level -/

theorem reaches_of_mem_sweepNotes (hf : f ∈ s.sweepNotes u k a b (logicalPath m)) :
    f = .skipped (logicalPath m) .readDir denied ∨
      ∃ n, s.child a n = none ∧ Reaches (logicalPath (m ++ [n])) f.path := by
  rw [sweepNotes] at hf
  split at hf
  · simp only [joinPath_logicalPath] at hf
    obtain ⟨e, he, hf⟩ := List.mem_flatMap.1 hf
    have hnone := Option.isNone_iff_eq_none.1 (List.mem_filter.1 he).2
    exact .inr ⟨e.1, hnone, reaches_of_mem_oneSidedNotes hf⟩
  · exact .inl (List.mem_singleton.1 hf)

theorem nodup_sweepNotes : (s.sweepNotes u k a b (logicalPath m)).Nodup := by
  rw [sweepNotes]
  split
  · simp only [joinPath_logicalPath]
    have hnames := (s.nodup_entries b).sublist
      ((List.filter_sublist (p := fun e => (s.child a e.1).isNone)).map _)
    refine nodup_flatMap_entries m Finding.path hnames ?_ ?_
    · intro e _ f hf
      exact reaches_of_mem_oneSidedNotes hf
    · intro e _
      exact nodup_oneSidedNotes
  · exact List.nodup_singleton _

/-- A comparison of two directories notes nothing down twice but labels that cannot be read. -/
theorem nodup_level :
    (((Walk.level u h k a b (logicalPath m)).findings s).filter Finding.isSingle).Nodup := by
  induction k generalizing a b m with
  | zero => exact List.nodup_nil
  | succ k ih =>
    cases ha : s.listable u a with
    | false =>
      rw [findings_level_of_not_listable ha]
      exact List.nodup_singleton _
    | true =>
      rw [findings_level_of_listable ha, List.filter_append, List.filter_flatMap]
      simp only [joinPath_logicalPath]
      refine List.nodup_append.2 ⟨?_, nodup_sweepNotes.filter _, ?_⟩
      · refine nodup_flatMap_entries m Finding.path (s.nodup_entries a) ?_ ?_
        · intro e _ f hf
          exact reaches_of_mem_visitNotes (List.mem_of_mem_filter hf)
        · intro e _
          exact nodup_visitNotes fun _ _ _ => ih
      · -- the sweep takes only names that the primary pass has not met
        rintro f hf g hg rfl
        obtain ⟨e, he, hf⟩ := List.mem_flatMap.1 hf
        have hreach := reaches_of_mem_visitNotes (List.mem_of_mem_filter hf)
        rcases reaches_of_mem_sweepNotes (List.mem_of_mem_filter hg) with rfl | ⟨n, hnone, hreach'⟩
        · obtain ⟨ns, hns⟩ := hreach
          rw [← logicalPath_append, List.append_assoc, logicalPath_append] at hns
          exact List.cons_ne_nil _ _ (eq_nil_of_pathBelow_eq hns)
        · rw [name_eq_of_reaches hreach' hreach, child_of_mem_entries he] at hnone
          cases hnone

end Store

end TreeComparison

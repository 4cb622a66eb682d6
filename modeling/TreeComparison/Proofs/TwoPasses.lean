import TreeComparison.Proofs.Comparison

/-!
A level whose two passes meet different states of the file system. The primary pass looks the names
of A up in one state, and the sweep lists B in a later one. Each pass is right about the state that
it meets, but the names that the primary pass did not find are not kept from the sweep. So the two
lists of the report share a path just if such a name is there when B is listed.
-/

namespace TreeComparison.Store

variable {s t : Store} {u : User} {h : HashAlgorithm} {o : Options} {k : Nat} {a b : DirectoryId}
  {m : List Name} {n : Name} {x y : Entry} {path p : String} {f : Finding}

/-- The findings of comparing two directories when the state of the file system is `s` up to the end
of the primary pass and `t` from then on. -/
def passes (s t : Store) (u : User) (h : HashAlgorithm) (k : Nat) (a b : DirectoryId)
    (path : String) : List Finding :=
  match s.names u a with
  | .error r => [.skipped path .readDir (.system r)]
  | .ok names =>
    let first := Walk.primary u h k (Walk.level u h k) a b path names
    first.findings s ++ (Walk.sweep u k b path (first.value s)).findings t

/-- The report of such a comparison. -/
def passesReport (s t : Store) (u : User) (o : Options) (k : Nat) (a b : DirectoryId)
    (path : String) : Report :=
  (∅ : Report).noteAll o.strict (s.passes t u o.hashAlgorithm k a b path)

/-- Whether a name of A is missing in B when the primary pass looks it up, and is there when the
sweep lists B. -/
structure IsLate (s t : Store) (u : User) (a b : DirectoryId) (n : Name) : Prop where
  listed : s.listable u a = true
  searched : s.searchable u b = true
  swept : t.listable u b = true
  visited : (s.child a n).isSome = true
  missing : s.child b n = none
  appeared : (t.child b n).isSome = true

/-- Where the state does not change, the two passes are a level. -/
theorem passes_self :
    s.passes s u h k a b path = (Walk.level u h (k + 1) a b path).findings s := by
  rw [passes, Walk.level]
  simp only [Walk.bind_eq, Walk.findings_andThen, Walk.value_ask, Walk.findings_ask,
    List.nil_append]
  cases s.names u a with
  | error r => rfl
  | ok names => exact (Walk.findings_andThen s _ _).symm

/-! ### What each pass records -/

theorem passes_of_listable (ha : s.listable u a = true) : s.passes t u h k a b path =
    ((s.entries a).flatMap fun e => s.visitNotes u h k b e.1 e.2 (joinPath path e.1.bytes)) ++
      (Walk.sweep u k b path ((Walk.primary u h k (Walk.level u h k) a b path
        ((s.entries a).map (·.1))).value s)).findings t := by
  have hprimary : (Walk.primary u h k (Walk.level u h k) a b path
      ((s.entries a).map (·.1))).findings s = _ :=
    findings_primary (searchable_of_listable ha) fun _ => child_of_mem_entries
  rw [passes, names_of_listable ha, ← hprimary]
  rfl

theorem passes_of_not_listable (ha : s.listable u a = false) :
    s.passes t u h k a b path = [.skipped path .readDir denied] := by
  rw [passes, names_of_not_listable ha]

/-- The sweep records what is listed of the names not seen. -/
theorem only_mem_sweep_iff {seen : List Name} {side : Side} :
    .only side p ∈ (Walk.sweep u k b path seen).findings t ↔ t.listable u b = true ∧
      ∃ n y, t.child b n = some y ∧ n ∉ seen ∧ side = .added ∧
        p ∈ joinPath path n.bytes :: t.pathsUnder u k y (joinPath path n.bytes) := by
  cases hb : t.listable u b with
  | false => simp [findings_sweep_of_not_listable hb]
  | true =>
    rw [findings_sweep_of_listable hb, List.mem_flatMap]
    simp only [only_mem_oneSidedNotes_iff, true_and]
    constructor
    · rintro ⟨e, he, hp⟩
      obtain ⟨hmem, hseen⟩ := List.mem_filter.1 he
      exact ⟨e.1, e.2, child_of_mem_entries hmem, of_decide_eq_true hseen, hp⟩
    · rintro ⟨n, y, hy, hseen, hp⟩
      exact ⟨(n, y), List.mem_filter.2 ⟨mem_entries_of_child hy, decide_eq_true hseen⟩, hp⟩

/-- What the primary pass records comes from one name of A. -/
theorem only_mem_passes_iff {side : Side} (ha : s.listable u a = true) :
    .only side p ∈ s.passes t u h k a b path ↔
      (∃ n x, s.child a n = some x ∧
        .only side p ∈ s.visitNotes u h k b n x (joinPath path n.bytes)) ∨
      t.listable u b = true ∧ ∃ n y, t.child b n = some y ∧
        n ∉ (Walk.primary u h k (Walk.level u h k) a b path ((s.entries a).map (·.1))).value s ∧
        side = .added ∧
        p ∈ joinPath path n.bytes :: t.pathsUnder u k y (joinPath path n.bytes) := by
  rw [passes_of_listable ha, List.mem_append, only_mem_sweep_iff, List.mem_flatMap]
  refine or_congr_left ⟨?_, ?_⟩
  · rintro ⟨e, he, hp⟩
    exact ⟨e.1, e.2, child_of_mem_entries he, hp⟩
  · rintro ⟨n, x, hx, hp⟩
    exact ⟨(n, x), mem_entries_of_child hx, hp⟩

/-- Of a name of A that B does not have, what is listed of it is recorded as deleted. -/
theorem only_deleted_mem_visitNotes_iff (hb : s.searchable u b = true) (hy : s.child b n = none) :
    .only .deleted p ∈ s.visitNotes u h k b n x path ↔ p ∈ path :: s.pathsUnder u k x path := by
  rw [visitNotes, hy, if_pos hb]
  simp [only_mem_oneSidedNotes_iff]

/-! ### Both lists -/

/-- A path that the primary pass records is not recorded by it for the other side too. -/
theorem not_both_in_visitNotes (ha : s.listable u a = true) (hx : s.child a n = some x)
    (hdeleted : .only .deleted p ∈ s.visitNotes u h k b n x (joinPath (logicalPath m) n.bytes))
    (hadded : .only .added p ∈ s.visitNotes u h k b n x (joinPath (logicalPath m) n.bytes)) :
    False := by
  obtain ⟨ns, hns, -, hlone⟩ :=
    justified_of_mem_level (mem_level_iff.2 (levelNote_of_mem_visitNotes ha hx hdeleted))
  obtain ⟨ns', hns', -, hlone'⟩ :=
    justified_of_mem_level (mem_level_iff.2 (levelNote_of_mem_visitNotes ha hx hadded))
  have hpath : pathBelow (logicalPath m) ns = pathBelow (logicalPath m) ns' := hns.symm.trans hns'
  rw [← logicalPath_append, ← logicalPath_append] at hpath
  obtain rfl := List.append_cancel_left (logicalPath_injective hpath)
  have hsome := LoneAt.isSome hlone
  rw [LoneAt.entryAt_eq_none hlone'] at hsome
  cases hsome

theorem searchable_of_only_mem_visitNotes {side : Side}
    (hp : .only side p ∈ s.visitNotes u h k b n x path) : s.searchable u b = true := by
  cases hb : s.searchable u b with
  | true => rfl
  | false => simp [visitNotes, hb] at hp

/-- A name of A is not seen just if B does not have it. -/
theorem not_mem_seen_iff (hb : s.searchable u b = true) (hx : s.child a n = some x) :
    n ∉ (Walk.primary u h k (Walk.level u h k) a b path ((s.entries a).map (·.1))).value s
      ↔ s.child b n = none := by
  have hmem : n ∈ (s.entries a).map (·.1) :=
    List.mem_map.2 ⟨(n, x), mem_entries_of_child hx, rfl⟩
  rw [value_primary hb, List.mem_filter]
  cases s.child b n <;> simp [hmem]

/-- The paths in both lists are those that are listed of a late name before and after. -/
theorem mem_both_iff : .only .deleted p ∈ s.passes t u h k a b (logicalPath m) ∧
    .only .added p ∈ s.passes t u h k a b (logicalPath m) ↔
    ∃ n x y, s.IsLate t u a b n ∧ s.child a n = some x ∧ t.child b n = some y ∧
      p ∈ logicalPath (m ++ [n]) :: s.pathsUnder u k x (logicalPath (m ++ [n])) ∧
      p ∈ logicalPath (m ++ [n]) :: t.pathsUnder u k y (logicalPath (m ++ [n])) := by
  constructor
  · rintro ⟨hdeleted, hadded⟩
    cases ha : s.listable u a with
    | false => simp [passes_of_not_listable ha] at hdeleted
    | true =>
      rw [only_mem_passes_iff ha] at hdeleted hadded
      simp only [reduceCtorEq, false_and, and_false, exists_false, or_false] at hdeleted
      -- the path tells for which name of A it was recorded, so both records are of one name
      obtain ⟨n, x, hx, hdeleted⟩ := hdeleted
      have hb := searchable_of_only_mem_visitNotes hdeleted
      rw [joinPath_logicalPath] at hdeleted
      have hreach : Reaches (logicalPath (m ++ [n])) p := reaches_of_mem_visitNotes hdeleted
      rcases hadded with ⟨n', x', hx', hadded⟩ | ⟨ht, n', y, hy, hseen, -, hadded⟩
      · rw [joinPath_logicalPath] at hadded
        obtain rfl := name_eq_of_reaches hreach (reaches_of_mem_visitNotes hadded)
        -- both in the primary pass, which meets one state
        rw [← joinPath_logicalPath] at hdeleted hadded
        obtain rfl := Option.some.inj (hx.symm.trans hx')
        exact (not_both_in_visitNotes ha hx hdeleted hadded).elim
      · rw [joinPath_logicalPath] at hadded
        obtain ⟨ns, -, -, hns⟩ := exists_of_mem_cons_pathsUnder hadded
        obtain rfl := name_eq_of_reaches hreach ⟨ns, hns⟩
        -- the sweep took the name because the primary pass had not found it
        have hnone := (not_mem_seen_iff hb hx).1 hseen
        exact ⟨n, x, y, ⟨ha, hb, ht, by rw [hx]; rfl, hnone, by rw [hy]; rfl⟩, hx, hy,
          (only_deleted_mem_visitNotes_iff hb hnone).1 hdeleted, hadded⟩
  · rintro ⟨n, x, y, hlate, hx, hy, hdeleted, hadded⟩
    rw [only_mem_passes_iff hlate.listed, only_mem_passes_iff hlate.listed]
    refine ⟨.inl ⟨n, x, hx, ?_⟩, .inr ⟨hlate.swept, n, y, hy, ?_, rfl, ?_⟩⟩
    · rw [only_deleted_mem_visitNotes_iff hlate.searched hlate.missing, joinPath_logicalPath]
      exact hdeleted
    · exact (not_mem_seen_iff hlate.searched hx).2 hlate.missing
    · rw [joinPath_logicalPath]
      exact hadded

/-- No path is in both lists just if no name of A that was missing in B when it was looked up is
there when B is listed. -/
theorem passesReport_disjoint_iff : (s.passesReport t u o k a b (logicalPath m)).deleted.Disjoint
    (s.passesReport t u o k a b (logicalPath m)).added ↔ ∀ n, ¬ s.IsLate t u a b n := by
  have hpaths {side : Side} {p : String} :
      p ∈ (s.passesReport t u o k a b (logicalPath m)).paths side ↔
        .only side p ∈ s.passes t u o.hashAlgorithm k a b (logicalPath m) :=
    Report.mem_paths_noteAll
  constructor
  · intro hdisjoint n hlate
    obtain ⟨x, hx⟩ := Option.isSome_iff_exists.1 hlate.visited
    obtain ⟨y, hy⟩ := Option.isSome_iff_exists.1 hlate.appeared
    obtain ⟨hdeleted, hadded⟩ := (mem_both_iff (h := o.hashAlgorithm) (k := k) (m := m)).2
      ⟨n, x, y, hlate, hx, hy, List.mem_cons_self, List.mem_cons_self⟩
    exact hdisjoint (hpaths.2 hdeleted) (hpaths.2 hadded)
  · intro hlate p hdeleted hadded
    obtain ⟨n, -, -, hn, -⟩ := mem_both_iff.1 ⟨hpaths.1 hdeleted, hpaths.1 hadded⟩
    exact hlate n hn

/-- A file system before the sweep: A, at place 0, has a file `g`, and B, at place 1, is empty. -/
def beforeSweep : Store where
  directories := #[
    ⟨⟨0o755, 0, 0, []⟩, ⟨[(⟨[0x67], by decide⟩, .file ⟨0o644, 0, 0, []⟩ [])], by decide⟩⟩,
    ⟨⟨0o755, 0, 0, []⟩, ∅⟩]

/-- The file system after a file `g` was put into B. -/
def atSweep : Store where
  directories := #[
    ⟨⟨0o755, 0, 0, []⟩, ⟨[(⟨[0x67], by decide⟩, .file ⟨0o644, 0, 0, []⟩ [])], by decide⟩⟩,
    ⟨⟨0o755, 0, 0, []⟩, ⟨[(⟨[0x67], by decide⟩, .file ⟨0o644, 0, 0, []⟩ [])], by decide⟩⟩]

/-- A live file system in which that happens when the primary pass has missed the file in B. -/
def duringPasses : World where
  store := beforeSweep
  pending := [⟨"unmatched entry", "/g", [.put [0x67] (.file ⟨0o644, 0, 0, []⟩ [])]⟩]
  writer := ⟨0, 0, true⟩
  base := 1

/-- A file that appears in B between the passes is in both lists, also in a live run. -/
theorem not_disjoint_of_file_appearing :
    ¬ (beforeSweep.passesReport atSweep ⟨0, 0, true⟩ ⟨.sha256, true⟩ 1 0 1 "/").deleted.Disjoint
        (beforeSweep.passesReport atSweep ⟨0, 0, true⟩ ⟨.sha256, true⟩ 1 0 1 "/").added ∧
      ∃ fs, duringPasses.compare ⟨0, 0, true⟩ .sha256 0 1 = .ok fs ∧
        .only .deleted "/g" ∈ fs ∧ .only .added "/g" ∈ fs := by
  refine ⟨?_, _, rfl, ?_, ?_⟩
  · intro hdisjoint
    exact hdisjoint (a := "/g") (by decide) (by decide)
  · decide
  · decide

end TreeComparison.Store

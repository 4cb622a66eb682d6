import TreeComparison.Proofs.Comparison

/-!
Comparing the second tree with the first. The walk treats its two sides differently: it lists the
first and looks names up in the second, and it sweeps the second only. Still each finding about the
trees has its mirror image in the comparison the other way round, provided that both roots were
opened: then a root that can be searched can also be listed, as can all that the walk opens further
down.
-/

namespace TreeComparison

/-- The other one of two sides. -/
def Side.other : Side → Side
  | .deleted => .added
  | .added => .deleted

/-- What a finding about the trees becomes when the trees change places. -/
inductive Mirrored : Finding → Finding → Prop where
  | only (side : Side) (path : String) : Mirrored (.only side path) (.only side.other path)
  | differs (path : String) (q : Property) (v w : PropertyValue) :
      Mirrored (.differs path q v w) (.differs path q w v)

theorem Mirrored.symm {f g : Finding} (h : Mirrored f g) : Mirrored g f := by
  cases h with
  | only side path => cases side <;> exact .only _ path
  | differs path q v w => exact .differs path q w v

/-- The report with its two sides exchanged. -/
def Report.swap (r : Report) : Report where
  added := r.deleted
  deleted := r.added
  differences := r.differences.mapValues fun m => m.mapValues Prod.swap
  errors := r.errors

/-- Whether a second report says what a first one says, with the sides exchanged. The errors of the
two may differ, and so may the order in which paths were found. -/
structure Report.Swapped (r r' : Report) : Prop where
  added : r'.added.Perm r.deleted
  deleted : r'.deleted.Perm r.added
  differences : r'.differences = r.swap.differences

theorem Report.difference?_swap {r : Report} {p : String} {q : Property} :
    r.swap.difference? p q = (r.difference? p q).map Prod.swap := by
  rw [difference?, difference?, properties?, swap, SortedMap.get?_mapValues, properties?]
  cases r.differences.get? p <;> simp

theorem Report.IsMeaningful.swap {r : Report} (hr : r.IsMeaningful) : r.swap.IsMeaningful := by
  intro p m hm
  rw [properties?, Report.swap, SortedMap.get?_mapValues, Option.map_eq_some_iff] at hm
  obtain ⟨m, hm, rfl⟩ := hm
  obtain ⟨q, vw, hq⟩ := hr p m hm
  exact ⟨q, vw.swap, by rw [SortedMap.get?_mapValues, hq]; rfl⟩

namespace Store

variable {s : Store} {u : User} {h : HashAlgorithm} {k : Nat} {a b c d : DirectoryId} {x y : Entry}
  {path : String} {f g : Finding} {q : Property} {v w : PropertyValue} {o : Options}

/-! ### Open directories -/

/-- Whether the user can have a handle of a directory. -/
def IsOpen (s : Store) (u : User) (d : DirectoryId) : Prop := s.openEntry u (.directory d) = .ok d

theorem isOpen_iff : s.IsOpen u d ↔ s.readable u d = true := by
  rw [IsOpen, openEntry, readable]
  split <;> simp [*]

theorem eq_directory_of_openEntry (hx : s.openEntry u x = .ok d) : x = .directory d := by
  cases x with
  | directory c =>
    rw [openEntry] at hx
    split at hx
    · rw [Except.ok.inj hx]
    · cases hx
  | _ => cases hx

theorem openDirectory_eq_ok_iff (hd : s.searchable u d = true) (hx : s.child d n = some x) :
    s.openDirectory u d n.bytes = .ok c ↔ x = .directory c ∧ s.readable u c = true := by
  rw [openDirectory, locate_of_child hd hx]
  constructor
  · intro hopen
    obtain rfl := eq_directory_of_openEntry hopen
    exact ⟨rfl, isOpen_iff.1 hopen⟩
  · rintro ⟨rfl, hc⟩
    exact isOpen_iff.2 hc

/-- What a name leads to can be opened only if it is a directory, and the user may search for it
and read it. -/
theorem child_of_openDirectory (hc : s.openDirectory u a n.bytes = .ok c) :
    s.searchable u a = true ∧ s.child a n = some (.directory c) ∧ s.readable u c = true := by
  cases ha : s.searchable u a with
  | false =>
    rw [openDirectory, locate_of_not_searchable ha] at hc
    cases hc
  | true =>
    cases hx : s.child a n with
    | none =>
      rw [openDirectory, locate_of_no_child ha hx] at hc
      cases hc
    | some x =>
      obtain ⟨rfl, hread⟩ := (openDirectory_eq_ok_iff ha hx).1 hc
      exact ⟨rfl, rfl, hread⟩

/-- What is opened as a root is open. -/
theorem isOpen_of_openRoot {start : DirectoryId} {name : Bytes}
    (hd : s.openRoot u start name = .ok d) : s.IsOpen u d := by
  rw [openRoot] at hd
  split at hd
  · cases hd
  · cases hx : s.locate u true start name with
    | error r => rw [hx] at hd; cases hd
    | ok x =>
      rw [hx] at hd
      have hopen : s.openEntry u x = .ok d := hd
      obtain rfl := eq_directory_of_openEntry hopen
      exact hopen

theorem listable_of_searchable (hd : s.readable u d = true) (hsearch : s.searchable u d = true) :
    s.listable u d = true := Bool.and_eq_true_iff.2 ⟨hsearch, hd⟩

/-! ### Contrasts -/

theorem unequal_swap : unequal w v = (unequal v w).map Prod.swap := by
  by_cases hvw : v = w
  · simp [unequal, hvw]
  · have hwv : ¬ w = v := fun heq => hvw heq.symm
    simp [unequal, hvw, hwv]

theorem contrast_swap : s.contrast h y x q = (s.contrast h x y q).map Prod.swap := by
  have hmode : s.modeOf y = s.modeOf x ↔ s.modeOf x = s.modeOf y := eq_comm
  cases q with
  | selinux => exact unequal_swap
  | mode => by_cases hxy : s.modeOf x = s.modeOf y <;> simp [contrast, hmode, hxy]
  | uid => by_cases hxy : s.modeOf x = s.modeOf y <;> simp [contrast, hmode, hxy, ← unequal_swap]
  | gid => by_cases hxy : s.modeOf x = s.modeOf y <;> simp [contrast, hmode, hxy, ← unequal_swap]
  | symlink =>
    cases x <;> cases y <;> try rfl
    rename_i p target p' target'
    by_cases hxy : s.modeOf (.symlink p target) = s.modeOf (.symlink p' target') <;>
      by_cases heq : target = target' <;> simp [contrast, hmode, hxy, heq, eq_comm]
  | content =>
    cases x <;> cases y <;> try rfl
    rename_i p content p' content'
    by_cases hxy : s.modeOf (.file p content) = s.modeOf (.file p' content') <;>
      simp [contrast, hmode, hxy, ← unequal_swap]

theorem rootContrast_swap :
    s.rootContrast u h b a q = (s.rootContrast u h a b q).map Prod.swap := by
  cases q with
  | selinux => exact unequal_swap
  | _ =>
    simp only [rootContrast]
    exact contrast_swap

/-! ### Findings -/

theorem mirrored_mem_oneSidedNotes {side : Side} (hfg : Mirrored f g)
    (hf : f ∈ s.oneSidedNotes u k side x path) : g ∈ s.oneSidedNotes u k side.other x path := by
  rcases mem_oneSidedNotes_iff.1 hf with rfl | hf | ⟨p, hp, rfl⟩
  · cases hfg
  · obtain ⟨ns, ⟨-, rfl⟩ | ⟨operation, rfl⟩⟩ := exists_of_mem_notesUnder hf <;> cases hfg
  · cases hfg with
    | only side path => exact mem_oneSidedNotes_iff.2 (.inr (.inr ⟨p, hp, rfl⟩))

/-- Between two directories that can be opened, what is found in one direction is found mirrored in
the other. -/
theorem mirrored_mem_level (ha : s.readable u a = true) (hb : s.readable u b = true)
    (hfg : Mirrored f g) (hf : f ∈ (Walk.level u h k a b path).findings s) :
    g ∈ (Walk.level u h k b a path).findings s := by
  induction k generalizing a b path with
  | zero => cases hf
  | succ k ih =>
    cases mem_level_iff.1 hf with
    | unlisted hna => cases hfg
    | visited hla n x hx => cases hfg
    | unmatched hla hnb n x hx => cases hfg
    | unswept hla hnb => cases hfg
    | deleted hla hsb n x hx hy _ hf =>
      have hlb := listable_of_searchable hb hsb
      exact mem_level_iff.2 (.added hlb hla n x hy hx g (mirrored_mem_oneSidedNotes hfg hf))
    | added hla hlb n y hx hy _ hf =>
      have hsa := searchable_of_listable hla
      exact mem_level_iff.2 (.deleted hlb hsa n y hy hx g (mirrored_mem_oneSidedNotes hfg hf))
    | both hla hsb n x y hx hy _ hf =>
      have hlb := listable_of_searchable hb hsb
      refine mem_level_iff.2 (.both hlb (searchable_of_listable hla) n y x hy hx g ?_)
      cases hf with
      | differs q v w hq hread hlabel =>
        cases hfg with
        | differs path q v w =>
          exact .differs q w v (by rw [contrast_swap, hq]; rfl) (fun hc => (hread hc).symm) hlabel
      | unlabelled hlabel => cases hfg
      | refused operation hmode hread hkind => cases hfg
      | inside c d hxc hyd hmode hc hd _ hf =>
        exact .inside d c hyd hxc hmode.symm hd hc g (ih hc hd hf)

theorem mirrored_mem_compare (ha : s.IsOpen u a) (hb : s.IsOpen u b) (hfg : Mirrored f g)
    (hf : f ∈ s.compare u h a b) : g ∈ s.compare u h b a := by
  rcases mem_compare_iff.1 hf with hf | hf
  · refine mem_compare_iff.2 (.inl ?_)
    rcases (mem_roots_iff (h := h)).1 hf with hf | hf | ⟨q, v, w, hq, rfl⟩
    · rw [eq_of_mem_rootLabelNotes hf] at hfg
      cases hfg
    · rw [eq_of_mem_rootLabelNotes hf] at hfg
      cases hfg
    · cases hfg with
      | differs path q v w =>
        exact (mem_roots_iff (h := h)).2 (.inr (.inr
          ⟨q, w, v, by rw [rootContrast_swap, hq]; rfl, rfl⟩))
  · exact mem_compare_iff.2 (.inr
      (mirrored_mem_level (isOpen_iff.1 ha) (isOpen_iff.1 hb) hfg hf))

theorem mirrored_mem_compare_iff (ha : s.IsOpen u a) (hb : s.IsOpen u b) (hfg : Mirrored f g) :
    g ∈ s.compare u h b a ↔ f ∈ s.compare u h a b :=
  ⟨mirrored_mem_compare hb ha hfg.symm, mirrored_mem_compare ha hb hfg⟩

/-! ### Reports -/

theorem paths_diff_perm (side : Side) (ha : s.IsOpen u a) (hb : s.IsOpen u b) :
    ((s.diff u o b a ∅).paths side.other).Perm ((s.diff u o a b ∅).paths side) := by
  refine (List.perm_ext_iff_of_nodup (nodup_paths_diff _) (nodup_paths_diff _)).2 fun p => ?_
  rw [mem_paths_diff, mem_paths_diff]
  exact mirrored_mem_compare_iff ha hb (.only side p)

theorem difference?_diff_swap {p : String} (ha : s.IsOpen u a) (hb : s.IsOpen u b) :
    (s.diff u o b a ∅).difference? p q = (s.diff u o a b ∅).swap.difference? p q := by
  rw [Report.difference?_swap]
  refine Option.ext fun vw => ?_
  obtain ⟨w, v⟩ := vw
  rw [difference?_diff, mirrored_mem_compare_iff ha hb (.differs p q v w), ← difference?_diff]
  cases (s.diff u o a b ∅).difference? p q with
  | none => simp
  | some xy =>
    obtain ⟨x, y⟩ := xy
    simp [and_comm]

theorem swapped_diff (ha : s.IsOpen u a) (hb : s.IsOpen u b) :
    (s.diff u o a b ∅).Swapped (s.diff u o b a ∅) where
  added := paths_diff_perm .deleted ha hb
  deleted := paths_diff_perm .added ha hb
  differences := Report.differences_eq isMeaningful_diff isMeaningful_diff.swap
    fun _ _ => difference?_diff_swap ha hb

/-- Comparing the second tree with the first gives the report of comparing the first with the
second, with the sides exchanged. If a root cannot be opened, there is no report either way. -/
theorem diffTrees_swap (s : Store) (u : User) (o : Options) (start : DirectoryId)
    (pathA pathB : Bytes) :
    match s.diffTrees u o start pathA pathB, s.diffTrees u o start pathB pathA with
    | .ok r, .ok r' => r.Swapped r'
    | .error _, .error _ => True
    | _, _ => False := by
  rw [diffTrees, diffTrees, openRoots, openRoots]
  cases ha : s.openRoot u start pathA with
  | error e =>
    cases hb : s.openRoot u start pathB with
    | error e' => trivial
    | ok b => trivial
  | ok a =>
    cases hb : s.openRoot u start pathB with
    | error e' => trivial
    | ok b => exact swapped_diff (isOpen_of_openRoot ha) (isOpen_of_openRoot hb)

end Store

end TreeComparison

import TreeComparison.Proofs.Comparison

/-!
The report of a comparison in which nothing was refused. It can be said without the walk: what one
side has below two compared directories and the other has not, and in what two compared entries
differ.
-/

namespace TreeComparison

/-- Whether a finding says that something was refused. -/
def Finding.isRefusal : Finding → Bool
  | .skipped _ _ _ => true
  | .unreadableLabel _ _ => true
  | _ => false

namespace Store

variable {s : Store} {u : User} {h : HashAlgorithm} {k : Nat} {a b : DirectoryId} {m ns : List Name}
  {x y : Entry} {p path : String} {q : Property} {v w : PropertyValue} {o : Options}

/-- Whether some names lead to an entry that the tree of one side alone has. -/
def LoneOn (s : Store) (a b : DirectoryId) : Side → List Name → Prop
  | .deleted => s.LoneAt a b
  | .added => s.LoneAt b a

/-- Whether a report says of two trees what there is to say, and nothing else. -/
structure IsExact (s : Store) (h : HashAlgorithm) (a b : DirectoryId) (r : Report) : Prop where
  nodup_deleted : r.deleted.Nodup
  mem_deleted : ∀ p, p ∈ r.deleted ↔ ∃ ns, s.LoneAt a b ns ∧ p = logicalPath ns
  nodup_added : r.added.Nodup
  mem_added : ∀ p, p ∈ r.added ↔ ∃ ns, s.LoneAt b a ns ∧ p = logicalPath ns
  difference : ∀ p q v w, r.difference? p q = some (v, w) ↔
    ∃ ns x y, s.ComparedAt a b ns x y ∧ p = logicalPath ns ∧ s.contrast h x y q = some (v, w)
  mem_keys : ∀ p, p ∈ r.differences.keys ↔
    ∃ ns x y q vw, s.ComparedAt a b ns x y ∧ p = logicalPath ns ∧ s.contrast h x y q = some vw
  errors : r.errors = []

/-! ### Privileged users -/

theorem listable_of_privileged (hu : u.privileged = true) (d : DirectoryId) :
    s.listable u d = true := by
  simp [listable, searchable, readable, User.may, hu]

theorem readsLabels_of_privileged (hu : u.privileged = true) : s.readsLabels u = true := by
  simp [readsLabels, searchable, User.may, hu]

theorem mayRead_of_privileged (hu : u.privileged = true) (x : Entry) : s.mayRead u x = true := by
  simp [mayRead, User.may, hu]

theorem not_refused_below (hu : u.privileged = true) {f : Finding}
    (hf : f ∈ s.notesUnder u k x path) : f.isRefusal = false := by
  induction k generalizing x path with
  | zero =>
    cases x with
    | directory c =>
      rw [notesUnder, if_pos (readable_of_listable (listable_of_privileged hu c))] at hf
      cases hf
    | _ => cases hf
  | succ k ih =>
    cases x with
    | directory c =>
      rw [notesUnder_of_listable (listable_of_privileged hu c)] at hf
      obtain ⟨e, -, hf⟩ := List.mem_flatMap.1 hf
      rcases List.mem_cons.1 hf with rfl | hf
      · rfl
      · exact ih hf
    | _ => cases hf

theorem not_refused_on_one_side (hu : u.privileged = true) {f : Finding} {side : Side}
    (hf : f ∈ s.oneSidedNotes u k side x path) : f.isRefusal = false := by
  rcases mem_oneSidedNotes_iff.1 hf with rfl | hf | ⟨p, -, rfl⟩
  · rfl
  · exact not_refused_below hu hf
  · rfl

theorem not_refused_in_level (hu : u.privileged = true) {f : Finding}
    (hf : f ∈ (Walk.level u h k a b path).findings s) : f.isRefusal = false := by
  have hlist : ∀ d, ¬ s.listable u d = false := fun d => by simp [listable_of_privileged hu d]
  induction k generalizing a b path with
  | zero => cases hf
  | succ k ih =>
    cases mem_level_iff.1 hf with
    | unlisted ha => exact absurd ha (hlist a)
    | visited ha n x hx => rfl
    | unmatched ha hb n x hx =>
      rw [searchable_of_listable (listable_of_privileged hu b)] at hb
      cases hb
    | deleted ha hb n x hx hy _ hf => exact not_refused_on_one_side hu hf
    | both ha hb n x y hx hy _ hf =>
      cases hf with
      | differs q v w hq hread hlabel => rfl
      | unlabelled hlabel =>
        rw [readsLabels_of_privileged hu] at hlabel
        cases hlabel
      | refused operation hmode hread hkind =>
        exact absurd ⟨mayRead_of_privileged hu x, mayRead_of_privileged hu y⟩ hread
      | inside c d hxc hyd hmode hc hd _ hf => exact ih hf
    | unswept ha hb => exact absurd hb (hlist b)
    | added ha hb n y hx hy _ hf => exact not_refused_on_one_side hu hf

theorem not_refused_at_roots (hu : u.privileged = true) {f : Finding}
    (hf : f ∈ (Walk.roots u a b).findings s) : f.isRefusal = false := by
  have hlabel : ∀ d, s.rootLabelNotes u d = [] := fun d => by
    simp [rootLabelNotes, readsLabels_of_privileged hu,
      searchable_of_listable (listable_of_privileged hu d)]
  rcases (mem_roots_iff (h := .sha256)).1 hf with hf | hf | ⟨q, v, w, -, rfl⟩
  · rw [hlabel] at hf
    cases hf
  · rw [hlabel] at hf
    cases hf
  · rfl

theorem not_refused_in_compare (hu : u.privileged = true) {f : Finding}
    (hf : f ∈ s.compare u h a b) : f.isRefusal = false :=
  (mem_compare_iff.1 hf).elim (not_refused_at_roots hu) (not_refused_in_level hu)

/-- A privileged user is refused nothing. -/
theorem unrefused_of_privileged (hu : u.privileged = true) : s.Unrefused u h a b where
  operations := fun _ _ _ hf => nomatch not_refused_in_compare hu hf
  labels := fun _ _ hf => nomatch not_refused_in_compare hu hf

/-! ### Modes on the way -/

theorem modeOf_ne_of_contrast (hq : s.contrast h x y .mode = some (v, w)) :
    s.modeOf x ≠ s.modeOf y := by
  intro hmode
  rw [contrast, if_pos hmode] at hq
  cases hq

theorem ne_mode_of_differs (hm : m ≠ [])
    (hf : .differs (logicalPath m) .mode v w ∈ s.compare u h a b) :
    ∃ x y, s.ComparedAt a b m x y ∧ s.modeOf x ≠ s.modeOf y := by
  rcases differs_mem_compare hf with ⟨hroot, -⟩ | ⟨ns, x, y, -, hns, hxy, hq⟩
  · exact absurd hroot (logicalPath_ne_root hm)
  · obtain rfl := logicalPath_injective hns
    exact ⟨x, y, hxy, modeOf_ne_of_contrast hq⟩

/-- On the way to two compared directories the modes are the same. -/
theorem Paired.not_differs {p : List Name} (hm : s.Paired a b m) (hp : p ≠ []) (hpm : p <+: m) :
    .differs (logicalPath p) .mode v w ∉ s.compare u h a b := by
  intro hf
  obtain ⟨x, y, ⟨hx, hy, -⟩, hmode⟩ := ne_mode_of_differs hp hf
  exact hmode (hm.modes p hp hpm x y hx hy)

theorem not_gated_of_loneAt {p : List Name} (hlone : s.LoneAt a b ns ∨ s.LoneAt b a ns)
    (hp : p ≠ []) (hpns : p <+: ns) : .differs (logicalPath p) .mode v w ∉ s.compare u h a b := by
  obtain ⟨m, n, r, rfl, hm, hnone⟩ : ∃ m n r, ns = m ++ n :: r ∧ s.Paired a b m ∧
      (s.entryAt (.directory a) (m ++ [n]) = none ∨
        s.entryAt (.directory b) (m ++ [n]) = none) := by
    rcases hlone with ⟨m, n, r, hns, hm, -, hnone, -⟩ | ⟨m, n, r, hns, hm, -, hnone, -⟩
    · exact ⟨m, n, r, hns, hm, .inr hnone⟩
    · exact ⟨m, n, r, hns, hm.symm, .inl hnone⟩
  -- either the modes at `p` are compared on the way to `m`, or one side has nothing at `p`
  by_cases hpm : p <+: m
  · exact hm.not_differs hp hpm
  · intro hf
    obtain ⟨x, y, ⟨hx, hy, -⟩, -⟩ := ne_mode_of_differs hp hf
    have hstep : m ++ [n] <+: m ++ n :: r := (List.prefix_append_right_inj m).2 (by simp)
    have hpast : m ++ [n] <+: p := by
      rcases List.prefix_or_prefix_of_prefix hstep hpns with hpast | hpn
      · exact hpast
      · rcases List.prefix_concat_iff.1 hpn with rfl | hpm'
        · exact List.prefix_rfl
        · exact absurd hpm' hpm
    obtain ⟨r', rfl⟩ := hpast
    rw [entryAt_append] at hx hy
    rcases hnone with hnone | hnone
    · rw [hnone] at hx
      cases hx
    · rw [hnone] at hy
      cases hy

/-! ### What is reported -/

section Unrefused

variable (ha : s.IsFinite a) (hb : s.IsFinite b) (hrun : s.Unrefused u h a b)

include ha hb hrun

/-- What one side alone has is recorded for that side. -/
theorem recorded_of_lone (hlone : s.LoneAt a b ns ∨ s.LoneAt b a ns) :
    (s.entryAt (.directory b) ns = none ∧ .only .deleted (logicalPath ns) ∈ s.compare u h a b) ∨
      (s.entryAt (.directory a) ns = none ∧ .only .added (logicalPath ns) ∈ s.compare u h a b) := by
  have hne : ns ≠ [] := hlone.elim LoneAt.ne_nil LoneAt.ne_nil
  have hz := hlone.imp LoneAt.isSome LoneAt.isSome
  cases covered_of_compare (u := u) (h := h) ha hb hne hz with
  | deleted hnone hf => exact .inl ⟨hnone, hf⟩
  | added hnone hf => exact .inr ⟨hnone, hf⟩
  | compared x y hx hy hf =>
    rcases hlone with hlone | hlone
    · rw [hlone.entryAt_eq_none] at hy
      cases hy
    · rw [hlone.entryAt_eq_none] at hx
      cases hx
  | refused m operation hm hf => exact absurd hf (hrun.operations _ _ _)
  | gated m v w hm hway hne hf => exact absurd hf (not_gated_of_loneAt hlone hm hway)

theorem only_mem_compare_iff_loneOn {side : Side} : .only side p ∈ s.compare u h a b ↔
    ∃ ns, s.LoneOn a b side ns ∧ p = logicalPath ns := by
  constructor
  · intro hf
    obtain ⟨ns, hpath, -, hlone⟩ := justified_of_mem_level (only_mem_compare_iff.1 hf)
    cases side <;> exact ⟨ns, hlone, hpath⟩
  · rintro ⟨ns, hlone, rfl⟩
    cases side with
    | deleted =>
      rcases recorded_of_lone ha hb hrun (.inl hlone) with ⟨-, hf⟩ | ⟨hnone, -⟩
      · exact hf
      · have hsome := LoneAt.isSome hlone
        rw [hnone] at hsome
        cases hsome
    | added =>
      rcases recorded_of_lone ha hb hrun (.inr hlone) with ⟨hnone, -⟩ | ⟨-, hf⟩
      · have hsome := LoneAt.isSome hlone
        rw [hnone] at hsome
        cases hsome
      · exact hf

theorem differs_mem_compare_iff : .differs p q v w ∈ s.compare u h a b ↔
    ∃ ns x y, s.ComparedAt a b ns x y ∧ p = logicalPath ns ∧ s.contrast h x y q = some (v, w) := by
  have hroot : s.rootContrast u h a b q = s.contrast h (.directory a) (.directory b) q :=
    rootContrast_of_not_skipped hrun.operations fun _ => hrun.readsLabels
  constructor
  · intro hf
    rcases differs_mem_compare hf with ⟨rfl, hq⟩ | ⟨ns, x, y, -, hp, hxy, hq⟩
    · exact ⟨[], _, _, comparedAt_nil, rfl, hroot ▸ hq⟩
    · exact ⟨ns, x, y, hxy, hp, hq⟩
  · rintro ⟨ns, x, y, hxy, rfl, hq⟩
    by_cases hne : ns = []
    · subst hne
      obtain ⟨rfl, rfl⟩ := hxy.unique comparedAt_nil
      exact mem_compare_iff.2 (.inl (mem_roots_iff.2 (.inr (.inr ⟨q, v, w, hroot.trans hq, rfl⟩))))
    · obtain ⟨hx, hy, hm⟩ := hxy
      cases covered_of_compare (u := u) (h := h) ha hb hne (.inl (by simp [hx])) with
      | deleted hnone hf =>
        rw [hnone] at hy
        cases hy
      | added hnone hf =>
        rw [hnone] at hx
        cases hx
      | compared x' y' hx' hy' hf =>
        obtain rfl := Option.some.inj (hx.symm.trans hx')
        obtain rfl := Option.some.inj (hy.symm.trans hy')
        exact hf q v w hq fun _ => hrun.readsLabels
      | refused m operation hm hf => exact absurd hf (hrun.operations _ _ _)
      | gated m v w hm' hway hne' hf =>
        refine absurd hf (hm.not_differs hm' ?_)
        rw [← List.dropLast_append_getLast hne, List.prefix_concat_iff,
          List.dropLast_append_getLast hne] at hway
        exact hway.resolve_left hne'

end Unrefused

/-- The report of a comparison of two finite trees in which nothing was refused is exact. -/
theorem diff_isExact (ha : s.IsFinite a) (hb : s.IsFinite b)
    (hrun : s.Unrefused u o.hashAlgorithm a b) :
    s.IsExact o.hashAlgorithm a b (s.diff u o a b ∅) where
  nodup_deleted := nodup_paths_diff .deleted
  mem_deleted := fun p =>
    (mem_paths_diff .deleted).trans (only_mem_compare_iff_loneOn ha hb hrun)
  nodup_added := nodup_paths_diff .added
  mem_added := fun p =>
    (mem_paths_diff .added).trans (only_mem_compare_iff_loneOn ha hb hrun)
  difference := fun p q v w => difference?_diff.trans (differs_mem_compare_iff ha hb hrun)
  mem_keys := by
    intro p
    rw [Report.mem_keys_differences_iff isMeaningful_diff]
    constructor
    · rintro ⟨q, ⟨v, w⟩, hq⟩
      have hf := difference?_diff.1 hq
      obtain ⟨ns, x, y, hxy, hp, hq⟩ := (differs_mem_compare_iff ha hb hrun).1 hf
      exact ⟨ns, x, y, q, (v, w), hxy, hp, hq⟩
    · rintro ⟨ns, x, y, q, ⟨v, w⟩, hxy, hp, hq⟩
      exact ⟨q, (v, w), difference?_diff.2
        ((differs_mem_compare_iff ha hb hrun).2 ⟨ns, x, y, hxy, hp, hq⟩)⟩
  errors := errors_diff_eq_nil hrun.operations

/-- The first tree of the sample has a directory of its own, which the privileged user sees into. -/
theorem diff_sample_isExact :
    sample.IsFinite 1 ∧ sample.IsFinite 2 ∧ sample.Unrefused ⟨0, 0, true⟩ .sha256 1 2 ∧
      sample.IsExact .sha256 1 2 (sample.diff ⟨0, 0, true⟩ ⟨.sha256, true⟩ 1 2 ∅) :=
  ⟨isFinite_sample 1, isFinite_sample 2, unrefused_of_privileged rfl,
    diff_isExact (o := ⟨.sha256, true⟩) (isFinite_sample 1) (isFinite_sample 2)
      (unrefused_of_privileged rfl)⟩

end Store

end TreeComparison

import TreeComparison.Proofs.Comparison

/-!
Strict reports lose nothing silently. Whatever exists on either side is accounted for: it is
recorded, or compared in full, or an error is recorded at its path or on the way to it, or the way
leads through two entries of different modes. So a strict report that has nothing to say shows that
the trees agree.
-/

namespace TreeComparison.Store

variable {s : Store} {u : User} {h : HashAlgorithm} {a b : DirectoryId} {ns : List Name}
  {x y : Entry} {o : Options} {r : Report}

/-- What a report says of the place that some names lead to. It does not say that the entry there
was compared: it says at least why it was not. -/
inductive Accounted (s : Store) (u : User) (h : HashAlgorithm) (a b : DirectoryId)
    (ns : List Name) (r : Report) : Prop where
  /-- The second tree has nothing there, and the path is recorded as deleted. -/
  | deleted (hb : s.entryAt (.directory b) ns = none) (hr : logicalPath ns ∈ r.deleted) :
      Accounted s u h a b ns r
  /-- The first tree has nothing there, and the path is recorded as added. -/
  | added (ha : s.entryAt (.directory a) ns = none) (hr : logicalPath ns ∈ r.added) :
      Accounted s u h a b ns r
  /-- Both trees have an entry there, and every attribute in which the two differ is recorded; the
  labels count as empty if the user may not read labels. -/
  | compared (x y : Entry) (hx : s.entryAt (.directory a) ns = some x)
      (hy : s.entryAt (.directory b) ns = some y)
      (hr : ∀ q v w, s.contrast h x y q = some (v, w) → (q = .selinux → s.readsLabels u = true) →
        r.difference? (logicalPath ns) q = some (v, w)) : Accounted s u h a b ns r
  /-- An error is recorded there or on the way. -/
  | failed (m : List Name) (hm : m <+: ns) (e : Skip) (he : e ∈ r.errors)
      (hpath : e.path = logicalPath m) : Accounted s u h a b ns r
  /-- A difference of modes is recorded on the way. -/
  | gated (m : List Name) (hm : m ≠ []) (hway : m <+: ns) (hne : m ≠ ns)
      (vw : PropertyValue × PropertyValue)
      (hr : r.difference? (logicalPath m) .mode = some vw) : Accounted s u h a b ns r

theorem accounted_of_covered (ho : o.strict = true)
    (hcover : s.Covered u o.hashAlgorithm a b "/" ns (s.compare u o.hashAlgorithm a b)) :
    s.Accounted u o.hashAlgorithm a b ns (s.diff u o a b ∅) := by
  cases hcover with
  | deleted hb hf => exact .deleted hb ((mem_paths_diff .deleted).2 hf)
  | added ha hf => exact .added ha ((mem_paths_diff .added).2 hf)
  | compared x y hx hy hf =>
    exact .compared x y hx hy fun q v w hq hlabel => difference?_diff.2 (hf q v w hq hlabel)
  | refused m operation hm hf =>
    obtain ⟨e, he, hpath⟩ := exists_error_of_skipped ho hf
    exact .failed m hm e he hpath
  | gated m v w hm hway hne hf => exact .gated m hm hway hne (v, w) (difference?_diff.2 hf)

/-! ### Trees that agree -/

/-- Whether two entries agree in all that is compared: contents by their fingerprints, and labels if
the user may read labels. -/
structure Alike (s : Store) (u : User) (h : HashAlgorithm) (x y : Entry) : Prop where
  mode : s.modeOf x = s.modeOf y
  label : s.readsLabels u = true → s.labelOf x = s.labelOf y
  uid : (s.attributes x).uid = (s.attributes y).uid
  gid : (s.attributes x).gid = (s.attributes y).gid
  target : ∀ {p q t t'}, x = .symlink p t → y = .symlink q t' → t = t'
  content : ∀ {p q c c'}, x = .file p c → y = .file q c' → h.fingerprintOf c = h.fingerprintOf c'

theorem eq_of_unequal_eq_none {v w : PropertyValue} (hvw : unequal v w = none) : v = w := by
  rw [unequal] at hvw
  split at hvw
  · assumption
  · cases hvw

theorem alike_of_contrast_eq_none
    (hnone : ∀ q, (q = .selinux → s.readsLabels u = true) → s.contrast h x y q = none) :
    s.Alike u h x y := by
  have hother : ∀ q, q ≠ .selinux → s.contrast h x y q = none :=
    fun q hq => hnone q fun h => absurd h hq
  have hmode : s.modeOf x = s.modeOf y := by
    by_contra hne
    have hm := hother .mode (by decide)
    rw [contrast, if_neg hne] at hm
    cases hm
  have huid := hother .uid (by decide)
  have hgid := hother .gid (by decide)
  rw [contrast, if_pos hmode] at huid
  rw [contrast, if_pos hmode] at hgid
  refine ⟨hmode,
    fun hl => PropertyValue.text.inj (eq_of_unequal_eq_none (hnone .selinux fun _ => hl)),
    PropertyValue.id.inj (eq_of_unequal_eq_none huid),
    PropertyValue.id.inj (eq_of_unequal_eq_none hgid), ?_, ?_⟩
  · rintro p q t t' rfl rfl
    have htarget := hother .symlink (by decide)
    simp only [contrast] at htarget
    by_contra hne
    rw [if_pos ⟨hmode, hne⟩] at htarget
    cases htarget
  · rintro p q c c' rfl rfl
    have hcontent := hother .content (by decide)
    simp only [contrast, if_pos hmode] at hcontent
    exact PropertyValue.text.inj (eq_of_unequal_eq_none hcontent)

/-- Where a report has nothing to say and no errors, what it accounts for is alike on both sides. -/
theorem Accounted.alike (hr : r.isEmpty = true) (herrors : r.errors = [])
    (haccount : s.Accounted u h a b ns r) :
    Option.Rel (s.Alike u h) (s.entryAt (.directory a) ns) (s.entryAt (.directory b) ns) := by
  have hpaths : ∀ side, r.paths side = [] := fun side => Report.paths_of_isEmpty hr
  cases haccount with
  | deleted hb hmem =>
    rw [show r.deleted = [] from hpaths .deleted] at hmem
    cases hmem
  | added ha hmem =>
    rw [show r.added = [] from hpaths .added] at hmem
    cases hmem
  | compared x y hx hy hall =>
    rw [hx, hy]
    refine .some (alike_of_contrast_eq_none fun q hlabel => ?_)
    cases hq : s.contrast h x y q with
    | none => rfl
    | some vw =>
      have hsome := hall q vw.1 vw.2 hq hlabel
      rw [Report.difference?_of_isEmpty hr] at hsome
      cases hsome
  | failed m hm e he hpath =>
    rw [herrors] at he
    cases he
  | gated m hm hway hne vw hsome =>
    rw [Report.difference?_of_isEmpty hr] at hsome
    cases hsome

/-- Where a strict report has nothing to say and no errors, the roots are alike. -/
theorem alike_roots (ho : o.strict = true) (hr : (s.diff u o a b ∅).isEmpty = true)
    (herrors : (s.diff u o a b ∅).errors = []) :
    s.Alike u o.hashAlgorithm (.directory a) (.directory b) := by
  refine alike_of_contrast_eq_none fun q hlabel => ?_
  rw [← rootContrast_of_not_skipped (not_skipped_of_errors_diff ho herrors) hlabel]
  cases hq : s.rootContrast u o.hashAlgorithm a b q with
  | none => rfl
  | some vw =>
    have hf : .differs "/" q vw.1 vw.2 ∈ s.compare u o.hashAlgorithm a b :=
      mem_compare_iff.2 (.inl (mem_roots_iff.2 (.inr (.inr ⟨q, vw.1, vw.2, hq, rfl⟩))))
    have hsome := difference?_diff.2 hf
    rw [Report.difference?_of_isEmpty hr] at hsome
    cases hsome

/-- A strict report accounts for all that exists in either tree. -/
theorem accounted_of_isSome (ha : s.IsFinite a) (hb : s.IsFinite b) (ho : o.strict = true)
    (hne : ns ≠ []) (hz : (s.entryAt (.directory a) ns).isSome = true ∨
      (s.entryAt (.directory b) ns).isSome = true) :
    s.Accounted u o.hashAlgorithm a b ns (s.diff u o a b ∅) :=
  accounted_of_covered ho (covered_of_compare ha hb hne hz)

/-- Where a strict report has nothing to say and no errors, the trees are alike at every place. -/
theorem alike_of_isEmpty (ha : s.IsFinite a) (hb : s.IsFinite b) (ho : o.strict = true)
    (hr : (s.diff u o a b ∅).isEmpty = true) (herrors : (s.diff u o a b ∅).errors = [])
    (ns : List Name) : Option.Rel (s.Alike u o.hashAlgorithm) (s.entryAt (.directory a) ns)
      (s.entryAt (.directory b) ns) := by
  by_cases hne : ns = []
  · subst hne
    rw [entryAt_nil, entryAt_nil]
    exact .some (alike_roots ho hr herrors)
  · cases hx : s.entryAt (.directory a) ns with
    | some x =>
      rw [← hx]
      exact (accounted_of_isSome ha hb ho hne (.inl (by simp [hx]))).alike hr herrors
    | none =>
      cases hy : s.entryAt (.directory b) ns with
      | some y =>
        rw [← hx, ← hy]
        exact (accounted_of_isSome ha hb ho hne (.inr (by simp [hy]))).alike hr herrors
      | none => exact .none

/-- A strict report accounts for all that exists in either tree. If it has nothing to say and no
errors, the trees have the same names and agree in all that is compared, the roots included. -/
theorem diff_accounts (ha : s.IsFinite a) (hb : s.IsFinite b) (ho : o.strict = true) :
    (∀ ns, ns ≠ [] → (s.entryAt (.directory a) ns).isSome = true ∨
        (s.entryAt (.directory b) ns).isSome = true →
      s.Accounted u o.hashAlgorithm a b ns (s.diff u o a b ∅)) ∧
    ((s.diff u o a b ∅).isEmpty = true → (s.diff u o a b ∅).errors = [] → ∀ ns,
      Option.Rel (s.Alike u o.hashAlgorithm) (s.entryAt (.directory a) ns)
        (s.entryAt (.directory b) ns)) := by
  refine ⟨fun ns hne hz => ?_, fun hr herrors ns => ?_⟩
  · exact accounted_of_isSome ha hb ho hne hz
  · exact alike_of_isEmpty ha hb ho hr herrors ns

/-- A file system with two trees that agree, at places 0 and 1: both have a directory `w` with a
file `z` in it, whose label is padded in the second. -/
def agreeing : Store where
  directories := #[
    ⟨⟨0o755, 0, 0, []⟩, ⟨[(⟨[0x77], by decide⟩, .directory 2)], by decide⟩⟩,
    ⟨⟨0o755, 0, 0, []⟩, ⟨[(⟨[0x77], by decide⟩, .directory 3)], by decide⟩⟩,
    ⟨⟨0o755, 0, 0, []⟩, ⟨[(⟨[0x7A], by decide⟩, .file ⟨0o644, 7, 7, []⟩ [0x31])], by decide⟩⟩,
    ⟨⟨0o755, 0, 0, []⟩,
      ⟨[(⟨[0x7A], by decide⟩, .file ⟨0o644, 7, 7, [0x0A]⟩ [0x31])], by decide⟩⟩]

/-- A user who may not enter the directory that the first tree of the sample has for itself is told
that, and the file in it is accounted for. A user who is told nothing of two trees that agree has
shown that their files are alike. -/
theorem diff_sample_accounts : sample.IsFinite 1 ∧ sample.IsFinite 2 ∧
    sample.Accounted ⟨7, 7, false⟩ .sha256 1 2 [⟨[0x64], by decide⟩, ⟨[0x66], by decide⟩]
      (sample.diff ⟨7, 7, false⟩ ⟨.sha256, true⟩ 1 2 ∅) ∧
    agreeing.IsFinite 0 ∧ agreeing.IsFinite 1 ∧
    (agreeing.diff ⟨9, 9, false⟩ ⟨.sha256, true⟩ 0 1 ∅).isEmpty = true ∧
    (agreeing.diff ⟨9, 9, false⟩ ⟨.sha256, true⟩ 0 1 ∅).errors = [] ∧
    agreeing.Alike ⟨9, 9, false⟩ .sha256 (.file ⟨0o644, 7, 7, []⟩ [0x31])
      (.file ⟨0o644, 7, 7, [0x0A]⟩ [0x31]) := by
  have hfinite : ∀ d, agreeing.IsFinite d := isFinite_of_isAscending rfl
  have hempty : (agreeing.diff ⟨9, 9, false⟩ ⟨.sha256, true⟩ 0 1 ∅).isEmpty = true := by
    decide +kernel
  have herrors : (agreeing.diff ⟨9, 9, false⟩ ⟨.sha256, true⟩ 0 1 ∅).errors = [] := by
    decide +kernel
  refine ⟨isFinite_sample 1, isFinite_sample 2, ?_, hfinite 0, hfinite 1, hempty, herrors, ?_⟩
  · exact (diff_accounts (o := ⟨.sha256, true⟩) (isFinite_sample 1) (isFinite_sample 2) rfl).1 _
      (List.cons_ne_nil _ _) (.inl rfl)
  · have hrel := (diff_accounts (o := ⟨.sha256, true⟩) (hfinite 0) (hfinite 1) rfl).2 hempty herrors
      [⟨[0x77], by decide⟩, ⟨[0x7A], by decide⟩]
    cases hrel with
    | some halike => exact halike

end TreeComparison.Store

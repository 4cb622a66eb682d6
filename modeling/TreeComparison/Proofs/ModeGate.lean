import TreeComparison.Proofs.ExactReport

/-!
Entries of different modes. Where a difference of modes is found, the two entries are compared in
nothing but their labels, and nothing is looked at below them: the walk does not go down, and the
sweep has met the name. So the rest of the report is silent about that path and all that lies below
it. The two roots are the exception: whatever is found of them, what is below them is compared as if
they had not been.
-/

namespace TreeComparison

/-- What may be noted down at the path of two entries of different modes, and below it. -/
inductive GateNote (path : String) : Finding → Prop where
  | visiting : GateNote path (.visiting path)
  | mode (v w : PropertyValue) : GateNote path (.differs path .mode v w)
  | selinux (v w : PropertyValue) : GateNote path (.differs path .selinux v w)
  | unlabelled (fault : Fault) : GateNote path (.unreadableLabel path fault)

theorem GateNote.path_eq {path : String} {f : Finding} (hf : GateNote path f) : f.path = path := by
  cases hf <;> rfl

theorem Reaches.trans {p q r : String} (hpq : Reaches p q) (hqr : Reaches q r) : Reaches p r := by
  obtain ⟨ms, rfl⟩ := hpq
  obtain ⟨ns, rfl⟩ := hqr
  exact ⟨ms ++ ns, (pathBelow_append _ _ _).symm⟩

/-- No way leads up. -/
theorem not_reaches_up {m r : List Name} (hr : r ≠ []) :
    ¬ Reaches (pathBelow (logicalPath m) r) (logicalPath m) := by
  rintro ⟨ns, hns⟩
  rw [← pathBelow_append] at hns
  exact hr (List.append_eq_nil_iff.1 (eq_nil_of_pathBelow_eq hns)).1

theorem reaches_of_isBelow {ms ns : List Name} (hms : ms ≠ [])
    (hbelow : IsBelow (logicalPath ms) (logicalPath ns)) :
    Reaches (logicalPath ms) (logicalPath ns) := by
  obtain ⟨n, r, rfl⟩ := (isBelow_logicalPath_iff hms).1 hbelow
  exact ⟨n :: r, logicalPath_append ms (n :: r)⟩

/-! ### Silent reports -/

/-- Whether a report says anything of a path. -/
def Report.Mentions (r : Report) (p : String) : Prop :=
  p ∈ r.added ∨ p ∈ r.deleted ∨ p ∈ r.differences.keys ∨ ∃ e ∈ r.errors, e.path = p

/-- Whether a report says of a path no more than mode and label, and, unless the path is that of the
roots, has no error there and nothing at all to say of what is below. -/
structure Report.IsGatedAt (r : Report) (p : String) : Prop where
  properties : ∀ q vw, r.difference? p q = some vw → q = .mode ∨ q = .selinux
  errors : p ≠ "/" → ∀ e ∈ r.errors, e.path ≠ p
  below : p ≠ "/" → ∀ p', IsBelow p p' → ¬ r.Mentions p'

/-- Whether a report says the same as another one of all that is below the roots, in the same order,
and the other one records no difference between the roots. -/
structure Report.SameBelowRoots (r r' : Report) : Prop where
  added : r.added = r'.added
  deleted : r.deleted = r'.deleted
  errors : r.errors = r'.errors
  properties : ∀ p, p ≠ "/" → r.properties? p = r'.properties? p
  roots : r'.properties? "/" = none

namespace Store

variable {s : Store} {u : User} {h : HashAlgorithm} {k : Nat} {a b : DirectoryId} {m ns : List Name}
  {n : Name} {x y : Entry} {p path : String} {f g : Finding} {q : Property}
  {v w : PropertyValue} {o : Options}

/-! ### One entry of a level -/

/-- A difference is noted down for an entry that both sides have. -/
theorem both_of_differs_mem_level
    (hf : .differs p q v w ∈ (Walk.level u h (k + 1) a b path).findings s) :
    s.searchable u b = true ∧ ∃ n x y, s.child a n = some x ∧ s.child b n = some y ∧
      PairNote s u h k x y (joinPath path n.bytes) (.differs p q v w) := by
  cases mem_level_iff.1 hf with
  | both ha hb n x y hx hy _ hf => exact ⟨hb, n, x, y, hx, hy, hf⟩
  | deleted ha hb n x hx hy _ hf => exact absurd hf differs_not_mem_oneSidedNotes
  | added ha hb n y hx hy _ hf => exact absurd hf differs_not_mem_oneSidedNotes

/-- A difference found in a level is one further below, and no way leads up from there. -/
theorem not_reaches_of_differs_mem_level
    (hf : .differs p q v w ∈ (Walk.level u h k a b (logicalPath m)).findings s) :
    ¬ Reaches p (logicalPath m) := by
  obtain ⟨r, hr, hroot, -⟩ := justified_of_mem_level hf
  have hne : r ≠ [] := fun hnil => nomatch hroot hnil
  rw [show p = _ from hr]
  exact not_reaches_up hne

theorem reaches_of_pairNote (hf : PairNote s u h k x y path f) : Reaches path f.path :=
  reaches_of_mem_pairNotes (mem_pairNotes_iff.2 hf)

/-- Where both sides have an entry, all that is found at its path or below it was noted down for the
two entries. -/
theorem pairNote_of_reaches (hb : s.searchable u b = true) (hx : s.child a n = some x)
    (hy : s.child b n = some y)
    (hg : g ∈ (Walk.level u h (k + 1) a b (logicalPath m)).findings s)
    (hreach : Reaches (logicalPath (m ++ [n])) g.path) :
    g = .visiting (logicalPath (m ++ [n])) ∨
      PairNote s u h k x y (logicalPath (m ++ [n])) g := by
  have hup : ¬ Reaches (logicalPath (m ++ [n])) (logicalPath m) := by
    rw [logicalPath_append]
    exact not_reaches_up (List.cons_ne_nil n [])
  cases mem_level_iff.1 hg with
  | unlisted ha => exact absurd hreach hup
  | unswept ha hnb => exact absurd hreach hup
  | unmatched ha hnb n' x' hx' =>
    rw [hb] at hnb
    cases hnb
  | visited ha n' x' hx' =>
    rw [joinPath_logicalPath] at hreach ⊢
    rw [name_eq_of_reaches hreach (reaches_self _)]
    exact .inl rfl
  | deleted ha _ n' x' hx' hy' _ hg =>
    rw [joinPath_logicalPath] at hg
    rw [← name_eq_of_reaches hreach (reaches_of_mem_oneSidedNotes hg), hy] at hy'
    cases hy'
  | added ha _ n' y' hx' hy' _ hg =>
    rw [joinPath_logicalPath] at hg
    rw [← name_eq_of_reaches hreach (reaches_of_mem_oneSidedNotes hg), hx] at hx'
    cases hx'
  | both ha _ n' x' y' hx' hy' _ hg =>
    rw [joinPath_logicalPath] at hg
    obtain rfl := name_eq_of_reaches hreach (reaches_of_pairNote hg)
    obtain rfl := Option.some.inj (hx.symm.trans hx')
    obtain rfl := Option.some.inj (hy.symm.trans hy')
    exact .inr hg

/-! ### The gate -/

/-- Entries of different modes are contrasted in nothing but mode and label. -/
theorem eq_mode_or_selinux_of_contrast (hmode : s.modeOf x ≠ s.modeOf y)
    (hq : s.contrast h x y q = some (v, w)) : q = .mode ∨ q = .selinux := by
  cases q with
  | mode => exact .inl rfl
  | selinux => exact .inr rfl
  | uid => rw [contrast, if_neg hmode] at hq; cases hq
  | gid => rw [contrast, if_neg hmode] at hq; cases hq
  | symlink =>
    cases x <;> cases y <;> try cases hq
    rw [contrast, if_neg fun hne => hmode hne.1] at hq
    cases hq
  | content =>
    cases x <;> cases y <;> try cases hq
    rw [contrast, if_neg hmode] at hq
    cases hq

theorem gateNote_of_pairNote (hmode : s.modeOf x ≠ s.modeOf y)
    (hf : PairNote s u h k x y path f) : GateNote path f := by
  cases hf with
  | differs q v w hq hread hlabel =>
    rcases eq_mode_or_selinux_of_contrast hmode hq with rfl | rfl
    · exact .mode v w
    · exact .selinux v w
  | unlabelled hlabel => exact .unlabelled denied
  | refused operation hsame hread hkind => exact absurd hsame hmode
  | inside c d hx hy hsame hc hd f hf => exact absurd hsame hmode

/-- Of what is at a path with a difference of modes or below it, only the visit is noted down, the
differences in mode and label, and that labels cannot be read. -/
theorem gateNote_of_mem_level
    (hf : .differs p .mode v w ∈ (Walk.level u h k a b (logicalPath m)).findings s)
    (hg : g ∈ (Walk.level u h k a b (logicalPath m)).findings s) (hreach : Reaches p g.path) :
    GateNote p g := by
  induction k generalizing a b m with
  | zero => cases hf
  | succ k ih =>
    obtain ⟨hb, n, x, y, hx, hy, hf⟩ := both_of_differs_mem_level hf
    rw [joinPath_logicalPath] at hf
    -- so what is found at the path or below it was noted down for the same two entries
    have hpath : Reaches (logicalPath (m ++ [n])) p := reaches_of_pairNote hf
    have hg := pairNote_of_reaches hb hx hy hg (hpath.trans hreach)
    cases hf with
    | differs _ _ _ hq hread hlabel =>
      rcases hg with rfl | hg
      · exact .visiting
      · exact gateNote_of_pairNote (modeOf_ne_of_contrast hq) hg
    | inside c d hxc hyd hmode hc hd _ hf =>
      have hdeep : ¬ Reaches p (logicalPath (m ++ [n])) := not_reaches_of_differs_mem_level hf
      rcases hg with rfl | hg
      · exact absurd hreach hdeep
      · cases hg with
        | differs q v w hq hread hlabel => exact absurd hreach hdeep
        | unlabelled hlabel => exact absurd hreach hdeep
        | refused operation hmode hread hkind => exact absurd hreach hdeep
        | inside c' d' hxc' hyd' _ _ _ _ hg =>
          obtain rfl := Entry.directory.inj (hxc.symm.trans hxc')
          obtain rfl := Entry.directory.inj (hyd.symm.trans hyd')
          exact ih hf hg

/-! ### The whole comparison -/

theorem path_eq_of_mem_roots (hf : f ∈ (Walk.roots u a b).findings s) :
    f.path = logicalPath [] := by
  rcases eq_of_mem_roots hf with rfl | ⟨q, v, w, rfl⟩ <;> rfl

theorem exists_path_of_mem_compare (hf : f ∈ s.compare u h a b) :
    ∃ ns, f.path = logicalPath ns := by
  rcases mem_compare_iff.1 hf with hf | hf
  · exact ⟨[], path_eq_of_mem_roots hf⟩
  · obtain ⟨ns, hns, -⟩ := justified_of_mem_level hf
    exact ⟨ns, hns⟩

/-- What is found at the path of an entry or below it is found below the roots. -/
theorem mem_level_of_reaches (hns : ns ≠ []) (hf : f ∈ s.compare u h a b)
    (hreach : Reaches (logicalPath ns) f.path) :
    f ∈ (Walk.level u h s.levels a b "/").findings s := by
  rcases mem_compare_iff.1 hf with hf | hf
  · rw [path_eq_of_mem_roots hf] at hreach
    exact absurd hreach (not_reaches_up (m := []) hns)
  · exact hf

theorem gateNote_of_mem_compare (hns : ns ≠ [])
    (hmode : .differs (logicalPath ns) .mode v w ∈ s.compare u h a b)
    (hf : f ∈ s.compare u h a b) (hreach : Reaches (logicalPath ns) f.path) :
    GateNote (logicalPath ns) f := by
  have hlevel := mem_level_of_reaches hns hmode (reaches_self _)
  exact gateNote_of_mem_level (m := []) hlevel (mem_level_of_reaches hns hf hreach) hreach

theorem exists_finding_of_mentions (hp : (s.diff u o a b ∅).Mentions p) :
    ∃ f ∈ s.compare u o.hashAlgorithm a b, f.path = p := by
  rcases hp with hp | hp | hp | ⟨e, he, rfl⟩
  · exact ⟨_, (mem_paths_diff .added).1 hp, rfl⟩
  · exact ⟨_, (mem_paths_diff .deleted).1 hp, rfl⟩
  · obtain ⟨q, ⟨v, w⟩, hq⟩ := (Report.mem_keys_differences_iff isMeaningful_diff).1 hp
    exact ⟨_, difference?_diff.1 hq, rfl⟩
  · obtain ⟨operation, fault, hf⟩ := exists_skipped_of_mem_errors he
    exact ⟨_, hf, rfl⟩

/-- Two roots of different modes are recorded to differ in nothing but mode and label. -/
theorem properties_of_roots (hmode : s.modeOf (.directory a) ≠ s.modeOf (.directory b))
    (hq : .differs "/" q v w ∈ s.compare u h a b) : q = .mode ∨ q = .selinux := by
  rcases differs_mem_compare hq with ⟨-, hq⟩ | ⟨ns, x, y, hne, hroot, -, -⟩
  · by_cases hlabel : q = .selinux
    · exact .inr hlabel
    · rw [rootContrast] at hq
      · exact eq_mode_or_selinux_of_contrast hmode hq
      · exact hlabel
  · exact absurd hroot.symm (logicalPath_ne_root hne)

/-- Where a difference of modes is recorded, the report is gated. -/
theorem isGatedAt_of_difference {vw : PropertyValue × PropertyValue}
    (hp : (s.diff u o a b ∅).difference? p .mode = some vw) :
    (s.diff u o a b ∅).IsGatedAt p := by
  have hmode := difference?_diff.1 hp
  rcases differs_mem_compare hmode with ⟨rfl, hq⟩ | ⟨ns, x, y, hns, rfl, -, -⟩
  · have hroots := modeOf_ne_of_contrast (h := o.hashAlgorithm) hq
    refine ⟨?_, fun hne => absurd rfl hne, fun hne => absurd rfl hne⟩
    intro q vw hq
    exact properties_of_roots hroots (difference?_diff.1 hq)
  · refine ⟨?_, ?_, ?_⟩
    · intro q vw hq
      cases gateNote_of_mem_compare hns hmode (difference?_diff.1 hq) (reaches_self _) with
      | mode => exact .inl rfl
      | selinux => exact .inr rfl
    · intro _ e he heq
      obtain ⟨operation, fault, hf⟩ := exists_skipped_of_mem_errors he
      rw [heq] at hf
      cases gateNote_of_mem_compare hns hmode hf (reaches_self _)
    · intro _ p' hbelow hmention
      obtain ⟨f, hf, rfl⟩ := exists_finding_of_mentions hmention
      obtain ⟨ms, hms⟩ := exists_path_of_mem_compare hf
      have hreach : Reaches (logicalPath ns) f.path := by
        rw [hms] at hbelow ⊢
        exact reaches_of_isBelow hns hbelow
      rw [(gateNote_of_mem_compare hns hmode hf hreach).path_eq] at hbelow
      exact not_isBelow_of_length_le (Nat.le_refl _) hns hbelow

/-! ### What is below the roots -/

/-- The report of comparing what is below two open directories, and not the two themselves. -/
def diffBelow (s : Store) (u : User) (o : Options) (a b : DirectoryId) : Report :=
  ((Recorder.level u o s.levels a b "/").atRest s ∅).2

theorem diffBelow_eq_noteAll : s.diffBelow u o a b =
    (∅ : Report).noteAll o.strict ((Walk.level u o.hashAlgorithm s.levels a b "/").findings s) := by
  rw [diffBelow, ← Walk.recorded_level, Walk.atRest_recorded]

theorem difference?_diffBelow : (s.diffBelow u o a b).difference? p q = some (v, w) ↔
    .differs p q v w ∈ (Walk.level u o.hashAlgorithm s.levels a b "/").findings s := by
  rw [diffBelow_eq_noteAll]
  exact Report.difference?_noteAll fun _ _ _ _ _ _ hf hf' =>
    differs_unique (mem_compare_iff.2 (.inr hf)) (mem_compare_iff.2 (.inr hf'))

theorem isMeaningful_diffBelow : (s.diffBelow u o a b).IsMeaningful := by
  rw [diffBelow_eq_noteAll]
  exact Report.isMeaningful_noteAll

theorem properties?_diffBelow (hp : p ≠ "/") :
    (s.diff u o a b ∅).properties? p = (s.diffBelow u o a b).properties? p := by
  refine Report.properties?_eq isMeaningful_diff isMeaningful_diffBelow fun q => ?_
  refine Option.ext fun vw => ?_
  rw [difference?_diff, difference?_diffBelow]
  exact differs_mem_compare_iff_mem_level hp

theorem paths_diffBelow (side : Side) :
    (s.diff u o a b ∅).paths side = (s.diffBelow u o a b).paths side := by
  rw [paths_diff, diffBelow_eq_noteAll, Report.paths_noteAll_empty,
    filterMap_compare rfl fun _ _ _ => rfl]

theorem errors_diffBelow : (s.diff u o a b ∅).errors = (s.diffBelow u o a b).errors := by
  rw [diff_eq_noteAll, diffBelow_eq_noteAll, Report.errors_noteAll, Report.errors_noteAll,
    filterMap_compare rfl fun _ _ _ => rfl]

/-- Of the roots themselves nothing is recorded for the levels below them. -/
theorem properties?_diffBelow_root : (s.diffBelow u o a b).properties? "/" = none := by
  refine Report.properties?_eq_none isMeaningful_diffBelow fun q => ?_
  refine Option.eq_none_iff_forall_ne_some.2 fun vw hq => ?_
  exact not_reaches_of_differs_mem_level (m := []) (difference?_diffBelow.1 hq) (reaches_self _)

/-- A difference of modes is a gate. Wherever one is recorded, the report has no more to say of the
path than mode and label, and of what is below nothing at all. It is no gate between the two roots:
below them the report is that of the levels alone, whether or not the modes of the roots differ. -/
theorem diff_isGated (s : Store) (u : User) (o : Options) (a b : DirectoryId) :
    (∀ p vw, (s.diff u o a b ∅).difference? p .mode = some vw →
      (s.diff u o a b ∅).IsGatedAt p) ∧
    (s.diff u o a b ∅).SameBelowRoots (s.diffBelow u o a b) :=
  ⟨fun _ _ hp => isGatedAt_of_difference hp, paths_diffBelow .added, paths_diffBelow .deleted,
    errors_diffBelow, fun _ hp => properties?_diffBelow hp, properties?_diffBelow_root⟩

/-- A file system with two trees. Both have a directory `k`, which in the second tree only its owner
may enter; in the first tree a file is in it. -/
def gated : Store where
  directories := #[
    ⟨⟨0o755, 7, 7, []⟩, ⟨[(⟨[0x6B], by decide⟩, .directory 2)], by decide⟩⟩,
    ⟨⟨0o775, 7, 7, []⟩, ⟨[(⟨[0x6B], by decide⟩, .directory 3)], by decide⟩⟩,
    ⟨⟨0o755, 7, 7, []⟩, ⟨[(⟨[0x6B], by decide⟩, .file ⟨0o644, 7, 7, []⟩ [0x31])], by decide⟩⟩,
    ⟨⟨0o700, 8, 8, [0x73]⟩, ∅⟩]

/-- The modes of the two directories differ, and so the file in one of them is not reported; the
modes of the roots differ too, and still the directories in them are. -/
theorem diff_gated_isGatedAt :
    (gated.diff ⟨9, 9, false⟩ ⟨.sha256, true⟩ 0 1 ∅).difference? "/k" .mode
        = some (.text "40755", .text "40700") ∧
      (gated.diff ⟨9, 9, false⟩ ⟨.sha256, true⟩ 0 1 ∅).IsGatedAt "/k" ∧
      (gated.diff ⟨9, 9, false⟩ ⟨.sha256, true⟩ 0 1 ∅).difference? "/" .mode
        = some (.text "40755", .text "40775") := by
  have hk : (gated.diff ⟨9, 9, false⟩ ⟨.sha256, true⟩ 0 1 ∅).difference? "/k" .mode
      = some (.text "40755", .text "40700") := by decide
  exact ⟨hk, (diff_isGated gated ⟨9, 9, false⟩ ⟨.sha256, true⟩ 0 1).1 _ _ hk, by decide⟩

end Store

end TreeComparison

import TreeComparison.Proofs.Once
import TreeComparison.Proofs.Recording
import TreeComparison.Proofs.Threading

/-!
A whole comparison and its report. The roots are contrasted first, by a label that counts as empty
if it cannot be read; all else is noted down for the levels below. As no path is noted down in two
ways, the report and the findings say the same.
-/

namespace TreeComparison

namespace Store

variable {s : Store} {u : User} {h : HashAlgorithm} {a b d : DirectoryId} {f : Finding}
  {q : Property} {p : String} {v w v' w' : PropertyValue} {side : Side} {operation : Operation}
  {fault : Fault}

/-! ### The roots -/

/-- The label of a root as it is compared. -/
def rootLabel (s : Store) (u : User) (d : DirectoryId) : String :=
  if s.readsLabels u && s.searchable u d then s.labelOf (.directory d) else ""

/-- What is noted down while the label of a root is read. -/
def rootLabelNotes (s : Store) (u : User) (d : DirectoryId) : List Finding :=
  if s.readsLabels u && s.searchable u d then [] else [.unreadableLabel "/" denied]

/-- The values of an attribute of the two roots, if they differ. -/
def rootContrast (s : Store) (u : User) (h : HashAlgorithm) (a b : DirectoryId) :
    Property → Option (PropertyValue × PropertyValue)
  | .selinux => unequal (.text (s.rootLabel u a)) (.text (s.rootLabel u b))
  | q => s.contrast h (.directory a) (.directory b) q

theorem rootContrast_of_searchable (hlabel : q = .selinux → s.readsLabels u = true)
    (ha : s.searchable u a = true) (hb : s.searchable u b = true) :
    s.rootContrast u h a b q = s.contrast h (.directory a) (.directory b) q := by
  cases q with
  | selinux => simp only [rootContrast, rootLabel, hlabel rfl, ha, hb]; rfl
  | _ => rfl

/-- The labels of the roots are found to differ only by a user who may read labels. -/
theorem readsLabels_of_rootContrast (hq : s.rootContrast u h a b .selinux = some (v, w)) :
    s.readsLabels u = true := by
  cases hl : s.readsLabels u with
  | true => rfl
  | false =>
    simp only [rootContrast, rootLabel, hl] at hq
    cases hq

theorem value_labelOr_root : ((Walk.readLabel u d none).value s |> Walk.labelOr "/").value s
    = s.rootLabel u d := by
  rw [Walk.readLabel, Walk.value_ask, securityLabel_self, rootLabel]
  cases s.readsLabels u && s.searchable u d <;> rfl

theorem findings_labelOr_root : ((Walk.readLabel u d none).value s |> Walk.labelOr "/").findings s
    = s.rootLabelNotes u d := by
  rw [Walk.readLabel, Walk.value_ask, securityLabel_self, rootLabelNotes]
  cases s.readsLabels u && s.searchable u d <;> rfl

theorem findings_roots : (Walk.roots u a b).findings s = (s.rootLabelNotes u a ++
    (s.rootLabelNotes u b ++
      differing "/" .selinux (.text (s.rootLabel u a)) (.text (s.rootLabel u b)))) ++
    metadataFindings (s.snapshot (.directory a)) (s.snapshot (.directory b)) "/" := by
  have hread : ∀ d, (Walk.readLabel u d none).findings s = [] := fun d => rfl
  have hlabel := fun d => findings_labelOr_root (s := s) (u := u) (d := d)
  have hvalue := fun d => value_labelOr_root (s := s) (u := u) (d := d)
  simp only [Walk.roots, Walk.compareSecurityLabel, Walk.compareLabels, Walk.compareMetadata,
    Walk.bind_eq, Walk.findings_andThen, Walk.value_ask, Walk.findings_ask, Walk.findings_foundAll,
    hread, hlabel, hvalue, List.nil_append, statSelf, Walk.pure_eq, Walk.findings_done,
    List.append_nil]

theorem mem_roots_iff : f ∈ (Walk.roots u a b).findings s ↔
    f ∈ s.rootLabelNotes u a ∨ f ∈ s.rootLabelNotes u b ∨
      ∃ q v w, s.rootContrast u h a b q = some (v, w) ∧ f = .differs "/" q v w := by
  rw [findings_roots, List.mem_append, List.mem_append, List.mem_append, mem_differing_iff,
    mem_metadataFindings_iff (h := h), or_assoc, or_assoc]
  refine or_congr_right (or_congr_right ?_)
  constructor
  · rintro (⟨v, w, hvw, rfl⟩ | ⟨q, v, w, rfl | rfl | rfl, hvw, rfl⟩)
    · exact ⟨.selinux, v, w, hvw, rfl⟩
    · exact ⟨.mode, v, w, hvw, rfl⟩
    · exact ⟨.uid, v, w, hvw, rfl⟩
    · exact ⟨.gid, v, w, hvw, rfl⟩
  · rintro ⟨q, v, w, hvw, rfl⟩
    cases q with
    | selinux => exact .inl ⟨v, w, hvw, rfl⟩
    | mode => exact .inr ⟨.mode, v, w, by simp, hvw, rfl⟩
    | uid => exact .inr ⟨.uid, v, w, by simp, hvw, rfl⟩
    | gid => exact .inr ⟨.gid, v, w, by simp, hvw, rfl⟩
    | symlink => cases hvw
    | content => cases hvw

/-! ### All findings -/

/-- A comparison is that of the roots and then that of the levels below them. -/
theorem compare_eq_append : s.compare u h a b =
    (Walk.roots u a b).findings s ++ (Walk.level u h s.levels a b "/").findings s := by
  rw [compare, Walk.trees, Walk.bind_eq, Walk.findings_andThen]

theorem mem_compare_iff : f ∈ s.compare u h a b ↔ f ∈ (Walk.roots u a b).findings s ∨
    f ∈ (Walk.level u h s.levels a b "/").findings s := by
  rw [compare_eq_append, List.mem_append]

theorem eq_of_mem_rootLabelNotes (hf : f ∈ s.rootLabelNotes u d) :
    f = .unreadableLabel "/" denied := by
  rw [rootLabelNotes] at hf
  split at hf
  · cases hf
  · exact List.mem_singleton.1 hf

theorem eq_of_mem_roots (hf : f ∈ (Walk.roots u a b).findings s) :
    f = .unreadableLabel "/" denied ∨ ∃ q v w, f = .differs "/" q v w := by
  rcases (mem_roots_iff (h := .sha256)).1 hf with hf | hf | ⟨q, v, w, -, rfl⟩
  · exact .inl (eq_of_mem_rootLabelNotes hf)
  · exact .inl (eq_of_mem_rootLabelNotes hf)
  · exact .inr ⟨q, v, w, rfl⟩

/-- Of the roots only unreadable labels and differences are noted down. -/
theorem mem_compare_iff_mem_level (hlabel : f ≠ .unreadableLabel "/" denied)
    (hdiffers : ∀ q v w, f ≠ .differs "/" q v w) :
    f ∈ s.compare u h a b ↔ f ∈ (Walk.level u h s.levels a b "/").findings s := by
  rw [mem_compare_iff]
  refine or_iff_right ?_
  intro hf
  rcases eq_of_mem_roots hf with heq | ⟨q, v, w, heq⟩
  · exact hlabel heq
  · exact hdiffers q v w heq

theorem only_mem_compare_iff : .only side p ∈ s.compare u h a b ↔
    .only side p ∈ (Walk.level u h s.levels a b "/").findings s :=
  mem_compare_iff_mem_level (by simp) (by simp)

theorem skipped_mem_compare_iff : .skipped p operation fault ∈ s.compare u h a b ↔
    .skipped p operation fault ∈ (Walk.level u h s.levels a b "/").findings s :=
  mem_compare_iff_mem_level (by simp) (by simp)

theorem differs_mem_compare_iff_mem_level (hp : p ≠ "/") : .differs p q v w ∈ s.compare u h a b ↔
    .differs p q v w ∈ (Walk.level u h s.levels a b "/").findings s :=
  mem_compare_iff_mem_level (by simp) fun _ _ _ heq => hp (Finding.differs.inj heq).1

/-- A difference is one of the roots, or it is one of two compared entries below them. -/
theorem differs_mem_compare (hf : .differs p q v w ∈ s.compare u h a b) :
    p = "/" ∧ s.rootContrast u h a b q = some (v, w) ∨
      ∃ ns x y, ns ≠ [] ∧ p = logicalPath ns ∧ s.ComparedAt a b ns x y ∧
        s.contrast h x y q = some (v, w) := by
  rcases mem_compare_iff.1 hf with hf | hf
  · rcases (mem_roots_iff (h := h)).1 hf with hf | hf | ⟨q, v, w, hq, heq⟩
    · cases eq_of_mem_rootLabelNotes hf
    · cases eq_of_mem_rootLabelNotes hf
    · obtain ⟨rfl, rfl, rfl, rfl⟩ := Finding.differs.inj heq
      exact .inl ⟨rfl, hq⟩
  · obtain ⟨ns, hpath, hroot, x, y, hxy, hq⟩ := justified_of_mem_level hf
    exact .inr ⟨ns, x, y, fun hnil => absurd (hroot hnil) nofun, hpath, hxy, hq⟩

/-- Labels are found to differ only by a user who may read labels. -/
theorem readsLabels_of_differs (hf : .differs p .selinux v w ∈ s.compare u h a b) :
    s.readsLabels u = true := by
  rcases mem_compare_iff.1 hf with hf | hf
  · rcases (mem_roots_iff (h := h)).1 hf with hf | hf | ⟨q, v, w, hq, heq⟩
    · cases eq_of_mem_rootLabelNotes hf
    · cases eq_of_mem_rootLabelNotes hf
    · obtain ⟨rfl, rfl, rfl, rfl⟩ := Finding.differs.inj heq
      exact readsLabels_of_rootContrast hq
  · exact readsLabels_of_mem_level hf

theorem ComparedAt.unique {ns : List Name} {x y x' y' : Entry} (hxy : s.ComparedAt a b ns x y)
    (hxy' : s.ComparedAt a b ns x' y') : x = x' ∧ y = y' :=
  ⟨Option.some.inj (hxy.1.symm.trans hxy'.1), Option.some.inj (hxy.2.1.symm.trans hxy'.2.1)⟩

/-- No attribute of a path is found to differ in two ways. -/
theorem differs_unique (hf : .differs p q v w ∈ s.compare u h a b)
    (hf' : .differs p q v' w' ∈ s.compare u h a b) : v = v' ∧ w = w' := by
  have hpair : some (v, w) = some (v', w') := by
    rcases differs_mem_compare hf with ⟨hp, hq⟩ | ⟨ns, x, y, hne, hp, hxy, hq⟩ <;>
      rcases differs_mem_compare hf' with ⟨hp', hq'⟩ | ⟨ns', x', y', hne', hp', hxy', hq'⟩
    · exact hq.symm.trans hq'
    · exact absurd (hp'.symm.trans hp) (logicalPath_ne_root hne')
    · exact absurd (hp.symm.trans hp') (logicalPath_ne_root hne)
    · obtain rfl := logicalPath_injective (hp.symm.trans hp')
      obtain ⟨rfl, rfl⟩ := hxy.unique hxy'
      exact hq.symm.trans hq'
  exact Prod.mk.inj (Option.some.inj hpair)

/-! ### Finite trees -/

/-- A comparison of finite trees says something of each place below their roots. -/
theorem covered_of_compare {ns : List Name} (ha : s.IsFinite a) (hb : s.IsFinite b) (hne : ns ≠ [])
    (hz : (s.entryAt (.directory a) ns).isSome = true ∨
      (s.entryAt (.directory b) ns).isSome = true) :
    s.Covered u h a b "/" ns (s.compare u h a b) := by
  have hlen : ns.length ≤ s.levels := by
    rcases hz with hz | hz <;> obtain ⟨z, hz⟩ := Option.isSome_iff_exists.1 hz
    · exact Nat.le_of_lt (length_lt_levels ha hz)
    · exact Nat.le_of_lt (length_lt_levels hb hz)
  exact (covered_of_level hne hlen hz).mono fun f hf => mem_compare_iff.2 (.inr hf)

/-! ### Refusals -/

/-- Whether nothing was refused during a comparison: no operation was skipped, and no label could
not be read. -/
structure Unrefused (s : Store) (u : User) (h : HashAlgorithm) (a b : DirectoryId) : Prop where
  operations : ∀ p operation fault, .skipped p operation fault ∉ s.compare u h a b
  labels : ∀ p fault, .unreadableLabel p fault ∉ s.compare u h a b

/-- Where no operation is skipped, both roots are listed. -/
theorem listable_of_not_skipped
    (hrun : ∀ p operation fault, .skipped p operation fault ∉ s.compare u h a b) :
    s.listable u a = true ∧ s.listable u b = true := by
  have ha : s.listable u a = true := by
    cases ha : s.listable u a with
    | true => rfl
    | false =>
      exact absurd (skipped_mem_compare_iff.2 (mem_level_iff.2 (.unlisted ha))) (hrun _ _ _)
  refine ⟨ha, ?_⟩
  cases hb : s.listable u b with
  | true => rfl
  | false =>
    exact absurd (skipped_mem_compare_iff.2 (mem_level_iff.2 (.unswept ha hb))) (hrun _ _ _)

/-- Where no label could not be read, those of the roots were. -/
theorem Unrefused.readsLabels (hrun : s.Unrefused u h a b) : s.readsLabels u = true := by
  cases hl : s.readsLabels u with
  | true => rfl
  | false =>
    have hf : .unreadableLabel "/" denied ∈ s.rootLabelNotes u a := by simp [rootLabelNotes, hl]
    exact absurd (mem_compare_iff.2 (.inl ((mem_roots_iff (h := h)).2 (.inl hf))))
      (hrun.labels _ _)

theorem comparedAt_nil : s.ComparedAt a b [] (.directory a) (.directory b) :=
  ⟨entryAt_nil, entryAt_nil, paired_nil⟩

theorem rootContrast_of_not_skipped
    (hrun : ∀ p operation fault, .skipped p operation fault ∉ s.compare u h a b)
    (hlabel : q = .selinux → s.readsLabels u = true) :
    s.rootContrast u h a b q = s.contrast h (.directory a) (.directory b) q := by
  obtain ⟨ha, hb⟩ := listable_of_not_skipped hrun
  exact rootContrast_of_searchable hlabel (searchable_of_listable ha) (searchable_of_listable hb)

/-! ### Stillness -/

/-- A walk in a world without pending changes is a walk at rest. -/
theorem run_of_still {α : Type} {w : World} (hw : w.pending = []) (walk : Walk α) :
    w.run walk = .ok (walk.value w.store, walk.findings w.store, w) := by
  have hreact : ∀ f, w.react f = .ok w := by
    intro f
    obtain ⟨store, pending, writer, base⟩ := w
    subst hw
    rfl
  induction walk with
  | done x => rfl
  | note f next ih =>
    rw [World.run, hreact]
    exact congrArg (fun r => r >>= fun p => Except.ok (p.1, f :: p.2.1, p.2.2)) ih
  | look next ih => exact ih w.store

/-- In a world without pending changes the live comparison is the one at rest. -/
theorem compare_of_still {w : World} (hw : w.pending = []) :
    w.compare u h a b = .ok (w.store.compare u h a b) := by
  have hlevels : w.levels = w.store.levels := by
    rw [World.levels, hw, levels]
    simp
  rw [World.compare, run_of_still hw, hlevels]
  rfl

/-! ### The report -/

variable {o : Options}

theorem paths_diff {side : Side} : (s.diff u o a b ∅).paths side =
    (s.compare u o.hashAlgorithm a b).filterMap (Finding.only? side) := by
  rw [diff_eq_noteAll, Report.paths_noteAll_empty]

theorem mem_paths_diff (side : Side) : p ∈ (s.diff u o a b ∅).paths side ↔
    .only side p ∈ s.compare u o.hashAlgorithm a b := by
  rw [diff_eq_noteAll, Report.mem_paths_noteAll]

theorem difference?_diff : (s.diff u o a b ∅).difference? p q = some (v, w) ↔
    .differs p q v w ∈ s.compare u o.hashAlgorithm a b := by
  rw [diff_eq_noteAll]
  exact Report.difference?_noteAll fun _ _ _ _ _ _ => differs_unique

theorem isMeaningful_diff : (s.diff u o a b ∅).IsMeaningful := by
  rw [diff_eq_noteAll]
  exact Report.isMeaningful_noteAll

/-- A report is empty if nothing was found on one side only and no difference was found, whatever
was skipped. -/
theorem isEmpty_diff_iff : (s.diff u o a b ∅).isEmpty = true ↔
    (∀ side p, .only side p ∉ s.compare u o.hashAlgorithm a b) ∧
      ∀ p q v w, .differs p q v w ∉ s.compare u o.hashAlgorithm a b := by
  constructor
  · intro hempty
    constructor
    · intro side p hf
      have hp := (mem_paths_diff side).2 hf
      rw [Report.paths_of_isEmpty hempty] at hp
      cases hp
    · intro p q v w hf
      have hq := difference?_diff.2 hf
      rw [Report.difference?_of_isEmpty hempty] at hq
      cases hq
  · rintro ⟨honly, hdiffers⟩
    have hpaths : ∀ side, (s.diff u o a b ∅).paths side = [] := fun side =>
      List.eq_nil_iff_forall_not_mem.2 fun p hp => honly side p ((mem_paths_diff side).1 hp)
    have hkeys : (s.diff u o a b ∅).differences.keys = [] := by
      refine List.eq_nil_iff_forall_not_mem.2 fun p hp => ?_
      obtain ⟨q, ⟨v, w⟩, hq⟩ := (Report.mem_keys_differences_iff isMeaningful_diff).1 hp
      exact hdiffers p q v w (difference?_diff.1 hq)
    have hadded : (s.diff u o a b ∅).added = [] := hpaths .added
    have hdeleted : (s.diff u o a b ∅).deleted = [] := hpaths .deleted
    rw [Report.isEmpty, hadded, hdeleted, SortedMap.isEmpty, List.map_eq_nil_iff.1 hkeys]
    rfl

theorem errors_diff : (s.diff u o a b ∅).errors =
    if o.strict then (s.compare u o.hashAlgorithm a b).filterMap Finding.skip? else [] := by
  rw [diff_eq_noteAll, Report.errors_noteAll]; rfl

theorem filterMap_compare {α : Type} {g : Finding → Option α}
    (hlabel : g (.unreadableLabel "/" denied) = none)
    (hdiffers : ∀ q v w, g (.differs "/" q v w) = none) :
    (s.compare u h a b).filterMap g =
      ((Walk.level u h s.levels a b "/").findings s).filterMap g := by
  have hroots : ((Walk.roots u a b).findings s).filterMap g = [] := by
    refine List.filterMap_eq_nil_iff.2 fun f hf => ?_
    rcases eq_of_mem_roots hf with rfl | ⟨q, v, w, rfl⟩
    · exact hlabel
    · exact hdiffers q v w
  rw [compare_eq_append, List.filterMap_append, hroots, List.nil_append]

/-- Where no operation is skipped, no error is recorded. -/
theorem errors_diff_eq_nil
    (hrun : ∀ p operation fault, .skipped p operation fault ∉ s.compare u o.hashAlgorithm a b) :
    (s.diff u o a b ∅).errors = [] := by
  rw [errors_diff]
  split
  · refine List.filterMap_eq_nil_iff.2 fun f hf => ?_
    cases f with
    | skipped p operation fault => exact absurd hf (hrun p operation fault)
    | _ => rfl
  · rfl

/-- A strict report has an error for each refusal. -/
theorem exists_error_of_skipped (ho : o.strict = true)
    (hf : .skipped p operation fault ∈ s.compare u o.hashAlgorithm a b) :
    ∃ e ∈ (s.diff u o a b ∅).errors, e.path = p := by
  rw [errors_diff, if_pos ho]
  exact ⟨_, List.mem_filterMap.2 ⟨_, hf, rfl⟩, rfl⟩

/-- Each error is the record of a refusal. -/
theorem exists_skipped_of_mem_errors {e : Skip} (he : e ∈ (s.diff u o a b ∅).errors) :
    ∃ operation fault, .skipped e.path operation fault ∈ s.compare u o.hashAlgorithm a b := by
  rw [errors_diff] at he
  split at he
  · obtain ⟨f, hf, hskip⟩ := List.mem_filterMap.1 he
    cases f <;> simp only [Finding.skip?, reduceCtorEq, Option.some.injEq] at hskip
    subst hskip
    exact ⟨_, _, hf⟩
  · cases he

/-- In a comparison whose strict report has no errors no operation was skipped. -/
theorem not_skipped_of_errors_diff (ho : o.strict = true)
    (herrors : (s.diff u o a b ∅).errors = []) (p : String) (operation : Operation)
    (fault : Fault) : .skipped p operation fault ∉ s.compare u o.hashAlgorithm a b := by
  intro hf
  obtain ⟨e, he, -⟩ := exists_error_of_skipped ho hf
  rw [herrors] at he
  cases he

/-- What can be read only off some findings is read off these alone. -/
theorem filterMap_eq_filterMap_filter {α : Type} {g : Finding → Option α} {keep : Finding → Bool}
    {fs : List Finding} (hg : ∀ f, keep f = false → g f = none) :
    fs.filterMap g = (fs.filter keep).filterMap g := by
  rw [List.filterMap_filter]
  refine List.filterMap_congr fun f _ => ?_
  cases hf : keep f with
  | true => simp
  | false => simpa using hg f hf

/-- What is read off findings of a kind that comes only once is not read off twice. -/
theorem nodup_filterMap_compare {α : Type} {g : Finding → Option α}
    (hlabel : ∀ f, f.isSingle = false → g f = none)
    (hdiffers : ∀ q v w, g (.differs "/" q v w) = none)
    (hg : ∀ f f' x, f ∈ (Walk.level u h s.levels a b "/").findings s →
      f' ∈ (Walk.level u h s.levels a b "/").findings s → g f = some x → g f' = some x → f = f') :
    ((s.compare u h a b).filterMap g).Nodup := by
  rw [filterMap_compare (hlabel _ rfl) hdiffers, filterMap_eq_filterMap_filter hlabel, List.Nodup,
    List.pairwise_filterMap]
  refine (nodup_level (m := [])).imp_of_mem ?_
  intro f f' hmem hmem' hne x hx x' hx' heq
  subst heq
  exact hne (hg f f' x (List.mem_of_mem_filter hmem) (List.mem_of_mem_filter hmem') hx hx')

/-- No path is recorded twice for one side. -/
theorem nodup_paths_diff (side : Side) : ((s.diff u o a b ∅).paths side).Nodup := by
  rw [paths_diff]
  refine nodup_filterMap_compare ?_ (fun _ _ _ => rfl) ?_
  · intro f hf
    cases f <;> first | rfl | cases hf
  · intro f f' p _ _ hf hf'
    rw [Finding.only?_eq_some_iff] at hf hf'
    rw [hf, hf']

/-- No refusal is recorded twice. -/
theorem nodup_errors_diff : (s.diff u o a b ∅).errors.Nodup := by
  rw [errors_diff]
  split
  · refine nodup_filterMap_compare ?_ (fun _ _ _ => rfl) ?_
    · intro f hf
      cases f <;> first | rfl | cases hf
    · intro f f' e hmem hmem' he he'
      cases f <;> simp only [Finding.skip?, reduceCtorEq, Option.some.injEq] at he
      cases f' <;> simp only [Finding.skip?, reduceCtorEq, Option.some.injEq] at he'
      obtain rfl := fault_eq_denied hmem
      obtain rfl := fault_eq_denied hmem'
      subst he
      obtain ⟨rfl, rfl, -⟩ := Skip.mk.inj he'
      rfl
  · exact List.nodup_nil

end Store

end TreeComparison

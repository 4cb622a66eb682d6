import TreeComparison.Proofs.Confinement
import TreeComparison.Proofs.Rebasing
import TreeComparison.Proofs.Swap

/-!
Runs on subtrees. A comparison goes on in two directories of one path as it would on its own, so of
what is strictly below them it reports what a run on the two directories reports, with the paths
rebased. What stands at their own path is not theirs alone: their parents report on it too.
-/

namespace TreeComparison

/-! ### Parts of a report -/

/-- What a report says of the paths that are kept. -/
def Report.part (keep : String → Bool) (r : Report) : Report where
  added := r.added.filter keep
  deleted := r.deleted.filter keep
  differences := r.differences.part keep
  errors := r.errors.filter fun e => keep e.path

namespace Report

variable {r : Report} {f : Finding} {fs : List Finding} {strict : Bool} {keep : String → Bool}

theorem part_recordDifference {path : String} {property : Property} {v w : PropertyValue} :
    (r.recordDifference path property v w).part keep = if keep path then
      (r.part keep).recordDifference path property v w else r.part keep := by
  have hproperties : keep path = true → (r.part keep).properties? path = r.properties? path :=
    fun hkeep => SortedMap.get?_part.trans (if_pos hkeep)
  rw [part, recordDifference, SortedMap.part_insert]
  split
  · rename_i hkeep
    rw [recordDifference, hproperties hkeep]
    rfl
  · rfl

theorem part_note : (r.note strict f).part keep
    = if keep f.path then (r.part keep).note strict f else r.part keep := by
  cases f with
  | differs path property v w => exact part_recordDifference
  | only side path =>
    cases side <;> cases hkeep : keep path <;>
      simp [note, recordDeleted, recordAdded, part, hkeep, Finding.path]
  | skipped path operation fault =>
    cases strict <;> cases hkeep : keep path <;>
      simp [note, recordSkipped, part, hkeep, Finding.path]
  | _ => simp [note]

/-- The part of a report is made of the findings with paths that are kept. -/
theorem part_noteAll : (r.noteAll strict fs).part keep
    = (r.part keep).noteAll strict (fs.filter fun f => keep f.path) := by
  induction fs using List.reverseRecOn with
  | nil => rfl
  | append_singleton fs f ih =>
    rw [noteAll_append_singleton, part_note, ih, List.filter_append]
    cases hf : keep f.path
    · simp [hf]
    · simp [hf, noteAll_append_singleton]

end Report

/-! ### Going down -/

/-- The only entry of a list that gives something gives all. -/
theorem flatMap_eq_of_mem {α β : Type} {f : α → List β} {l : List α} {x : α} (hnodup : l.Nodup)
    (hx : x ∈ l) (hrest : ∀ y ∈ l, y ≠ x → f y = []) : l.flatMap f = f x := by
  obtain ⟨before, after, rfl⟩ := List.append_of_mem hx
  obtain ⟨-, hnodup, hdisjoint⟩ := List.nodup_append.1 hnodup
  have hbefore : before.flatMap f = [] := List.flatMap_eq_nil_iff.2 fun y hy =>
    hrest y (List.mem_append_left _ hy) (hdisjoint y hy x List.mem_cons_self)
  have hafter : after.flatMap f = [] := by
    refine List.flatMap_eq_nil_iff.2 fun y hy => ?_
    refine hrest y (List.mem_append_right _ (List.mem_cons_of_mem _ hy)) ?_
    rintro rfl
    exact (List.nodup_cons.1 hnodup).1 hy
  rw [List.flatMap_append, List.flatMap_cons, hbefore, hafter, List.nil_append, List.append_nil]

/-- Whether a finding is strictly below a path. -/
def Finding.isBelow (path : String) (f : Finding) : Bool := IsBelow path f.path

namespace Store

variable {s : Store} {u : User} {h : HashAlgorithm} {o : Options} {k j : Nat}
  {a b c d : DirectoryId} {m ms ns : List Name} {n : Name} {f : Finding}

/-- Whether a comparison of two directories goes on, by the given names, in two further ones: each
pair on the way is of one mode, can be opened on both sides, and is met in a directory that can be
listed. -/
inductive Enters (s : Store) (u : User) :
    DirectoryId → DirectoryId → List Name → DirectoryId → DirectoryId → Prop where
  | here (a b : DirectoryId) : Enters s u a b [] a b
  | inside {a b c d c' d' : DirectoryId} {n : Name} {ms : List Name}
      (ha : s.listable u a = true)
      (hc : s.openDirectory u a n.bytes = .ok c) (hd : s.openDirectory u b n.bytes = .ok d)
      (hmode : s.modeOf (.directory c) = s.modeOf (.directory d))
      (hms : Enters s u c d ms c' d') : Enters s u a b (n :: ms) c' d'

/-- Nothing is below two entries of one directory. -/
theorem not_isBelow_of_reaches {n' : Name} {p : String} (hne : n' ≠ n)
    (hp : Reaches (logicalPath (m ++ [n'])) p) : ¬ IsBelow (logicalPath (m ++ n :: ms)) p := by
  obtain ⟨ns, rfl⟩ := hp
  rw [← logicalPath_append]
  intro hbelow
  obtain ⟨k, r, heq⟩ := (isBelow_logicalPath_iff (by simp)).1 hbelow
  simp only [List.append_assoc, List.append_cancel_left_eq, List.cons_append,
    List.nil_append] at heq
  exact hne (List.cons.inj heq).1

section Pair

variable (hx : s.child a n = some (.directory c)) (hy : s.child b n = some (.directory d))

include hx in
/-- The sweep finds nothing below an entry that A has. -/
theorem filter_sweepNotes : (s.sweepNotes u k a b (logicalPath m)).filter
    (Finding.isBelow (logicalPath (m ++ n :: ms))) = [] := by
  refine List.filter_eq_nil_iff.2 fun f hf hbelow => ?_
  have hbelow := of_decide_eq_true hbelow
  rcases reaches_of_mem_sweepNotes hf with rfl | ⟨n', hnone, hreach⟩
  · exact not_isBelow_of_length_le (by simp) (by simp) hbelow
  · by_cases hn : n' = n
    · rw [hn, hx] at hnone
      cases hnone
    · exact not_isBelow_of_reaches hn hreach hbelow

include hx in
/-- The primary pass finds nothing below an entry while it is at another one. -/
theorem filter_visitNotes_of_ne {e : Name × Entry} (he : e ∈ s.entries a)
    (hne : e ≠ (n, .directory c)) :
    (s.visitNotes u h k b e.1 e.2 (logicalPath (m ++ [e.1]))).filter
      (Finding.isBelow (logicalPath (m ++ n :: ms))) = [] := by
  have hname : e.1 ≠ n := by
    intro hn
    have hchild := child_of_mem_entries he
    rw [hn, hx] at hchild
    exact hne (Prod.ext hn (Option.some.inj hchild).symm)
  refine List.filter_eq_nil_iff.2 fun f hf hbelow => ?_
  exact not_isBelow_of_reaches hname (reaches_of_mem_visitNotes hf) (of_decide_eq_true hbelow)

include hy in
/-- Strictly below two directories that are compared, the primary pass finds what a comparison of
the two finds. -/
theorem filter_visitNotes (hb : s.searchable u b = true) (hc : s.readable u c = true)
    (hd : s.readable u d = true) (hmode : s.modeOf (.directory c) = s.modeOf (.directory d)) :
    (s.visitNotes u h k b n (.directory c) (logicalPath (m ++ [n]))).filter
        (Finding.isBelow (logicalPath (m ++ n :: ms)))
      = ((Walk.level u h k c d (logicalPath (m ++ [n]))).findings s).filter
        (Finding.isBelow (logicalPath (m ++ n :: ms))) := by
  have hself : ∀ {f : Finding}, f.path = logicalPath (m ++ [n]) →
      ¬ f.isBelow (logicalPath (m ++ n :: ms)) = true := by
    intro f hf hbelow
    rw [Finding.isBelow, hf] at hbelow
    exact not_isBelow_of_length_le (by simp) (by simp) (of_decide_eq_true hbelow)
  have hlabel : (s.labelNotes u (.directory c) (.directory d) (logicalPath (m ++ [n]))).filter
      (Finding.isBelow (logicalPath (m ++ n :: ms))) = [] := by
    refine List.filter_eq_nil_iff.2 fun f hf => hself ?_
    obtain ⟨-, v, w, -, rfl⟩ | ⟨-, rfl⟩ := (mem_labelNotes_iff (h := h)).1 hf <;> rfl
  have hmeta : (metadataFindings (s.snapshot (.directory c)) (s.snapshot (.directory d))
      (logicalPath (m ++ [n]))).filter
      (Finding.isBelow (logicalPath (m ++ n :: ms))) = [] := by
    refine List.filter_eq_nil_iff.2 fun f hf => hself ?_
    obtain ⟨q, v, w, -, -, rfl⟩ := (mem_metadataFindings_iff (h := h)).1 hf
    rfl
  have hvisit : s.visitNotes u h k b n (.directory c) (logicalPath (m ++ [n]))
      = .visiting (logicalPath (m ++ [n])) ::
        s.pairNotes u h k (.directory c) (.directory d) (logicalPath (m ++ [n])) := by
    rw [visitNotes, if_pos hb, hy]
  rw [hvisit, List.filter_cons_of_neg (hself rfl), pairNotes, if_pos hmode,
    bodyNotes, if_pos (Bool.and_eq_true_iff.2 ⟨hc, hd⟩), List.filter_append, List.filter_append,
    hlabel, hmeta, List.nil_append, List.nil_append]

end Pair

/-- What is found strictly below two entries that are compared is what is found below the two
directories that they are. -/
theorem filter_level_of_pair (ha : s.listable u a = true)
    (hc : s.openDirectory u a n.bytes = .ok c) (hd : s.openDirectory u b n.bytes = .ok d)
    (hmode : s.modeOf (.directory c) = s.modeOf (.directory d)) (ms : List Name) :
    ((Walk.level u h (k + 1) a b (logicalPath m)).findings s).filter
        (Finding.isBelow (logicalPath (m ++ n :: ms)))
      = ((Walk.level u h k c d (logicalPath (m ++ [n]))).findings s).filter
        (Finding.isBelow (logicalPath (m ++ n :: ms))) := by
  obtain ⟨-, hx, hreadA⟩ := child_of_openDirectory hc
  obtain ⟨hb, hy, hreadB⟩ := child_of_openDirectory hd
  rw [findings_level_of_listable ha, List.filter_append, filter_sweepNotes hx, List.append_nil,
    List.filter_flatMap]
  simp only [joinPath_logicalPath]
  rw [flatMap_eq_of_mem (s.nodup_entries a).of_map (mem_entries_of_child hx)
    fun e he hne => filter_visitNotes_of_ne hx he hne]
  exact filter_visitNotes hy hb hreadA hreadB hmode

theorem filter_level_of_enters (hms : s.Enters u a b ms c d) (ha : s.IsWithin (.directory a) k)
    (hb : s.IsWithin (.directory b) k) (hc : s.IsWithin (.directory c) j)
    (hd : s.IsWithin (.directory d) j) (m : List Name) :
    ((Walk.level u h k a b (logicalPath m)).findings s).filter
        (Finding.isBelow (logicalPath (m ++ ms)))
      = ((Walk.level u h j c d (logicalPath (m ++ ms))).findings s).filter
        (Finding.isBelow (logicalPath (m ++ ms))) := by
  induction hms generalizing k m with
  | here a b =>
    have hlevel : (Walk.level u h k a b (logicalPath m)).findings s
        = (Walk.level u h j a b (logicalPath m)).findings s :=
      Corresponds.level_of_readsLabels_eq rfl ⟨sameTree_refl _, .inr ⟨ha, hc⟩⟩
        ⟨sameTree_refl _, .inr ⟨hb, hd⟩⟩
    rw [List.append_nil, hlevel]
  | @inside a b c d c' d' n ms hlist hopen hopen' hmode hms ih =>
    cases k with
    | zero => exact absurd ha not_isWithin_zero
    | succ k =>
      have hx := (child_of_openDirectory hopen).2.1
      have hy := (child_of_openDirectory hopen').2.1
      have hrest := ih (ha.child hx) (hb.child hy) hc hd (m ++ [n])
      rw [List.append_assoc, List.singleton_append] at hrest
      rw [filter_level_of_pair hlist hopen hopen' hmode, hrest]

theorem IsFinite.of_enters (hms : s.Enters u a b ms c d) (ha : s.IsFinite a) (hb : s.IsFinite b) :
    s.IsFinite c ∧ s.IsFinite d := by
  induction hms with
  | here a b => exact ⟨ha, hb⟩
  | @inside a b c d c' d' n ms hlist hopen hopen' hmode hms ih =>
    exact ih (ha.inv ⟨n, (child_of_openDirectory hopen).2.1⟩)
      (hb.inv ⟨n, (child_of_openDirectory hopen').2.1⟩)

/-! ### Runs on their own -/

/-- The report of comparing what is below two directories of the given path. -/
def diffLevel (s : Store) (u : User) (o : Options) (a b : DirectoryId) (path : String) : Report :=
  ((Recorder.level u o s.levels a b path).atRest s ∅).2

theorem diffLevel_eq_noteAll {path : String} : s.diffLevel u o a b path =
    (∅ : Report).noteAll o.strict
      ((Walk.level u o.hashAlgorithm s.levels a b path).findings s) := by
  rw [diffLevel, ← Walk.recorded_level, Walk.atRest_recorded]

theorem isRooted_of_mem_level (hf : f ∈ (Walk.level u h k a b "/").findings s) :
    IsRooted f.path := by
  obtain ⟨ns, hns, -⟩ := justified_of_mem_level hf
  rw [show f.path = logicalPath ns from hns]
  exact isRooted_logicalPath ns

theorem isRooted_of_mem_subtree (hf : f ∈ (Walk.subtree u k d "/").findings s) :
    IsRooted f.path := by
  rcases mem_notesUnder_or_of_mem_subtree hf with hf | rfl
  · obtain ⟨ns, hns⟩ := reaches_of_mem_notesUnder hf
    rw [show f.path = logicalPath ns from hns]
    exact isRooted_logicalPath ns
  · exact isRooted_logicalPath []

theorem isRebased_diffLevel {base : String} (hbase : base.toList.getLast? ≠ some '/') :
    (s.diffLevel u o a b "/").IsRebased base (s.diffLevel u o a b base) := by
  have hlevel : (Walk.level u o.hashAlgorithm s.levels a b base).findings s = _ :=
    level_rebase hbase a b []
  rw [diffLevel_eq_noteAll, diffLevel_eq_noteAll, hlevel]
  exact Report.isRebased_noteAll fun f hf => isRooted_of_mem_level hf

theorem isRebased_listSubtree {base : String} (hbase : base.toList.getLast? ≠ some '/') :
    (s.listSubtree u o d base ∅).1 = (s.listSubtree u o d "/" ∅).1.map (rebase base) ∧
      (s.listSubtree u o d "/" ∅).2.IsRebased base (s.listSubtree u o d base ∅).2 := by
  have hvalue : (Walk.subtree u s.levels d base).value s = _ := value_subtree_rebase (m := []) hbase
  have hnotes : (Walk.subtree u s.levels d base).findings s = _ :=
    findings_subtree_rebase hbase d []
  rw [listSubtree_eq_noteAll, listSubtree_eq_noteAll, hvalue, hnotes]
  exact ⟨rfl, Report.isRebased_noteAll fun f hf => isRooted_of_mem_subtree hf⟩

/-- What a whole run finds strictly below two directories that are compared. -/
theorem filter_compare (hms : s.Enters u a b ms c d) (hne : ms ≠ []) (ha : s.IsFinite a)
    (hb : s.IsFinite b) : (s.compare u h a b).filter (Finding.isBelow (logicalPath ms))
      = (((Walk.level u h s.levels c d "/").findings s).filter fun f => f.path ≠ "/").map
        (Finding.rebase (logicalPath ms)) := by
  obtain ⟨hc, hd⟩ := IsFinite.of_enters hms ha hb
  have hroots : ((Walk.roots u a b).findings s).filter (Finding.isBelow (logicalPath ms)) = [] := by
    refine List.filter_eq_nil_iff.2 fun f hf hbelow => ?_
    rw [Finding.isBelow, path_eq_of_mem_roots hf] at hbelow
    exact not_isBelow_of_length_le (Nat.zero_le _) hne (of_decide_eq_true hbelow)
  have hlevel : ((Walk.level u h s.levels a b "/").findings s).filter _ = _ :=
    filter_level_of_enters hms (isWithin_levels ha) (isWithin_levels hb) (isWithin_levels hc)
      (isWithin_levels hd) []
  have hrebase : (Walk.level u h s.levels c d (logicalPath ms)).findings s = _ :=
    level_rebase (getLast?_logicalPath hne) c d []
  rw [compare_eq_append, List.filter_append, hroots, List.nil_append]
  refine hlevel.trans ?_
  rw [List.nil_append, hrebase, List.filter_map]
  refine congrArg _ (List.filter_congr fun f hf => ?_)
  obtain ⟨ns, hns, -⟩ := justified_of_mem_level hf
  have hpath : f.path = logicalPath ns := hns
  rw [Function.comp_apply, Finding.isBelow, Finding.path_rebase, hpath,
    rebase_logicalPath (getLast?_logicalPath hne), ← logicalPath_append]
  exact decide_eq_decide.2 (isBelow_append_iff hne)

theorem isRebased_part_diff (hms : s.Enters u a b ms c d) (hne : ms ≠ []) (ha : s.IsFinite a)
    (hb : s.IsFinite b) :
    ((s.diffLevel u o c d "/").part fun p => p ≠ "/").IsRebased (logicalPath ms)
      ((s.diff u o a b ∅).part fun p => IsBelow (logicalPath ms) p) := by
  have hempty : ∀ keep, (∅ : Report).part keep = ∅ := fun _ => rfl
  have hfind : (s.compare u o.hashAlgorithm a b).filter
      (fun f => IsBelow (logicalPath ms) f.path) = _ := filter_compare hms hne ha hb
  rw [diff_eq_noteAll, diffLevel_eq_noteAll, Report.part_noteAll, Report.part_noteAll, hempty,
    hempty, hfind]
  exact Report.isRebased_noteAll fun f hf => isRooted_of_mem_level (List.mem_filter.1 hf).1

/-- Subtrees can be compared on their own. A run that starts from a path other than the root makes
the report of one that starts from the root, with all paths rebased, and so does a listing. So the
part of a whole run that is strictly below two directories is the rebased run on the two. -/
theorem subruns_isRebased (s : Store) (u : User) (o : Options) (a b d : DirectoryId)
    (base : String) (hbase : base.toList.getLast? ≠ some '/') :
    (s.diffLevel u o a b "/").IsRebased base (s.diffLevel u o a b base) ∧
    (s.listSubtree u o d base ∅).1 = (s.listSubtree u o d "/" ∅).1.map (rebase base) ∧
    (s.listSubtree u o d "/" ∅).2.IsRebased base (s.listSubtree u o d base ∅).2 ∧
    ∀ ms a' b', ms ≠ [] → s.IsFinite a → s.IsFinite b → s.Enters u a b ms a' b' →
      ((s.diffLevel u o a' b' "/").part fun p => p ≠ "/").IsRebased (logicalPath ms)
        ((s.diff u o a b ∅).part fun p => IsBelow (logicalPath ms) p) :=
  ⟨isRebased_diffLevel hbase, (isRebased_listSubtree hbase).1, (isRebased_listSubtree hbase).2,
    fun _ _ _ hne ha hb hms => isRebased_part_diff hms hne ha hb⟩

/-- The name of the two directories in `nested`. -/
def chapterName : Name := ⟨[0x63], by decide⟩

/-- A file system with two trees, at places 0 and 1. Both have a directory `c` with a link `r`,
which has another target in each; in the first one is also a directory that only its owner may
enter. -/
def nested : Store where
  directories := #[
    ⟨⟨0o755, 0, 0, []⟩, ⟨[(chapterName, .directory 2)], by decide⟩⟩,
    ⟨⟨0o755, 0, 0, []⟩, ⟨[(chapterName, .directory 3)], by decide⟩⟩,
    ⟨⟨0o755, 0, 0, []⟩, ⟨[(⟨[0x72], by decide⟩, .symlink ⟨0o777, 7, 7, []⟩ [0x78]),
      (⟨[0x6D], by decide⟩, .directory 4)], by decide⟩⟩,
    ⟨⟨0o755, 0, 0, []⟩, ⟨[(⟨[0x72], by decide⟩, .symlink ⟨0o777, 7, 7, []⟩ [0x79])], by decide⟩⟩,
    ⟨⟨0o700, 0, 0, []⟩, ∅⟩]

/-- The difference below the two directories, and the refusal there, are those of a run on the
two. -/
theorem subruns_nested_isRebased :
    "/t".toList.getLast? ≠ some '/' ∧ nested.IsFinite 0 ∧ nested.IsFinite 1 ∧
    nested.Enters ⟨9, 9, false⟩ 0 1 [chapterName] 2 3 ∧
    (nested.diffLevel ⟨9, 9, false⟩ ⟨.sha256, true⟩ 0 1 "/").IsRebased "/t"
      (nested.diffLevel ⟨9, 9, false⟩ ⟨.sha256, true⟩ 0 1 "/t") ∧
    ((nested.diffLevel ⟨9, 9, false⟩ ⟨.sha256, true⟩ 2 3 "/").part fun p => p ≠ "/").IsRebased "/c"
      ((nested.diff ⟨9, 9, false⟩ ⟨.sha256, true⟩ 0 1 ∅).part fun p => IsBelow "/c" p) ∧
    (nested.diffLevel ⟨9, 9, false⟩ ⟨.sha256, true⟩ 2 3 "/").difference? "/r" .symlink
      = some (.text "x", .text "y") ∧
    (nested.diffLevel ⟨9, 9, false⟩ ⟨.sha256, true⟩ 2 3 "/").errors
      = [⟨"/m", .openDirectory, denied.message⟩] := by
  have hfinite : ∀ d, nested.IsFinite d := isFinite_of_isAscending rfl
  have henters : nested.Enters ⟨9, 9, false⟩ 0 1 [chapterName] 2 3 :=
    .inside (by decide) rfl rfl rfl (.here 2 3)
  obtain ⟨hlevel, -, -, hpart⟩ := subruns_isRebased nested ⟨9, 9, false⟩ ⟨.sha256, true⟩ 0 1 0 "/t"
    (by decide)
  exact ⟨by decide, hfinite 0, hfinite 1, henters, hlevel,
    hpart [chapterName] 2 3 (by decide) (hfinite 0) (hfinite 1) henters, by decide, by decide⟩

end Store

end TreeComparison

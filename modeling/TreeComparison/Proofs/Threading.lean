import TreeComparison.Walk.Run

/-!
Writing on the way and writing in the end. A walk finds, and does not know what becomes of its
findings; a recorder knows whether it is strict, carries the report along, and writes into it where
the walk only finds. Function by function a recorder is the walk of the same name with each finding
written into the report where it is noted down. So a report that was written on the way is the one
that the findings make when they are written down in the end, at rest as well as live.
-/

namespace TreeComparison

/-- Whether the log is told of a finding. -/
def Finding.isTold (f : Finding) : Bool := (Event.ofFinding? f).isSome

/-- What a recorder does about a finding. -/
def Recorder.write (strict : Bool) (f : Finding) : Recorder Unit := do
  if f.isTold then log f
  modify fun r => r.note strict f

namespace Walk

/-- Nothing is lost or done twice when walks are put together. -/
instance : LawfulMonad Walk := LawfulMonad.mk' Walk
  (fun w => by
    induction w with
    | done x => rfl
    | note f next ih => exact congrArg (Walk.note f) ih
    | look next ih => exact congrArg Walk.look (funext ih))
  (fun _ _ => rfl)
  (fun w _ _ => by
    induction w with
    | done x => rfl
    | note f next ih => exact congrArg (Walk.note f) ih
    | look next ih => exact congrArg Walk.look (funext ih))

/-- A walk with its findings written into a report where they are noted down. -/
def recorded (strict : Bool) : Walk α → Recorder α
  | .done x => pure x
  | .note f next => do
    Recorder.write strict f
    next.recorded strict
  | .look next => do
    let s ← Recorder.look fun s => s
    (next s).recorded strict

variable {α β : Type} {strict : Bool} {w : Walk α} {k : α → Walk β} {f : Finding} {s : Store}
  {r : Report}

@[simp] theorem recorded_done {x : α} : (Walk.done x).recorded strict = pure x := rfl

@[simp] theorem recorded_andThen : (w.andThen k).recorded strict =
    w.recorded strict >>= fun x => (k x).recorded strict := by
  induction w with
  | done x => simp [andThen]
  | note f next ih => simp [andThen, recorded, ih]
  | look next ih => simp [andThen, recorded, ih]

theorem recorded_found : (found f).recorded strict = Recorder.write strict f := by
  simp [found, recorded]

@[simp] theorem recorded_ask {question : Store → α} :
    (ask question).recorded strict = Recorder.look question := by
  simp only [ask, recorded]
  rfl

/-- A finding that is no record of anything is for the log alone. -/
theorem recorded_found_of_told (htold : f.isTold = true)
    (hnote : ∀ r : Report, r.note strict f = r) :
    (found f).recorded strict = Recorder.log f := by
  have hmodify : (modify fun r : Report => r.note strict f : Recorder Unit) = pure () :=
    congrArg _ (funext hnote)
  rw [recorded_found, Recorder.write, hmodify, if_pos htold]
  simp

@[simp] theorem recorded_visiting {path : String} :
    (found (.visiting path)).recorded strict = Recorder.log (.visiting path) :=
  recorded_found_of_told rfl fun _ => rfl

@[simp] theorem recorded_enumerated {path : String} :
    (found (.enumerated path)).recorded strict = Recorder.log (.enumerated path) :=
  recorded_found_of_told rfl fun _ => rfl

@[simp] theorem recorded_unmatched {path : String} {side : Side} :
    (found (.unmatched path side)).recorded strict = Recorder.log (.unmatched path side) :=
  recorded_found_of_told rfl fun _ => rfl

@[simp] theorem recorded_unreadableLabel {path : String} {fault : Fault} :
    (found (.unreadableLabel path fault)).recorded strict =
      Recorder.log (.unreadableLabel path fault) :=
  recorded_found_of_told rfl fun _ => rfl

@[simp] theorem recorded_differs {path : String} {q : Property} {v v' : PropertyValue} :
    (found (.differs path q v v')).recorded strict = Recorder.recordDifference path q v v' :=
  recorded_found

@[simp] theorem recorded_only {side : Side} {path : String} :
    (found (.only side path)).recorded strict = Recorder.recordOnly side path := by
  cases side <;> exact recorded_found

@[simp] theorem recorded_skip {o : Options} {path : String} {operation : Operation}
    {fault : Fault} :
    (skip path operation fault).recorded o.strict = Recorder.skip o path operation fault := by
  rw [skip, recorded_found, Recorder.write, Recorder.skip]
  cases ho : o.strict <;> rfl

theorem recorded_foundAll {fs : List Finding} :
    (foundAll fs).recorded strict = fs.forM fun f => (found f).recorded strict := by
  induction fs with
  | nil => rfl
  | cons f fs ih => simp [foundAll, recorded, ih, recorded_found]

theorem recorded_foundAll_append {fs gs : List Finding} : (foundAll (fs ++ gs)).recorded strict =
    (foundAll fs).recorded strict >>= fun _ => (foundAll gs).recorded strict := by
  simp [recorded_foundAll]

@[simp] theorem recorded_records {side : Side} {paths : List String} :
    (foundAll (paths.map (.only side))).recorded strict =
      paths.forM (Recorder.recordOnly side) := by
  rw [recorded_foundAll]
  simp

@[simp] theorem recorded_differing {path : String} {q : Property} {v v' : PropertyValue} :
    (foundAll (differing path q v v')).recorded strict =
      if v = v' then pure () else Recorder.recordDifference path q v v' := by
  rw [recorded_foundAll, differing]
  split <;> simp

/-! ### Attributes -/

variable {u : User} {o : Options} {a b : DirectoryId} {name : Bytes} {path : String}

theorem recorded_compareMetadata {x y : Snapshot} :
    (compareMetadata x y path).recorded strict = Recorder.compareMetadata x y path := by
  simp only [compareMetadata, metadataFindings, comparability, Recorder.compareMetadata]
  by_cases hmode : x.mode = y.mode
  · by_cases huid : x.uid = y.uid <;> by_cases hgid : x.gid = y.gid <;>
      simp [hmode, huid, hgid, recorded_foundAll_append]
  · simp [hmode, recorded_foundAll]

@[simp] theorem recorded_labelOr {label : Except Fault String} :
    (labelOr path label).recorded strict = Recorder.labelOr path label := by
  cases label <;> simp [labelOr, Recorder.labelOr]

theorem recorded_compareSecurityLabel {name : Option Bytes} :
    (compareSecurityLabel u a b name path).recorded strict =
      Recorder.compareSecurityLabel u a b name path := by
  simp [compareSecurityLabel, compareLabels, readLabel, Recorder.compareSecurityLabel, ite_not]

theorem recorded_compareSymlink : (compareSymlink u a b name path).recorded o.strict =
    Recorder.compareSymlink u o a b name path := by
  simp only [compareSymlink, Recorder.compareSymlink, bind_eq, recorded_andThen, recorded_ask]
  refine bind_congr fun targets => ?_
  cases targets with
  | error r => exact recorded_skip
  | ok targets =>
    by_cases htargets : targets.1 = targets.2 <;> simp [htargets]

theorem recorded_compareContent :
    (compareContent u o.hashAlgorithm a b name path).recorded o.strict =
      Recorder.compareContent u o a b name path := by
  simp only [compareContent, Recorder.compareContent, bind_eq, recorded_andThen, recorded_ask]
  refine bind_congr fun streams => ?_
  cases streams with
  | error r => exact recorded_skip
  | ok streams =>
    cases hhashes : fingerprints o.hashAlgorithm streams.1 streams.2 with
    | error f => simp [hhashes]
    | ok hashes => by_cases hsame : hashes.1 = hashes.2 <;> simp [hhashes, hsame]

/-! ### The listing of a subtree -/

section Subtree

variable {listing : DirectoryId → String → Walk (List String)}
  {collecting : DirectoryId → String → List String → Recorder (List String)} {d : DirectoryId}
  {paths : List String}
  (hinside : ∀ e path paths,
    collecting e path paths = (paths ++ ·) <$> (listing e path).recorded o.strict)
include hinside

/-- The entries of a directory add their paths to those that are known already. -/
theorem foldlM_collectEntry {names : List Name} :
    names.foldlM (Recorder.collectEntry u o collecting d path) paths =
      (paths ++ ·) <$> (pathsOf u listing d path names).recorded o.strict := by
  induction names generalizing paths with
  | nil => simp [pathsOf]
  | cons name rest ih =>
    simp only [List.foldlM_cons, ih, Recorder.collectEntry, pathsOf, bind_eq, pure_eq,
      recorded_andThen, recorded_enumerated, recorded_ask, map_bind, bind_assoc]
    refine bind_congr fun _ => bind_congr fun shown => ?_
    cases shown with
    | error r => simp
    | ok shown =>
      by_cases hdirectory : shown.isDirectory = true
      · simp only [hdirectory, if_true, recorded_andThen, recorded_ask, bind_assoc, map_bind]
        refine bind_congr fun opened => ?_
        cases opened with
        | error r => simp
        | ok e => simp [hinside]
      · simp [hdirectory]

end Subtree

theorem collect_eq {levels : Nat} : ∀ (d : DirectoryId) (path : String) (paths : List String),
    Recorder.collect u o levels d path paths =
      (paths ++ ·) <$> (subtree u levels d path).recorded o.strict := by
  induction levels with
  | zero => simp [Recorder.collect, subtree]
  | succ levels ih =>
    intro d path paths
    simp only [Recorder.collect, subtree, bind_eq, recorded_andThen, recorded_ask, map_bind]
    refine bind_congr fun names => ?_
    cases names with
    | error r => simp
    | ok names => exact foldlM_collectEntry ih

theorem recorded_subtree {levels : Nat} {d : DirectoryId} :
    (subtree u levels d path).recorded o.strict = Recorder.subtree u o levels d path := by
  rw [Recorder.subtree, collect_eq]
  simp

/-! ### Two directories, level by level -/

section Level

variable {levels : Nat} {name : Name} {d : DirectoryId} {side : Side} {x : Snapshot}
  {inside : DirectoryId → DirectoryId → String → Walk Unit}
  {recording : DirectoryId → DirectoryId → String → Recorder Unit} {seen : List Name}

theorem recorded_oneSided : (oneSided u levels side d name path).recorded o.strict =
    Recorder.oneSided u o levels side d name path := by
  simp only [oneSided, Recorder.oneSided, bind_eq, pure_eq, recorded_andThen, recorded_unmatched,
    recorded_ask]
  refine bind_congr fun _ => bind_congr fun shown => ?_
  by_cases hdirectory : shown.toOption.any Snapshot.isDirectory = true
  · simp only [hdirectory, if_true, recorded_andThen, recorded_ask]
    refine bind_congr fun opened => ?_
    cases opened with
    | error r => simp only [recorded_andThen, recorded_skip, recorded_done, recorded_records]
    | ok e => simp only [recorded_andThen, recorded_subtree, recorded_records]
  · simp only [hdirectory, if_false, andThen, recorded_records, pure_bind, Bool.false_eq_true]

theorem recorded_sweepNames {names : List Name} :
    (sweepNames u levels b path seen names).recorded o.strict =
      names.forM (Recorder.sweepName u o levels b path seen) := by
  induction names with
  | nil => rfl
  | cons name rest ih =>
    by_cases hseen : name ∈ seen <;>
      simp [sweepNames, Recorder.sweepName, hseen, ih, recorded_oneSided]

theorem recorded_sweep : (sweep u levels b path seen).recorded o.strict =
    Recorder.sweep u o levels b path seen := by
  simp only [sweep, Recorder.sweep, bind_eq, recorded_andThen, recorded_ask]
  refine bind_congr fun names => ?_
  cases names with
  | error r => exact recorded_skip
  | ok names => exact recorded_sweepNames

section Inside

variable (hinside : ∀ a b path, (inside a b path).recorded o.strict = recording a b path)
include hinside

theorem recorded_descend : (descend u inside a b name path).recorded o.strict =
    Recorder.descend u o recording a b name path := by
  simp only [descend, Recorder.descend, bind_eq, recorded_andThen, recorded_ask]
  refine bind_congr fun children => ?_
  cases children with
  | error r => exact recorded_skip
  | ok children => exact hinside _ _ _

theorem recorded_comparePair :
    (comparePair u o.hashAlgorithm inside a b name path x).recorded o.strict =
      Recorder.comparePair u o recording a b name path x := by
  simp only [comparePair, Recorder.comparePair, bind_eq, recorded_andThen, recorded_ask]
  refine bind_congr fun shown => ?_
  cases shown with
  | error r => exact recorded_skip
  | ok lookA =>
    simp only [recorded_andThen, recorded_compareSecurityLabel, recorded_compareMetadata]
    refine bind_congr fun _ => bind_congr fun comparability => ?_
    cases comparability with
    | incomparable => rfl
    | comparable =>
      cases hkind : lookA.kind with
      | symlink => exact recorded_compareSymlink
      | file => exact recorded_compareContent
      | directory => exact recorded_descend hinside
      | other => rfl

/-- The primary pass for one name adds it to those that are seen already, if B has something of that
name. -/
theorem visit_eq : Recorder.visit u o levels recording a b path seen name =
    (fun matched => if matched then seen ++ [name] else seen) <$>
      (visit u o.hashAlgorithm levels inside a b path name).recorded o.strict := by
  simp only [visit, Recorder.visit, bind_eq, recorded_andThen, recorded_visiting, recorded_ask,
    map_bind]
  refine bind_congr fun _ => bind_congr fun shown => ?_
  cases shown with
  | error r =>
    by_cases hgone : r.kind = .notFound
    · simp [hgone, recorded_oneSided]
    · simp [hgone]
  | ok lookB => simp [recorded_comparePair hinside]

theorem foldlM_visit {names : List Name} :
    names.foldlM (Recorder.visit u o levels recording a b path) seen =
      (seen ++ ·) <$>
        (primary u o.hashAlgorithm levels inside a b path names).recorded o.strict := by
  induction names generalizing seen with
  | nil => simp [primary]
  | cons name rest ih =>
    simp only [List.foldlM_cons, ih, visit_eq hinside, primary, bind_eq, pure_eq, recorded_andThen,
      map_bind, bind_map_left]
    refine bind_congr fun matched => ?_
    cases matched <;> simp

end Inside

theorem recorded_level {levels : Nat} :
    (level u o.hashAlgorithm levels a b path).recorded o.strict =
      Recorder.level u o levels a b path := by
  induction levels generalizing a b path with
  | zero => rfl
  | succ levels ih =>
    simp only [level, Recorder.level, bind_eq, recorded_andThen, recorded_ask]
    refine bind_congr fun names => ?_
    cases names with
    | error r => exact recorded_skip
    | ok names =>
      simp only [recorded_andThen, recorded_sweep, foldlM_visit fun _ _ _ => ih]
      simp

end Level

theorem recorded_roots : (roots u a b).recorded strict = Recorder.roots u a b := by
  simp only [roots, Recorder.roots, bind_eq, pure_eq, recorded_andThen, recorded_ask,
    recorded_compareSecurityLabel, recorded_compareMetadata, recorded_done]

theorem recorded_trees {levels : Nat} :
    (trees u o.hashAlgorithm levels a b).recorded o.strict = Recorder.trees u o levels a b := by
  simp only [trees, Recorder.trees, bind_eq, recorded_andThen, recorded_roots, recorded_level]

/-! ### At rest -/

theorem run_note_of_told (htold : f.isTold) : ((Walk.note f w).recorded strict).run r =
    .note f ((w.recorded strict).run (r.note strict f)) := by
  rw [recorded, Recorder.write, if_pos htold]
  rfl

theorem run_note_of_not_told (htold : ¬ f.isTold) : ((Walk.note f w).recorded strict).run r =
    (w.recorded strict).run (r.note strict f) := by
  rw [recorded, Recorder.write, if_neg htold]
  rfl

/-- At rest a recorder ends with the value of its walk, and with the findings written down. -/
theorem atRest_recorded :
    (w.recorded strict).atRest s r = (w.value s, r.noteAll strict (w.findings s)) := by
  induction w generalizing r with
  | done x => rfl
  | note f next ih =>
    by_cases htold : f.isTold
    · rw [Recorder.atRest, run_note_of_told htold]
      exact ih
    · rw [Recorder.atRest, run_note_of_not_told htold]
      exact ih
  | look next ih => exact ih s

/-- The log of a recorder is told of the findings of its walk, the mere records left out. -/
theorem findings_run_recorded :
    ((w.recorded strict).run r).findings s = (w.findings s).filter Finding.isTold := by
  induction w generalizing r with
  | done x => rfl
  | note f next ih =>
    by_cases htold : f.isTold
    · rw [run_note_of_told htold, findings_note, findings_note, List.filter_cons_of_pos htold, ih]
    · rw [run_note_of_not_told htold, findings_note, List.filter_cons_of_neg htold, ih]
  | look next ih => exact ih s

end Walk

namespace Store

variable {s : Store} {u : User} {o : Options} {a b d : DirectoryId} {path : String} {r : Report}

/-- The report of a comparison is what its findings make when they are written down in the end. -/
theorem diff_eq_noteAll :
    s.diff u o a b r = r.noteAll o.strict (s.compare u o.hashAlgorithm a b) := by
  rw [diff, ← Walk.recorded_trees, Walk.atRest_recorded]
  rfl

/-- So is that of the listing of a subtree. -/
theorem listSubtree_eq_noteAll : s.listSubtree u o d path r =
    ((Walk.subtree u s.levels d path).value s,
      r.noteAll o.strict ((Walk.subtree u s.levels d path).findings s)) := by
  rw [listSubtree, ← Walk.recorded_subtree, Walk.atRest_recorded]

end Store

/-! ### Live -/

namespace World

variable {w : World} {f : Finding} {strict : Bool} {r : Report} {α : Type} {m : Walk α}

/-- What the log is not told of changes nothing. -/
theorem react_of_not_told (htold : ¬ f.isTold) : w.react f = .ok w := by
  have hfires : ∀ h : Hook, h.firesAt f = false := fun h => by
    rw [Hook.firesAt, Option.not_isSome_iff_eq_none.1 htold]
    rfl
  rw [react, List.filter_eq_nil_iff.2 fun h _ => by simp [hfires],
    List.filter_eq_self.2 fun h _ => by simp [hfires]]
  rfl

theorem run_note : w.run (.note f m) = (w.react f).bind fun w =>
    (w.run m).map fun x => (x.1, f :: x.2.1, x.2.2) := by
  rw [run]
  cases w.react f with
  | error refusal => rfl
  | ok w => cases hrun : w.run m <;> simp [hrun, bind, Except.bind, Except.map, pure, Except.pure]

/-- A live run of a recorder ends with the value of its walk and in the same world, and with the
findings written down. -/
theorem run_recorded : w.run ((m.recorded strict).run r) = (w.run m).map fun x =>
    ((x.1, r.noteAll strict x.2.1), x.2.1.filter Finding.isTold, x.2.2) := by
  induction m generalizing w r with
  | done x => rfl
  | note f next ih =>
    by_cases htold : f.isTold
    · rw [Walk.run_note_of_told htold, run_note, run_note]
      cases w.react f with
      | error refusal => rfl
      | ok w =>
        simp only [Except.bind, ih]
        cases w.run next with
        | error refusal => rfl
        | ok x => simp [Except.map, htold, Report.noteAll]
    · rw [Walk.run_note_of_not_told htold, run_note, react_of_not_told htold, ih]
      simp only [Except.bind]
      cases w.run next with
      | error refusal => rfl
      | ok x => simp [Except.map, htold, Report.noteAll]
  | look next ih => exact ih w.store

/-- The report of a live comparison is what its findings make, whatever was changed meanwhile. -/
theorem report_run_trees {u : User} {o : Options} {a b : DirectoryId} :
    (w.run ((Recorder.trees u o w.levels a b).run r)).map (·.1.2) =
      (w.compare u o.hashAlgorithm a b).map (r.noteAll o.strict) := by
  rw [← Walk.recorded_trees, run_recorded, compare]
  cases w.run (Walk.trees u o.hashAlgorithm w.levels a b) <;> rfl

end World

end TreeComparison

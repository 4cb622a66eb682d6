import TreeComparison.Log.Event
import TreeComparison.Walk.Recorder

/-!
Running a walk. At rest the report is written on the way. A live run lets changes happen on the way:
each waits for one finding, is made at once when that finding is noted down, and is made only once;
what was found is then written into a report.
-/

namespace TreeComparison

/-! ### From findings to a report -/

/-- Writes a finding into a report. Skipped operations are recorded only if `strict` is set. -/
def Report.note (strict : Bool) (r : Report) : Finding → Report
  | .only .deleted path => r.recordDeleted path
  | .only .added path => r.recordAdded path
  | .differs path property a b => r.recordDifference path property a b
  | .skipped path operation fault =>
    if strict then r.recordSkipped path operation fault else r
  | .visiting _ => r
  | .enumerated _ => r
  | .unmatched _ _ => r
  | .unreadableLabel _ _ => r

/-- Writes findings into a report, in their order. -/
def Report.noteAll (strict : Bool) (r : Report) (fs : List Finding) : Report :=
  fs.foldl (Report.note strict) r

/-! ### At rest -/

/-- Directories of a store at rest are nested in no more levels than there are directories. -/
def Store.levels (s : Store) : Nat := s.size + 1

/-- What is found when two open directories are compared, whatever is to be recorded of it. -/
def Store.compare (s : Store) (u : User) (h : HashAlgorithm) (a b : DirectoryId) :
    List Finding :=
  (Walk.trees u h s.levels a b).findings s

/-- Compares two open directories into a report. -/
def Store.diff (s : Store) (u : User) (o : Options) (a b : DirectoryId) (r : Report) : Report :=
  ((Recorder.trees u o s.levels a b).atRest s r).2

/-- Lists everything below an open directory; the report can only gain skipped operations. -/
def Store.listSubtree (s : Store) (u : User) (o : Options) (d : DirectoryId) (path : String)
    (r : Report) : List String × Report :=
  (Recorder.subtree u o s.levels d path).atRest s r

/-- Opens the two roots; the first that cannot be opened ends the comparison. -/
def Store.openRoots (s : Store) (u : User) (start : DirectoryId) (pathA pathB : Bytes) :
    Except ComparisonError (DirectoryId × DirectoryId) := do
  let a ← (s.openRoot u start pathA).mapError fun r => .openRoot pathA (.system r)
  let b ← (s.openRoot u start pathB).mapError fun r => .openRoot pathB (.system r)
  return (a, b)

/-- Opens two directories and compares them into a new report. -/
def Store.diffTrees (s : Store) (u : User) (o : Options) (start : DirectoryId)
    (pathA pathB : Bytes) : Except ComparisonError Report :=
  (s.openRoots u start pathA pathB).map fun roots => s.diff u o roots.1 roots.2 ∅

/-! ### Live -/

/-- The logical path of a finding. -/
def Finding.path : Finding → String
  | .visiting path => path
  | .enumerated path => path
  | .unmatched path _ => path
  | .unreadableLabel path _ => path
  | .skipped path _ _ => path
  | .differs path _ _ _ => path
  | .only _ path => path

/-- Changes that wait for a finding with some message at some path. -/
structure Hook where
  message : String
  path : String
  changes : List Change

/-- Whether a hook has waited for this finding. -/
def Hook.firesAt (h : Hook) (f : Finding) : Bool :=
  (Event.ofFinding? f).any fun e => e.message = h.message && f.path = h.path

/-- The directories that a change can add. -/
def Change.directories : Change → Nat
  | .put _ node => node.directories
  | _ => 0

/-- A file system with the changes that are still to come. They are made by `writer` at paths below
`base`. -/
structure World where
  store : Store
  pending : List Hook
  writer : User
  base : DirectoryId

namespace World

/-- The world after a finding was noted down. -/
def react (w : World) (f : Finding) : Except Refusal World := do
  let fired := w.pending.filter fun h => h.firesAt f
  let store ← w.store.applyAll w.writer w.base (fired.flatMap (·.changes))
  return { w with store, pending := w.pending.filter fun h => !h.firesAt f }

/-- How many levels a walk can go down: between two changes no more than there are directories. -/
def levels (w : World) : Nat :=
  let added := (w.pending.flatMap (·.changes)).map Change.directories
  (w.store.size + added.foldr (· + ·) 0) * (w.pending.length + 1) + 1

/-- The value and the findings of a walk in a world, and the world that it leaves behind. -/
def run (w : World) : Walk α → Except Refusal (α × List Finding × World)
  | .done x => .ok (x, [], w)
  | .note f next => do
    let w ← w.react f
    let (x, fs, w) ← w.run next
    return (x, f :: fs, w)
  | .look next => w.run (next w.store)

/-- The findings of comparing two open directories. -/
def compare (w : World) (u : User) (h : HashAlgorithm) (a b : DirectoryId) :
    Except Refusal (List Finding) :=
  (w.run (Walk.trees u h w.levels a b)).map fun r => r.2.1

end World

end TreeComparison

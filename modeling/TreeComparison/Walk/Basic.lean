import TreeComparison.FileSystem.Change
import TreeComparison.FileSystem.Directory
import TreeComparison.Report.Basic

/-!
Walks over a file system that others may change. A walk is a chain of looks at the file system and
of findings that it notes down. What it finds depends on the states that it looks at: at rest there
is one state, and otherwise the state changes where a finding is noted. Everything that a walk
reports or logs is one of its findings.
-/

namespace TreeComparison

/-- What a walk notes down. -/
inductive Finding where
  /-- The primary pass is about to look at an entry of A. -/
  | visiting (path : String)
  /-- The listing of a subtree is about to look at an entry. -/
  | enumerated (path : String)
  /-- An entry exists on one side only. -/
  | unmatched (path : String) (side : Side)
  /-- A label could not be read and counts as empty. -/
  | unreadableLabel (path : String) (fault : Fault)
  /-- An operation was refused. -/
  | skipped (path : String) (operation : Operation) (fault : Fault)
  /-- Two entries differ in an attribute. -/
  | differs (path : String) (property : Property) (a b : PropertyValue)
  /-- A path belongs to one side only. -/
  | only (side : Side) (path : String)
  deriving DecidableEq, Repr

/-- A walk that ends in a value. -/
inductive Walk (α : Type) where
  | done (x : α)
  | note (f : Finding) (next : Walk α)
  | look (next : Store → Walk α)

namespace Walk

/-- Goes on with another walk after a walk. -/
def andThen (w : Walk α) (k : α → Walk β) : Walk β :=
  match w with
  | .done x => k x
  | .note f next => .note f (next.andThen k)
  | .look next => .look fun s => (next s).andThen k

instance : Monad Walk where
  pure := .done
  bind := andThen

/-- Notes a finding down. -/
def found (f : Finding) : Walk Unit := .note f (.done ())

/-- Notes some findings down, one after the other. -/
def foundAll : List Finding → Walk Unit
  | [] => .done ()
  | f :: fs => .note f (foundAll fs)

/-- Looks at the file system. -/
def ask (question : Store → α) : Walk α := .look fun s => .done (question s)

/-- Notes down that an operation was refused. -/
def skip (path : String) (operation : Operation) (fault : Fault) : Walk Unit :=
  found (.skipped path operation fault)

/-- The value and the findings of a walk over a file system at rest. -/
def atRest (s : Store) : Walk α → α × List Finding
  | .done x => (x, [])
  | .note f next => let r := next.atRest s; (r.1, f :: r.2)
  | .look next => (next s).atRest s

/-- The value of a walk over a file system at rest. -/
def value (s : Store) (w : Walk α) : α := (w.atRest s).1

/-- The findings of a walk over a file system at rest. -/
def findings (s : Store) (w : Walk α) : List Finding := (w.atRest s).2

/-! ### Walks at rest, step by step -/

variable {α β : Type} (s : Store)

@[simp] theorem pure_eq (x : α) : (pure x : Walk α) = .done x := rfl

@[simp] theorem bind_eq (w : Walk α) (k : α → Walk β) : w >>= k = w.andThen k := rfl

@[simp] theorem value_done (x : α) : (Walk.done x).value s = x := rfl

@[simp] theorem findings_done (x : α) : (Walk.done x).findings s = [] := rfl

@[simp] theorem value_note (f : Finding) (w : Walk α) : (Walk.note f w).value s = w.value s := rfl

@[simp] theorem findings_note (f : Finding) (w : Walk α) :
    (Walk.note f w).findings s = f :: w.findings s := rfl

@[simp] theorem value_look (k : Store → Walk α) : (Walk.look k).value s = (k s).value s := rfl

@[simp] theorem findings_look (k : Store → Walk α) :
    (Walk.look k).findings s = (k s).findings s := rfl

@[simp] theorem value_andThen (w : Walk α) (k : α → Walk β) :
    (w.andThen k).value s = (k (w.value s)).value s := by
  induction w with
  | done x => rfl
  | note f next ih => simpa [andThen] using ih
  | look next ih => simpa [andThen] using ih s

@[simp] theorem findings_andThen (w : Walk α) (k : α → Walk β) :
    (w.andThen k).findings s = w.findings s ++ (k (w.value s)).findings s := by
  induction w with
  | done x => rfl
  | note f next ih => simpa [andThen] using ih
  | look next ih => simpa [andThen] using ih s

@[simp] theorem value_found (f : Finding) : (found f).value s = () := rfl

@[simp] theorem findings_found (f : Finding) : (found f).findings s = [f] := rfl

@[simp] theorem value_ask (q : Store → α) : (ask q).value s = q s := rfl

@[simp] theorem findings_ask (q : Store → α) : (ask q).findings s = [] := rfl

@[simp] theorem findings_foundAll (fs : List Finding) : (foundAll fs).findings s = fs := by
  induction fs with
  | nil => rfl
  | cons f fs ih => simp [foundAll, ih]

end Walk

end TreeComparison

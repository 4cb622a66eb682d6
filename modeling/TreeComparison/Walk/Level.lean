import TreeComparison.Walk.Attributes
import TreeComparison.Walk.Subtree

/-!
Comparing two directories level by level. The primary pass takes the names of A one by one and
looks each up in B; the sweep then lists B for the names that the primary pass has not met. Where
both sides have a directory, the two are compared in the same way one level down.
-/

namespace TreeComparison.Walk

/-- Records an entry that only one side has, and everything below it. -/
def oneSided (u : User) (levels : Nat) (side : Side) (d : DirectoryId) (name : Name)
    (path : String) : Walk Unit := do
  found (.unmatched path side)
  let shown ← ask fun s => s.stat u d name.bytes
  let below ← if shown.toOption.any Snapshot.isDirectory then
      match ← ask fun s => s.openDirectory u d name.bytes with
      | .ok e => subtree u levels e path
      | .error r => do
        skip path .openDirectory (.system r)
        pure []
    else pure []
  foundAll ((path :: below).map (.only side))

/-- Compares two directories of one name, if both can be opened. -/
def descend (u : User) (inside : DirectoryId → DirectoryId → String → Walk Unit)
    (a b : DirectoryId) (name : Name) (path : String) : Walk Unit := do
  match ← ask fun s => both (s.openDirectory u a name.bytes) (s.openDirectory u b name.bytes) with
  | .ok (childA, childB) => inside childA childB path
  | .error r => skip path .openDirectory (.system r)

/-- Compares two entries of one name, the look at that of B being known. -/
def comparePair (u : User) (h : HashAlgorithm)
    (inside : DirectoryId → DirectoryId → String → Walk Unit) (a b : DirectoryId) (name : Name)
    (path : String) (lookB : Snapshot) : Walk Unit := do
  match ← ask fun s => s.stat u a name.bytes with
  | .error r => skip path .stat (.system r)
  | .ok lookA =>
    compareSecurityLabel u a b (some name.bytes) path
    match ← compareMetadata lookA lookB path with
    | .incomparable => pure ()
    | .comparable =>
      match lookA.kind with
      | .symlink => compareSymlink u a b name.bytes path
      | .file => compareContent u h a b name.bytes path
      | .directory => descend u inside a b name path
      | .other => pure ()

/-- The primary pass for one name of A. The answer says whether B has something of that name, be it
only something that cannot be looked at. -/
def visit (u : User) (h : HashAlgorithm) (levels : Nat)
    (inside : DirectoryId → DirectoryId → String → Walk Unit) (a b : DirectoryId)
    (parent : String) (name : Name) : Walk Bool := do
  let path := joinPath parent name.bytes
  found (.visiting path)
  match ← ask fun s => s.stat u b name.bytes with
  | .error r =>
    if r.kind = .notFound then do
      oneSided u levels .deleted a name path
      return false
    else do
      skip path .stat (.system r)
      return true
  | .ok lookB => do
    comparePair u h inside a b name path lookB
    return true

/-- The primary pass. The answer holds the names that B has something of. -/
def primary (u : User) (h : HashAlgorithm) (levels : Nat)
    (inside : DirectoryId → DirectoryId → String → Walk Unit) (a b : DirectoryId)
    (parent : String) : List Name → Walk (List Name)
  | [] => pure []
  | name :: rest => do
    let matched ← visit u h levels inside a b parent name
    let seen ← primary u h levels inside a b parent rest
    return if matched then name :: seen else seen

/-- Records the names of B that are not among those seen. -/
def sweepNames (u : User) (levels : Nat) (b : DirectoryId) (parent : String)
    (seen : List Name) : List Name → Walk Unit
  | [] => pure ()
  | name :: rest => do
    if name ∉ seen then oneSided u levels .added b name (joinPath parent name.bytes)
    sweepNames u levels b parent seen rest

/-- The sweep: everything in B that the primary pass has not met. -/
def sweep (u : User) (levels : Nat) (b : DirectoryId) (parent : String) (seen : List Name) :
    Walk Unit := do
  match ← ask fun s => s.names u b with
  | .error r => skip parent .readDir (.system r)
  | .ok names => sweepNames u levels b parent seen names

/-- Compares two directories and what is below them, at most so many levels down. -/
def level (u : User) (h : HashAlgorithm) : Nat → DirectoryId → DirectoryId → String → Walk Unit
  | 0, _, _, _ => pure ()
  | levels + 1, a, b, path => do
    match ← ask fun s => s.names u a with
    | .error r => skip path .readDir (.system r)
    | .ok names =>
      let seen ← primary u h levels (level u h levels) a b path names
      sweep u levels b path seen

/-- Compares the two directories themselves. Nothing is above them that could keep them from being
compared further. -/
def roots (u : User) (a b : DirectoryId) : Walk Unit := do
  compareSecurityLabel u a b none "/"
  let (lookA, lookB) ← ask fun s => (s.statSelf a, s.statSelf b)
  let _ ← compareMetadata lookA lookB "/"

/-- Compares two trees, at most so many levels down. -/
def trees (u : User) (h : HashAlgorithm) (levels : Nat) (a b : DirectoryId) : Walk Unit := do
  roots u a b
  level u h levels a b "/"

end TreeComparison.Walk

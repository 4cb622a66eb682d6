import TreeComparison.Options
import TreeComparison.Walk.Level

/-!
Walks that carry the report along. Every function is told whether skipped operations are to be
recorded and writes into the report as soon as it has something to write; what it notes down is for
the log alone. Nothing here looks at what the report has already.
-/

namespace TreeComparison

/-- A walk that writes into a report on the way. -/
abbrev Recorder := StateT Report Walk

namespace Recorder

/-- Looks at the file system. -/
def look (question : Store → α) : Recorder α := StateT.lift (Walk.ask question)

/-- Tells the log of a finding. -/
def log (f : Finding) : Recorder Unit := StateT.lift (Walk.found f)

/-- Records an attribute that differs. -/
def recordDifference (path : String) (property : Property) (a b : PropertyValue) : Recorder Unit :=
  modify (·.recordDifference path property a b)

/-- Records a path that one side only has. -/
def recordOnly : Side → String → Recorder Unit
  | .deleted, path => modify (·.recordDeleted path)
  | .added, path => modify (·.recordAdded path)

/-- Passes over an operation that was refused, which is recorded in strict mode. -/
def skip (o : Options) (path : String) (operation : Operation) (fault : Fault) :
    Recorder Unit := do
  log (.skipped path operation fault)
  if o.strict then modify (·.recordSkipped path operation fault)

/-! ### Attributes -/

/-- Compares mode and owners. -/
def compareMetadata (a b : Snapshot) (path : String) : Recorder Comparability :=
  if a.mode ≠ b.mode then do
    recordDifference path .mode (.text a.modeOctal) (.text b.modeOctal)
    return .incomparable
  else do
    if a.uid ≠ b.uid then recordDifference path .uid (.id a.uid) (.id b.uid)
    if a.gid ≠ b.gid then recordDifference path .gid (.id a.gid) (.id b.gid)
    return .comparable

/-- A label as it is compared: one that cannot be read is told of and counts as empty. -/
def labelOr (path : String) : Except Fault String → Recorder String
  | .ok label => pure label
  | .error f => do
    log (.unreadableLabel path f)
    return ""

/-- Compares the labels of an entry in two directories, or of the directories themselves. -/
def compareSecurityLabel (u : User) (a b : DirectoryId) (name : Option Bytes) (path : String) :
    Recorder Unit := do
  let labelA ← labelOr path (← look fun s => (s.securityLabel u a name).mapError .system)
  let labelB ← labelOr path (← look fun s => (s.securityLabel u b name).mapError .system)
  if labelA ≠ labelB then recordDifference path .selinux (.text labelA) (.text labelB)

/-- Compares the targets of two links, as they are stored. -/
def compareSymlink (u : User) (o : Options) (a b : DirectoryId) (name : Bytes) (path : String) :
    Recorder Unit := do
  match ← look fun s => Walk.both (s.readLink u a name) (s.readLink u b name) with
  | .ok (targetA, targetB) =>
    if targetA ≠ targetB then
      recordDifference path .symlink (.text (escape targetA)) (.text (escape targetB))
  | .error r => skip o path .readLink (.system r)

/-- Compares two contents by their fingerprints. -/
def compareContent (u : User) (o : Options) (a b : DirectoryId) (name : Bytes) (path : String) :
    Recorder Unit := do
  match ← look fun s => Walk.both (s.openFile u a name) (s.openFile u b name) with
  | .error r => skip o path .openFile (.system r)
  | .ok (streamA, streamB) =>
    match Walk.fingerprints o.hashAlgorithm streamA streamB with
    | .ok (hashA, hashB) =>
      if hashA ≠ hashB then recordDifference path .content (.text hashA) (.text hashB)
    | .error f => skip o path .hash f

/-! ### The listing of a subtree -/

/-- Adds to the paths that are known already that of an entry and of all that is below it. -/
def collectEntry (u : User) (o : Options)
    (inside : DirectoryId → String → List String → Recorder (List String)) (d : DirectoryId)
    (path : String) (paths : List String) (name : Name) : Recorder (List String) := do
  let child := joinPath path name.bytes
  log (.enumerated child)
  let paths := paths ++ [child]
  match ← look fun s => s.stat u d name.bytes with
  | .error r => do
    skip o child .stat (.system r)
    return paths
  | .ok shown =>
    if shown.isDirectory then
      match ← look fun s => s.openDirectory u d name.bytes with
      | .ok e => inside e child paths
      | .error r => do
        skip o child .openDirectory (.system r)
        return paths
    else return paths

/-- Adds to the paths that are known already those of everything below a directory, at most so many
levels down. -/
def collect (u : User) (o : Options) :
    Nat → DirectoryId → String → List String → Recorder (List String)
  | 0, _, _, paths => pure paths
  | levels + 1, d, path, paths => do
    match ← look fun s => s.names u d with
    | .error r => do
      skip o path .readDir (.system r)
      return paths
    | .ok names => names.foldlM (collectEntry u o (collect u o levels) d path) paths

/-- The paths of everything below a directory, at most so many levels down. -/
def subtree (u : User) (o : Options) (levels : Nat) (d : DirectoryId) (path : String) :
    Recorder (List String) := collect u o levels d path []

/-! ### Two directories, level by level -/

/-- Records an entry that only one side has, and everything below it. -/
def oneSided (u : User) (o : Options) (levels : Nat) (side : Side) (d : DirectoryId) (name : Name)
    (path : String) : Recorder Unit := do
  log (.unmatched path side)
  let shown ← look fun s => s.stat u d name.bytes
  let below ← if shown.toOption.any Snapshot.isDirectory then
      match ← look fun s => s.openDirectory u d name.bytes with
      | .ok e => subtree u o levels e path
      | .error r => do
        skip o path .openDirectory (.system r)
        pure []
    else pure []
  (path :: below).forM (recordOnly side)

/-- Compares two directories of one name, if both can be opened. -/
def descend (u : User) (o : Options) (inside : DirectoryId → DirectoryId → String → Recorder Unit)
    (a b : DirectoryId) (name : Name) (path : String) : Recorder Unit := do
  match ← look fun s =>
      Walk.both (s.openDirectory u a name.bytes) (s.openDirectory u b name.bytes) with
  | .ok (childA, childB) => inside childA childB path
  | .error r => skip o path .openDirectory (.system r)

/-- Compares two entries of one name, the look at that of B being known. -/
def comparePair (u : User) (o : Options)
    (inside : DirectoryId → DirectoryId → String → Recorder Unit) (a b : DirectoryId) (name : Name)
    (path : String) (lookB : Snapshot) : Recorder Unit := do
  match ← look fun s => s.stat u a name.bytes with
  | .error r => skip o path .stat (.system r)
  | .ok lookA =>
    compareSecurityLabel u a b (some name.bytes) path
    match ← compareMetadata lookA lookB path with
    | .incomparable => pure ()
    | .comparable =>
      match lookA.kind with
      | .symlink => compareSymlink u o a b name.bytes path
      | .file => compareContent u o a b name.bytes path
      | .directory => descend u o inside a b name path
      | .other => pure ()

/-- The primary pass for one name of A. A name that B has something of joins those seen. -/
def visit (u : User) (o : Options) (levels : Nat)
    (inside : DirectoryId → DirectoryId → String → Recorder Unit) (a b : DirectoryId)
    (parent : String) (seen : List Name) (name : Name) : Recorder (List Name) := do
  let path := joinPath parent name.bytes
  log (.visiting path)
  match ← look fun s => s.stat u b name.bytes with
  | .error r =>
    if r.kind = .notFound then do
      oneSided u o levels .deleted a name path
      return seen
    else do
      skip o path .stat (.system r)
      return seen ++ [name]
  | .ok lookB => do
    comparePair u o inside a b name path lookB
    return seen ++ [name]

/-- Records a name of B, unless it is among those seen. -/
def sweepName (u : User) (o : Options) (levels : Nat) (b : DirectoryId) (parent : String)
    (seen : List Name) (name : Name) : Recorder Unit :=
  if name ∈ seen then pure ()
  else oneSided u o levels .added b name (joinPath parent name.bytes)

/-- The sweep: everything in B that the primary pass has not met. -/
def sweep (u : User) (o : Options) (levels : Nat) (b : DirectoryId) (parent : String)
    (seen : List Name) : Recorder Unit := do
  match ← look fun s => s.names u b with
  | .error r => skip o parent .readDir (.system r)
  | .ok names => names.forM (sweepName u o levels b parent seen)

/-- Compares two directories and what is below them, at most so many levels down. -/
def level (u : User) (o : Options) :
    Nat → DirectoryId → DirectoryId → String → Recorder Unit
  | 0, _, _, _ => pure ()
  | levels + 1, a, b, path => do
    match ← look fun s => s.names u a with
    | .error r => skip o path .readDir (.system r)
    | .ok names =>
      let seen ← names.foldlM (visit u o levels (level u o levels) a b path) []
      sweep u o levels b path seen

/-- Compares the two directories themselves. -/
def roots (u : User) (a b : DirectoryId) : Recorder Unit := do
  compareSecurityLabel u a b none "/"
  let (lookA, lookB) ← look fun s => (s.statSelf a, s.statSelf b)
  let _ ← compareMetadata lookA lookB "/"

/-- Compares two trees, at most so many levels down. -/
def trees (u : User) (o : Options) (levels : Nat) (a b : DirectoryId) : Recorder Unit := do
  roots u a b
  level u o levels a b "/"

/-! ### At rest -/

/-- The value of a walk over a file system at rest, and the report it leaves. -/
def atRest (s : Store) (w : Recorder α) (r : Report) : α × Report := (w.run r).value s

end Recorder

end TreeComparison

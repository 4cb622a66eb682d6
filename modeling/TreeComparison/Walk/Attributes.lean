import TreeComparison.Walk.Basic

/-!
Comparing two entries of one path, attribute by attribute. No comparison fails: what the system
refuses is skipped, and a label that cannot be read counts as empty.
-/

namespace TreeComparison

/-- Whether two entries are alike enough to be compared further. -/
inductive Comparability where
  | comparable
  | incomparable
  deriving DecidableEq, Repr

/-- A finding that says in which value two sides differ, if they do. -/
def differing (path : String) (property : Property) (a b : PropertyValue) : List Finding :=
  if a = b then [] else [.differs path property a b]

/-- What two looks at a path show. Entries of different modes differ in nothing else. -/
def metadataFindings (a b : Snapshot) (path : String) : List Finding :=
  if a.mode ≠ b.mode then [.differs path .mode (.text a.modeOctal) (.text b.modeOctal)]
  else differing path .uid (.id a.uid) (.id b.uid) ++ differing path .gid (.id a.gid) (.id b.gid)

/-- Entries of one mode may be compared further. -/
def comparability (a b : Snapshot) : Comparability :=
  if a.mode ≠ b.mode then .incomparable else .comparable

namespace Walk

/-- Compares mode and owners. -/
def compareMetadata (a b : Snapshot) (path : String) : Walk Comparability := do
  foundAll (metadataFindings a b path)
  return comparability a b

/-- A label as it is compared: one that cannot be read is noted and counts as empty. -/
def labelOr (path : String) : Except Fault String → Walk String
  | .ok label => pure label
  | .error f => do
    found (.unreadableLabel path f)
    return ""

/-- Compares two labels, of which each is read by a walk of its own. -/
def compareLabels (a b : Walk (Except Fault String)) (path : String) : Walk Unit := do
  let labelA ← labelOr path (← a)
  let labelB ← labelOr path (← b)
  foundAll (differing path .selinux (.text labelA) (.text labelB))

/-- Reads the label of an entry, or of the directory itself. -/
def readLabel (u : User) (d : DirectoryId) (name : Option Bytes) : Walk (Except Fault String) :=
  ask fun s => (s.securityLabel u d name).mapError .system

/-- Compares the labels of an entry in two directories, or of the directories themselves. -/
def compareSecurityLabel (u : User) (a b : DirectoryId) (name : Option Bytes) (path : String) :
    Walk Unit :=
  compareLabels (readLabel u a name) (readLabel u b name) path

/-- The answers for both sides, or the fault of the first side that has one. -/
def both (a b : Except Refusal α) : Except Refusal (α × α) := do
  let x ← a
  let y ← b
  return (x, y)

/-- Compares the targets of two links, as they are stored. -/
def compareSymlink (u : User) (a b : DirectoryId) (name : Bytes) (path : String) : Walk Unit := do
  match ← ask fun s => both (s.readLink u a name) (s.readLink u b name) with
  | .ok (targetA, targetB) =>
    if targetA ≠ targetB then
      found (.differs path .symlink (.text (escape targetA)) (.text (escape targetB)))
  | .error r => skip path .readLink (.system r)

/-- The fingerprints of two streams, or the fault of the first that has one. -/
def fingerprints (h : HashAlgorithm) (a b : List Chunk) : Except Fault (String × String) := do
  let x ← fingerprint h a
  let y ← fingerprint h b
  return (x, y)

/-- Compares two contents by their fingerprints. -/
def compareContent (u : User) (h : HashAlgorithm) (a b : DirectoryId) (name : Bytes)
    (path : String) : Walk Unit := do
  match ← ask fun s => both (s.openFile u a name) (s.openFile u b name) with
  | .error r => skip path .openFile (.system r)
  | .ok (streamA, streamB) =>
    match fingerprints h streamA streamB with
    | .ok (hashA, hashB) => foundAll (differing path .content (.text hashA) (.text hashB))
    | .error f => skip path .hash f

end Walk

end TreeComparison

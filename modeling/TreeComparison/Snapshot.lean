import TreeComparison.Text.Digits

/-!
What is known of an entry from one look at it: its mode, which holds its type and its permission
bits, and its owners. The kind of an entry is read off its mode once.
-/

namespace TreeComparison

/-- The kinds of entries that a comparison tells apart. -/
inductive EntryKind where
  | file
  | directory
  | symlink
  | other
  deriving DecidableEq, Repr

/-- The name of a kind. -/
def EntryKind.name : EntryKind → String
  | .file => "file"
  | .directory => "directory"
  | .symlink => "symlink"
  | .other => "other"

/-- The type that a mode carries in its upper bits. -/
def typeBits (mode : Nat) : Nat := mode &&& 0o170000

/-- The kind that a mode says. -/
def EntryKind.ofMode (mode : Nat) : EntryKind :=
  if typeBits mode = 0o100000 then .file
  else if typeBits mode = 0o040000 then .directory
  else if typeBits mode = 0o120000 then .symlink
  else .other

/-- What one look at an entry shows. It is not refreshed when the entry changes. -/
structure Snapshot where
  mode : Nat
  uid : UInt32
  gid : UInt32
  deriving DecidableEq, Repr

namespace Snapshot

/-- The kind of the entry. -/
def kind (s : Snapshot) : EntryKind := .ofMode s.mode

/-- Whether the entry is a directory. -/
def isDirectory (s : Snapshot) : Bool := s.kind = .directory

/-- The mode as it is shown in reports. -/
def modeOctal (s : Snapshot) : String := Digits.octal s.mode

end Snapshot

end TreeComparison

import TreeComparison.Fault
import TreeComparison.SortedMap

/-!
The result of comparing a tree A with a tree B: the paths that only one of them has, the attributes
in which two entries of one path differ, and the operations that were skipped on the way.
-/

namespace TreeComparison

/-- An attribute that two entries of the same path are compared in. -/
inductive Property where
  | content
  | gid
  | mode
  | selinux
  | symlink
  | uid
  deriving DecidableEq, Repr

namespace Property

/-- All attributes, in the order of their names. -/
def all : List Property := [.content, .gid, .mode, .selinux, .symlink, .uid]

/-- The name of an attribute. -/
def name : Property → String
  | .content => "content"
  | .gid => "gid"
  | .mode => "mode"
  | .selinux => "selinux"
  | .symlink => "symlink"
  | .uid => "uid"

/-- The attribute with exactly this name. -/
def ofName? (text : String) : Option Property := all.find? fun p => p.name = text

/-- Attributes are ordered by their names. -/
instance : LT Property := ⟨fun a b => a.name < b.name⟩

instance : DecidableLT Property := fun a b => inferInstanceAs (Decidable (a.name < b.name))

theorem name_inj {a b : Property} (h : a.name = b.name) : a = b := by
  cases a <;> cases b <;> first | rfl | exact absurd h (by decide)

instance : Trans (α := Property) (· < ·) (· < ·) (· < ·) := ⟨fun h g => String.lt_trans h g⟩

instance : Std.Trichotomous (α := Property) (· < ·) where
  trichotomous a b h g := name_inj <|
    Std.Trichotomous.trichotomous (r := fun x y : String => x < y) a.name b.name h g

end Property

/-- Paths are ordered as texts. -/
instance instTransText : Trans (α := String) (· < ·) (· < ·) (· < ·) :=
  ⟨fun h g => String.lt_trans h g⟩

/-- Of two paths that differ one is the lesser. -/
instance instTrichotomousText : Std.Trichotomous (α := String) (· < ·) := inferInstance

/-- One side of a difference: owners are numbers, all else is text. -/
inductive PropertyValue where
  | id (n : UInt32)
  | text (s : String)
  deriving DecidableEq, Repr

/-- The attributes in which two entries differ, each with its value in A and in B. -/
abbrev PropertyDiff := SortedMap Property (PropertyValue × PropertyValue)

/-- An operation that can be skipped. -/
inductive Operation where
  | stat
  | readDir
  | openDirectory
  | openFile
  | hash
  | readLink
  deriving DecidableEq, Repr

namespace Operation

/-- All operations. -/
def all : List Operation := [.stat, .readDir, .openDirectory, .openFile, .hash, .readLink]

/-- The name of an operation in reports. -/
def name : Operation → String
  | .stat => "stat"
  | .readDir => "read_dir"
  | .openDirectory => "open_directory"
  | .openFile => "open_file"
  | .hash => "hash"
  | .readLink => "read_link"

/-- The operation with exactly this name. -/
def ofName? (text : String) : Option Operation := all.find? fun o => o.name = text

/-- The name of an operation in log lines. -/
def label : Operation → String
  | .stat => "Stat"
  | .readDir => "ReadDir"
  | .openDirectory => "OpenDirectory"
  | .openFile => "OpenFile"
  | .hash => "Hash"
  | .readLink => "ReadLink"

end Operation

/-- A skipped operation: where it was, what it was and why. -/
structure Skip where
  path : String
  operation : Operation
  message : String
  deriving DecidableEq, Repr

/-- The side of a comparison that an unmatched entry belongs to: only in A, or only in B. -/
inductive Side where
  | deleted
  | added
  deriving DecidableEq, Repr

/-- The result of comparing a tree A with a tree B. -/
structure Report where
  /-- The paths that only B has. -/
  added : List String
  /-- The paths that only A has. -/
  deleted : List String
  /-- The differing attributes of each path. -/
  differences : SortedMap String PropertyDiff
  /-- The operations skipped, if a record of them is wanted. -/
  errors : List Skip
  deriving DecidableEq

/-- How much a report holds. -/
structure Summary where
  added : Nat
  deleted : Nat
  changed : Nat
  skipped : Nat
  deriving DecidableEq, Repr

namespace Report

/-- The report in which nothing is recorded. -/
def empty : Report := ⟨[], [], ∅, []⟩

instance : EmptyCollection Report := ⟨empty⟩

instance : Inhabited Report := ⟨∅⟩

/-- Records a path that only B has. -/
def recordAdded (r : Report) (path : String) : Report := { r with added := r.added ++ [path] }

/-- Records a path that only A has. -/
def recordDeleted (r : Report) (path : String) : Report :=
  { r with deleted := r.deleted ++ [path] }

/-- The attributes recorded for a path. -/
def properties? (r : Report) (path : String) : Option PropertyDiff := r.differences.get? path

/-- Records an attribute of a path with its two values; what was recorded before is replaced. -/
def recordDifference (r : Report) (path : String) (property : Property)
    (a b : PropertyValue) : Report :=
  { r with differences :=
      r.differences.insert path (((r.properties? path).getD ∅).insert property (a, b)) }

/-- Records a skipped operation. -/
def recordSkipped (r : Report) (path : String) (operation : Operation) (fault : Fault) : Report :=
  { r with errors := r.errors ++ [⟨path, operation, fault.message⟩] }

/-- Whether the two trees compared equal; skipped operations do not count. -/
def isEmpty (r : Report) : Bool :=
  r.added.isEmpty && r.deleted.isEmpty && r.differences.isEmpty

/-- The report with its lists of paths in order. -/
def sort (r : Report) : Report :=
  { r with
    added := r.added.mergeSort fun x y => decide (x ≤ y)
    deleted := r.deleted.mergeSort fun x y => decide (x ≤ y) }

/-- How much the report holds. -/
def summary (r : Report) : Summary :=
  ⟨r.added.length, r.deleted.length, r.differences.size, r.errors.length⟩

end Report

end TreeComparison

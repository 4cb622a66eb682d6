import TreeComparison.Digest.Fingerprint
import TreeComparison.Snapshot

/-!
A file system as a value. Directories live in a table and are known by their place in it, so a
directory keeps its identity when it is renamed or removed; all other entries are held by the
directory that lists them. In one directory no name is listed twice.
-/

namespace TreeComparison

/-! ### Names -/

/-- How long a name may be. -/
def Name.maxLength : Nat := 255

/-- What a directory may list: a name is not empty and not too long, has no slash and no NUL byte,
and is not one of the two names that lead to the directory itself and to the one above it. -/
def IsProperName (bytes : Bytes) : Prop :=
  bytes ≠ [] ∧ 0x2F ∉ bytes ∧ 0x00 ∉ bytes ∧ bytes ≠ [0x2E] ∧ bytes ≠ [0x2E, 0x2E] ∧
    bytes.length ≤ Name.maxLength

instance (bytes : Bytes) : Decidable (IsProperName bytes) :=
  inferInstanceAs (Decidable (_ ∧ _ ∧ _ ∧ _ ∧ _ ∧ _))

/-- The name of an entry. -/
@[ext] structure Name where
  bytes : Bytes
  proper : IsProperName bytes
  deriving DecidableEq

/-- The name that some bytes are, if they are one. -/
def Name.ofBytes? (bytes : Bytes) : Option Name :=
  if h : IsProperName bytes then some ⟨bytes, h⟩ else none

/-! ### Entries -/

/-- What every entry has: twelve permission bits, owners and a security label, empty if it has
none. -/
structure Attributes where
  permissions : BitVec 12
  uid : UInt32
  gid : UInt32
  label : Bytes
  deriving DecidableEq, Repr

/-- What comes of opening a device for reading. -/
inductive Device where
  | refuses (refusal : Refusal)
  | supplies (chunks : List Chunk)
  deriving DecidableEq, Repr

/-- Entries that are compared by their attributes alone. A pipe has what its writers put into it
before they close it. -/
inductive Special where
  | fifo (written : Bytes)
  | socket
  | characterDevice (device : Device)
  | blockDevice (device : Device)
  deriving DecidableEq, Repr

/-- The place of a directory in the table. -/
abbrev DirectoryId := Nat

/-- An entry of a directory. -/
inductive Entry where
  | directory (id : DirectoryId)
  | file (attributes : Attributes) (content : Bytes)
  | symlink (attributes : Attributes) (target : Bytes)
  | special (kind : Special) (attributes : Attributes)
  deriving DecidableEq, Repr

/-- The entries of a directory in the order in which they are listed. -/
structure Listing where
  entries : List (Name × Entry)
  distinct : (entries.map (·.1)).Nodup

namespace Listing

/-- The listing without entries. -/
def empty : Listing := ⟨[], .nil⟩

instance : EmptyCollection Listing := ⟨empty⟩

/-- The names, in order. -/
def names (l : Listing) : List Name := l.entries.map (·.1)

/-- The entry with a given name. -/
def find? (l : Listing) (name : Bytes) : Option Entry :=
  (l.entries.find? fun e => e.1.bytes = name).map (·.2)

/-- The listing without one name. -/
def erase (l : Listing) (name : Name) : Listing where
  entries := l.entries.filter fun e => e.1 ≠ name
  distinct := l.distinct.sublist (List.filter_sublist.map _)

/-- The listing with an entry at its end; an entry that had the name is dropped. -/
def insert (l : Listing) (name : Name) (entry : Entry) : Listing where
  entries := (l.erase name).entries ++ [(name, entry)]
  distinct := by
    simp only [List.map_append, List.map_cons, List.map_nil]
    refine List.nodup_append.2 ⟨(l.erase name).distinct, by simp, ?_⟩
    intro a ha b hb
    simp only [erase, List.mem_map, List.mem_filter] at ha
    obtain ⟨e, ⟨-, he⟩, rfl⟩ := ha
    simp only [List.mem_singleton] at hb
    subst hb
    simpa using he

/-- The listing with the entry of one name changed in its place. -/
def modify (l : Listing) (name : Name) (change : Entry → Entry) : Listing where
  entries := l.entries.map fun e => if e.1 = name then (e.1, change e.2) else e
  distinct := by
    have h : (l.entries.map fun e => if e.1 = name then (e.1, change e.2) else e).map (·.1)
        = l.entries.map (·.1) := by
      rw [List.map_map]
      refine List.map_congr_left fun e _ => ?_
      simp only [Function.comp]
      split <;> rfl
    rw [h]
    exact l.distinct

end Listing

/-! ### The table of directories -/

/-- A directory. -/
structure Directory where
  attributes : Attributes
  listing : Listing

/-- What is found at a place of the table that is not in use: nobody may enter it. -/
def Directory.vacant : Directory := ⟨⟨0, 0, 0, []⟩, ∅⟩

/-- A file system: its directories, and the home of each account in its list of accounts. Place 0 is
the directory that paths start from. -/
structure Store where
  directories : Array Directory
  homes : UInt32 → Option Bytes := fun _ => none

namespace Store

/-- Where paths start. -/
def root : DirectoryId := 0

/-- The directory at a place of the table. -/
def directory (s : Store) (d : DirectoryId) : Directory := s.directories.getD d .vacant

/-- The number of directories that the table has places for. -/
def size (s : Store) : Nat := s.directories.size

/-- The attributes of an entry. -/
def attributes (s : Store) : Entry → Attributes
  | .directory d => (s.directory d).attributes
  | .file a _ => a
  | .symlink a _ => a
  | .special _ a => a

/-- The directory that lists the directory `d`, if there is one. -/
def parent? (s : Store) (d : DirectoryId) : Option DirectoryId :=
  s.directories.findIdx? fun dir => dir.listing.entries.any fun e => e.2 = .directory d

/-- The directory above `d`. The root is above itself and above what no directory lists. -/
def parent (s : Store) (d : DirectoryId) : DirectoryId := (s.parent? d).getD root

/-- Whether a directory has been removed: it is not the root, and no directory lists it. -/
def isRemoved (s : Store) (d : DirectoryId) : Bool := d ≠ root && (s.parent? d).isNone

/-- The store with one directory replaced. -/
def setDirectory (s : Store) (d : DirectoryId) (dir : Directory) : Store :=
  { s with directories := s.directories.setIfInBounds d dir }

/-- The store with one more directory, which stands at the end of the table. -/
def addDirectory (s : Store) (dir : Directory) : Store :=
  { s with directories := s.directories.push dir }

/-- A store in which the root is an empty directory open to all. -/
def initial : Store where
  directories := #[⟨⟨0o755, 0, 0, []⟩, ∅⟩]

end Store

/-- The type bits of an entry's mode. -/
def Entry.typeBits : Entry → Nat
  | .directory _ => 0o040000
  | .file _ _ => 0o100000
  | .symlink _ _ => 0o120000
  | .special (.fifo _) _ => 0o010000
  | .special .socket _ => 0o140000
  | .special (.characterDevice _) _ => 0o020000
  | .special (.blockDevice _) _ => 0o060000

/-- What one look at an entry shows. -/
def Store.snapshot (s : Store) (e : Entry) : Snapshot :=
  let a := s.attributes e
  ⟨e.typeBits ||| a.permissions.toNat, a.uid, a.gid⟩

/-! ### Users -/

/-- Who looks at the files. A privileged user passes every check. -/
structure User where
  uid : UInt32
  gid : UInt32
  privileged : Bool
  deriving DecidableEq, Repr

/-- What a user may want of an entry. -/
inductive Access where
  | read
  | write
  | search
  deriving DecidableEq, Repr

/-- The permission bit of an access, within the three bits of one class of users. -/
def Access.bit : Access → Nat
  | .read => 4
  | .write => 2
  | .search => 1

/-- Where the three bits of the class stand that a user belongs to: the owner's, else the group's,
else those of all others. -/
def User.classShift (u : User) (a : Attributes) : Nat :=
  if u.uid = a.uid then 6 else if u.gid = a.gid then 3 else 0

/-- Whether a user has access to an entry with these attributes. -/
def User.may (u : User) (access : Access) (a : Attributes) : Bool :=
  u.privileged || (a.permissions.toNat >>> u.classShift a) &&& access.bit != 0

end TreeComparison

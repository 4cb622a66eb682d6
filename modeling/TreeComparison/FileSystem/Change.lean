import TreeComparison.FileSystem.Lookup

/-!
Changes to a file system, made at paths below some directory: new entries with all that is below
them, removal, renaming, and new attributes. A change is made by a user, who needs leave for it;
without privilege nobody can give an entry to someone else or make a device.
-/

namespace TreeComparison

/-- An entry with everything below it, as it is to be made. -/
inductive Node where
  | directory (attributes : Attributes) (children : List (Name × Node))
  | file (attributes : Attributes) (content : Bytes)
  | symlink (attributes : Attributes) (target : Bytes)
  | special (kind : Special) (attributes : Attributes)

/-- Whether a user may make an entry with these attributes. -/
def User.mayOwn (u : User) (a : Attributes) : Bool :=
  u.privileged || (a.uid = u.uid && a.gid = u.gid)

mutual

/-- Whether a user may make a node and all that is below it. -/
def Node.allowed (u : User) : Node → Bool
  | .directory a children => u.mayOwn a && Node.allAllowed u children
  | .file a _ => u.mayOwn a
  | .symlink a _ => u.mayOwn a
  | .special (.characterDevice _) a => u.privileged && u.mayOwn a
  | .special (.blockDevice _) a => u.privileged && u.mayOwn a
  | .special _ a => u.mayOwn a

/-- Whether a user may make all of some nodes. -/
def Node.allAllowed (u : User) : List (Name × Node) → Bool
  | [] => true
  | (_, n) :: rest => n.allowed u && Node.allAllowed u rest

end

mutual

/-- How many directories a node has. -/
def Node.directories : Node → Nat
  | .directory _ children => Node.allDirectories children + 1
  | _ => 0

/-- How many directories some nodes have. -/
def Node.allDirectories : List (Name × Node) → Nat
  | [] => 0
  | (_, n) :: rest => n.directories + Node.allDirectories rest

end

namespace Store

mutual

/-- Makes a node, as yet listed nowhere. -/
def plant (s : Store) : Node → Store × Entry
  | .file a content => (s, .file a content)
  | .symlink a target => (s, .symlink a target)
  | .special k a => (s, .special k a)
  | .directory a children =>
    let d := s.size
    let (s, listing) := plantAll (s.addDirectory .vacant) ∅ children
    (s.setDirectory d ⟨a, listing⟩, .directory d)

/-- Makes some nodes and lists them after those of `done`. -/
def plantAll (s : Store) (done : Listing) : List (Name × Node) → Store × Listing
  | [] => (s, done)
  | (name, n) :: rest =>
    let (s, e) := plant s n
    plantAll s (done.insert name e) rest

end

/-- Changes the listing of a directory. -/
def modifyListing (s : Store) (d : DirectoryId) (change : Listing → Listing) : Store :=
  let dir := s.directory d
  s.setDirectory d { dir with listing := change dir.listing }

/-- The directory that the last component of a path is looked up in, and that component. -/
def splitLast (s : Store) (u : User) (d : DirectoryId) (path : Bytes) :
    Except Refusal (DirectoryId × Name) :=
  let cs := (Path.components path).filter fun c => !c.isEmpty
  let last := cs.getLast?.getD []
  match Name.ofBytes? last with
  | none => .error (if Name.maxLength < last.length then .nameTooLong else .invalidArgument)
  | some name => do
    match ← s.follow u true Path.maxLinks d cs.dropLast with
    | .directory parent =>
      if u.may .search (s.directory parent).attributes then .ok (parent, name)
      else .error .accessDenied
    | _ => .error .notDirectory

/-- Checks that a user may add names to a directory and take names from it. -/
def checkWritable (s : Store) (u : User) (d : DirectoryId) : Except Refusal Unit :=
  if u.may .write (s.directory d).attributes then .ok () else .error .accessDenied

/-- The directories at and below an entry, found in at most so many steps down. -/
def below (s : Store) : Nat → Entry → List DirectoryId
  | 0, _ => []
  | steps + 1, .directory d =>
    d :: (s.directory d).listing.entries.flatMap fun e => s.below steps e.2
  | _, _ => []

/-- Whether a user may empty a directory. -/
def mayEmpty (s : Store) (u : User) (d : DirectoryId) : Bool :=
  let dir := s.directory d
  u.may .read dir.attributes &&
    (dir.listing.entries.isEmpty ||
      (u.may .write dir.attributes && u.may .search dir.attributes))

end Store

/-- A change to a file system. -/
inductive Change where
  | put (path : Bytes) (node : Node)
  | remove (path : Bytes)
  | rename (source target : Bytes)
  | chmod (path : Bytes) (permissions : BitVec 12)
  | chown (path : Bytes) (uid gid : UInt32)
  | relabel (path : Bytes) (label : Bytes)

namespace Store

/-- The entry at a path below `base`, with the directory that lists it and its name there. -/
def find (s : Store) (u : User) (base : DirectoryId) (path : Bytes) :
    Except Refusal (DirectoryId × Name × Entry) := do
  let (parent, name) ← s.splitLast u base path
  match (s.directory parent).listing.find? name.bytes with
  | some e => .ok (parent, name, e)
  | none => .error .noEntry

end Store

/-- Where the attributes of an entry are kept: a directory has them in the table, whatever lists it,
and all else has them in the listing that names it. -/
inductive Place where
  | directory (d : DirectoryId)
  | listed (parent : DirectoryId) (name : Name) (e : Entry)

namespace Store

/-- The place of the entry at a path below `base`. -/
def placeAt (s : Store) (u : User) (base : DirectoryId) (path : Bytes) : Except Refusal Place := do
  match ← s.find u base path with
  | (_, _, .directory d) => .ok (.directory d)
  | (parent, name, e) => .ok (.listed parent name e)

/-- The place of the entry at a path below `base`, or of the one behind it if links stand there,
through at most so many links. -/
def placeThrough (s : Store) (u : User) : Nat → DirectoryId → Bytes → Except Refusal Place
  | 0, _, _ => .error .tooManyLinks
  | links + 1, base, path => do
    match ← s.placeAt u base path with
    | .listed parent _ (.symlink _ target) =>
      s.placeThrough u links (if Path.isAbsolute target then root else parent) target
    | place => .ok place

/-- The place of what a path below `base` leads to. A directory is known once the path is followed;
all else has to be found again where it is listed. -/
def placeBehind (s : Store) (u : User) (base : DirectoryId) (path : Bytes) :
    Except Refusal Place := do
  match ← s.follow u true Path.maxLinks base (Path.components path) with
  | .directory d => .ok (.directory d)
  | _ => s.placeThrough u (Path.maxLinks + 1) base path

/-- The attributes at a place. -/
def attributesAt (s : Store) : Place → Attributes
  | .directory d => (s.directory d).attributes
  | .listed _ _ e => s.attributes e

/-- Puts new attributes at a place. -/
def setAttributes (s : Store) (place : Place) (a : Attributes) : Store :=
  match place with
  | .directory d => s.setDirectory d { s.directory d with attributes := a }
  | .listed parent name _ => s.modifyListing parent fun l => l.modify name fun
    | .directory d => .directory d
    | .file _ content => .file a content
    | .symlink _ target => .symlink a target
    | .special k _ => .special k a

/-- Changes the attributes at a place, which the user must own. -/
def changeAttributes (s : Store) (u : User) (place : Place)
    (change : Attributes → Except Refusal Attributes) : Except Refusal Store :=
  let a := s.attributesAt place
  if u.privileged || u.uid = a.uid then do
    let a ← change a
    .ok (s.setAttributes place a)
  else .error .notPermitted

/-- Checks that a user may move an entry from one directory to another. A directory that comes to
lie in another one has a new parent, for which it has to be written itself. -/
def checkMovable (s : Store) (u : User) (old new : DirectoryId) (e : Entry) :
    Except Refusal Unit := do
  s.checkWritable u old
  s.checkWritable u new
  match e with
  | .directory d => if old = new then .ok () else s.checkWritable u d
  | _ => .ok ()

/-- The store after a change at paths below `base`. A link has no permissions of its own, so those
of what it leads to are changed. -/
def apply (s : Store) (u : User) (base : DirectoryId) : Change → Except Refusal Store
  | .put path node => do
    let (parent, name) ← s.splitLast u base path
    if ((s.directory parent).listing.find? name.bytes).isSome then .error .exists
    else do
      s.checkWritable u parent
      if node.allowed u then
        let (s, e) := s.plant node
        .ok (s.modifyListing parent fun l => l.insert name e)
      else .error .notPermitted
  | .remove path => do
    let (parent, name, e) ← s.find u base path
    s.checkWritable u parent
    let gone := s.below s.size e
    if gone.all (s.mayEmpty u) then
      let s := gone.foldl (fun s d => s.modifyListing d fun _ => ∅) s
      .ok (s.modifyListing parent fun l => l.erase name)
    else .error .accessDenied
  | .rename source target => do
    let (old, name) ← s.splitLast u base source
    let (new, newName) ← s.splitLast u base target
    match (s.directory old).listing.find? name.bytes with
    | none => .error .noEntry
    | some e =>
      if (s.below s.size e).contains new then .error .invalidArgument
      else if ((s.directory new).listing.find? newName.bytes).isSome then .error .exists
      else do
        s.checkMovable u old new e
        .ok ((s.modifyListing old fun l => l.erase name).modifyListing new
          fun l => l.insert newName e)
  | .chmod path permissions => do
    let place ← s.placeBehind u base path
    s.changeAttributes u place fun a => .ok { a with permissions }
  | .chown path uid gid => do
    let place ← s.placeAt u base path
    s.changeAttributes u place fun a =>
      if u.mayOwn { a with uid, gid } then .ok { a with uid, gid } else .error .notPermitted
  | .relabel path label => do
    let place ← s.placeAt u base path
    s.changeAttributes u place fun a => .ok { a with label }

/-- The store after some changes, one after the other. -/
def applyAll (s : Store) (u : User) (base : DirectoryId) (changes : List Change) :
    Except Refusal Store :=
  changes.foldlM (fun s c => s.apply u base c) s

end Store

end TreeComparison

import TreeComparison.FileSystem.Lookup
import TreeComparison.Text.Escape

/-!
What can be asked of an open directory. A handle is the place of the directory in the table, so it
stays with its directory whatever becomes of the path that it was opened by. Each question is
answered for a user, whose access is checked anew every time. Labels are asked for by a path of the
open directory that starts at the root, so they depend on the root as well.
-/

namespace TreeComparison

/-- The stream of a special entry. A reader who waits for the writers of a pipe has all that they
write, and one who does not wait finds the pipe at its end. -/
def Special.stream (waits : Bool) : Special → Except Refusal (List Chunk)
  | .fifo written => .ok (if waits then [.data written] else [])
  | .socket => .error .noDevice
  | .characterDevice (.supplies chunks) => .ok chunks
  | .characterDevice (.refuses refusal) => .error refusal
  | .blockDevice (.supplies chunks) => .ok chunks
  | .blockDevice (.refuses refusal) => .error refusal

namespace Store

/-- A directory handle, if the entry is a directory that the user may read. -/
def openEntry (s : Store) (u : User) : Entry → Except Refusal DirectoryId
  | .directory d =>
    if u.may .read (s.directory d).attributes then .ok d else .error .accessDenied
  | _ => .error .notDirectory

/-- Opens the directory that a path leads to from `start`. Links are followed. -/
def openRoot (s : Store) (u : User) (start : DirectoryId) (path : Bytes) :
    Except Refusal DirectoryId :=
  if 0x00 ∈ path then .error .invalidArgument
  else s.locate u true start path >>= s.openEntry u

/-- Opens a directory in a directory. A link is not followed. -/
def openDirectory (s : Store) (u : User) (d : DirectoryId) (name : Bytes) :
    Except Refusal DirectoryId :=
  s.locate u false d name >>= s.openEntry u

/-- The stream of an entry's content, if the user may read it. A link has none. A directory can be
opened, but reading it fails. -/
def stream (s : Store) (u : User) (waits : Bool) (e : Entry) : Except Refusal (List Chunk) :=
  let readable := u.may .read (s.attributes e)
  match e with
  | .symlink _ _ => .error .tooManyLinks
  | .directory _ =>
    if readable then .ok [.fault (.system .isDirectory)] else .error .accessDenied
  | .file _ content => if readable then .ok [.data content] else .error .accessDenied
  | .special kind _ => if readable then kind.stream waits else .error .accessDenied

/-- Opens an entry of a directory for reading, without waiting, and gives the stream of its content.
A link is not followed. -/
def openFile (s : Store) (u : User) (d : DirectoryId) (name : Bytes) :
    Except Refusal (List Chunk) :=
  s.locate u false d name >>= s.stream u false

/-- The content of what a path leads to from `start`, read to its end. Links are followed. -/
def readFile (s : Store) (u : User) (start : DirectoryId) (path : Bytes) : Except Fault Bytes :=
  match s.locate u true start path >>= s.stream u true with
  | .ok chunks => (Stream.drain chunks).content
  | .error r => .error (.system r)

/-- Whether a path leads from `start` to a regular file. -/
def isFile (s : Store) (u : User) (start : DirectoryId) (path : Bytes) : Bool :=
  match s.locate u true start path with
  | .ok (.file _ _) => true
  | _ => false

/-- One look at an entry. A link is not followed. -/
def stat (s : Store) (u : User) (d : DirectoryId) (name : Bytes) : Except Refusal Snapshot :=
  (s.locate u false d name).map s.snapshot

/-- One look at the directory itself. -/
def statSelf (s : Store) (d : DirectoryId) : Snapshot := s.snapshot (.directory d)

/-- The target of a link, as it is stored. -/
def readLink (s : Store) (u : User) (d : DirectoryId) (name : Bytes) : Except Refusal Bytes := do
  match ← s.locate u false d name with
  | .symlink _ target => .ok target
  | _ => .error .invalidArgument

/-- The names in a directory. -/
def names (s : Store) (u : User) (d : DirectoryId) : Except Refusal (List Name) :=
  let dir := s.directory d
  if u.may .search dir.attributes && u.may .read dir.attributes then .ok dir.listing.names
  else .error .accessDenied

/-- The security label of an entry, or of the directory itself if no name is given. The empty name
also stands for the directory, and is not even looked up. There is no question to a handle that a
label would answer: it is asked for by a path through the list of what the process has open, so the
user must be allowed to search the root, where the path starts. -/
def securityLabel (s : Store) (u : User) (d : DirectoryId) (name : Option Bytes) :
    Except Refusal String :=
  if !u.may .search (s.directory root).attributes then .error .accessDenied
  else match name with
  | some [] => .ok (normalizeLabel (s.directory d).attributes.label)
  | name =>
    (s.locate u false d (name.getD Path.here)).map fun e => normalizeLabel (s.attributes e).label

end Store

end TreeComparison

import TreeComparison.FileSystem.Basic

/-!
Following paths. A path is a list of components; each is looked up in the directory that the ones
before it lead to, which the user must be allowed to search. A link in the middle of a path is
followed, and one at its end if that is asked for; after forty links the search is given up.
-/

namespace TreeComparison

namespace Path

/-- The component that leads to the directory itself. -/
def here : Bytes := [0x2E]

/-- The component that leads to the directory above. -/
def above : Bytes := [0x2E, 0x2E]

/-- The components of a path. Between two slashes, and before or after one at an end, there is an
empty component, which leads nowhere else but can only be passed in a directory. -/
def components : Bytes → List Bytes
  | [] => [[]]
  | b :: rest =>
    if b = 0x2F then [] :: components rest
    else match components rest with
      | c :: cs => (b :: c) :: cs
      | [] => [[b]]

/-- Whether a path starts at the root, whatever directory it is looked up in. -/
def isAbsolute (path : Bytes) : Bool := path.head? = some 0x2F

/-- The length from which on a path is refused. -/
def maxLength : Nat := 4096

/-- How many links are followed on one path. -/
def maxLinks : Nat := 40

end Path

namespace Store

/-- Looks up one component in a directory. In one that has been removed every name is missing, also
one that is too long. -/
def lookup (s : Store) (u : User) (d : DirectoryId) (component : Bytes) :
    Except Refusal Entry :=
  let dir := s.directory d
  if !u.may .search dir.attributes then .error .accessDenied
  else if component = Path.here then .ok (.directory d)
  else if component = Path.above then .ok (.directory (s.parent d))
  else if Name.maxLength < component.length && !s.isRemoved d then .error .nameTooLong
  else match dir.listing.find? component with
    | some e => .ok e
    | none => .error .noEntry

/-- Follows components from a directory. At a link, `jump` goes on from the directory that holds
it along the components of its target and those that are left. -/
def along (s : Store) (u : User) (followLast : Bool)
    (jump : DirectoryId → List Bytes → Except Refusal Entry) :
    DirectoryId → List Bytes → Except Refusal Entry
  | d, [] => .ok (.directory d)
  | d, c :: rest =>
    if c = [] then along s u followLast jump d rest
    else match s.lookup u d c with
      | .error r => .error r
      | .ok (.directory e) => along s u followLast jump e rest
      | .ok (.symlink a target) =>
        if rest.isEmpty && !followLast then .ok (.symlink a target)
        else jump (if Path.isAbsolute target then root else d) (Path.components target ++ rest)
      | .ok e => if rest.isEmpty then .ok e else .error .notDirectory

/-- Follows components from a directory, through at most so many links. -/
def follow (s : Store) (u : User) (followLast : Bool) :
    Nat → DirectoryId → List Bytes → Except Refusal Entry
  | 0 => s.along u followLast fun _ _ => .error .tooManyLinks
  | links + 1 => s.along u followLast (s.follow u followLast links)

/-- The entry that a path leads to from a directory. -/
def locate (s : Store) (u : User) (followLast : Bool) (d : DirectoryId) (path : Bytes) :
    Except Refusal Entry :=
  if path = [] then .error .noEntry
  else if Path.maxLength ≤ path.length then .error .nameTooLong
  else
    s.follow u followLast Path.maxLinks (if Path.isAbsolute path then root else d)
      (Path.components path)

end Store

end TreeComparison

import TreeComparison.FileSystem.Change
import TreeComparison.Json.Parser

/-!
File systems described in JSON. A byte string is given as text, as an object with its hexadecimal
digits or its text, which may be repeated, or as an array of byte strings to be joined. An entry is
an object with a type, attributes and what its type needs; all but a link's target and an entry's
name may be left out.
-/

namespace TreeComparison.Description

/-- The member of an object with a given name; a member that is null counts as left out. -/
def member? (j : Json) (name : String) : Option Json :=
  match (j.members?.getD []).find? fun m => m.1 = name with
  | some (_, .null) => none
  | some (_, v) => some v
  | none => none

/-- A byte string that is not an array. -/
def simpleBytes? (j : Json) : Option Bytes :=
  match j with
  | .string t => t.map Utf8.encode
  | j => do
    let once ← match member? j "hex" with
      | some h => h.text? >>= fun s => Digits.unhex? s.toList
      | none => (member? j "text" >>= Json.text?).map Utf8.encode
    match member? j "repeat" with
    | some n => n.nat?.map fun n => (List.replicate n once).flatten
    | none => some once

mutual

/-- Reads a byte string. -/
def bytes? : Json → Option Bytes
  | .array items => joined? items
  | j => simpleBytes? j

/-- Reads byte strings and joins them. -/
def joined? : List Json → Option Bytes
  | [] => some []
  | j :: rest => do
    let first ← bytes? j
    let others ← joined? rest
    some (first ++ others)

end

/-- Reads a member if it is there. -/
def optional? (j : Json) (name : String) (read : Json → Option α) (fallback : α) : Option α :=
  match member? j name with
  | some v => read v
  | none => some fallback

/-- Reads permission bits, given in octal digits; bits above the twelfth do not count. -/
def permissions? (j : Json) : Option (BitVec 12) :=
  (j.text? >>= fun s => Digits.read? 8 s.toList).map (BitVec.ofNat 12)

/-- Reads an owner. -/
def owner? (j : Json) : Option UInt32 :=
  j.nat? >>= fun n => if n < UInt32.size then some (UInt32.ofNat n) else none

/-- Reads the attributes of an entry. -/
def attributes? (j : Json) (permissions : BitVec 12) : Option Attributes := do
  let permissions ← optional? j "mode" permissions? permissions
  let uid ← optional? j "uid" owner? 0
  let gid ← optional? j "gid" owner? 0
  let label ← optional? j "label" bytes? []
  some ⟨permissions, uid, gid, label⟩

/-- The special entries by name: pipes that nobody writes to, and devices that are not there. -/
def special? : String → Option Special
  | "fifo" => some (.fifo [])
  | "socket" => some .socket
  | "chardev" => some (.characterDevice (.refuses .noDevice))
  | "blockdev" => some (.blockDevice (.refuses .noDevice))
  | _ => none

/-- Reads a name. -/
def name? (j : Json) : Option Name := bytes? j >>= Name.ofBytes?

/-- An entry below some new directories, the topmost first, each with nothing else in it. -/
def wrapped : List Name → Name × Node → Name × Node
  | [], e => e
  | outer :: rest, e => (outer, .directory ⟨0o755, 0, 0, []⟩ [wrapped rest e])

/-- Reads an entry that is no directory. -/
def leaf? (j : Json) (type : String) : Option Node :=
  match type with
  | "file" => do
    let a ← attributes? j 0o644
    let content ← optional? j "content" bytes? []
    some (.file a content)
  | "symlink" => do
    let a ← attributes? j 0o777
    let target ← member? j "target" >>= bytes?
    some (.symlink { a with permissions := 0o777 } target)
  | type => do
    let kind ← special? type
    let a ← attributes? j 0o644
    some (.special kind a)

/-- Reads a node, with at most so many levels below it. -/
def nodeWithin? : Nat → Json → Option Node
  | 0, _ => none
  | levels + 1, j => do
    let type ← optional? j "type" Json.text? "dir"
    if type = "dir" then
      let a ← attributes? j 0o755
      let entries ← optional? j "entries" (Json.list? some) []
      let children ← entries.mapM fun e => do
        let name ← member? e "name" >>= name?
        let node ← nodeWithin? levels e
        let outer ← optional? e "wrap" (Json.list? name?) []
        some (wrapped outer (name, node))
      some (.directory a children)
    else leaf? j type

mutual

/-- How deep the parts of a JSON value are nested. -/
def depth : Json → Nat
  | .array items => itemsDepth items + 1
  | .object members => membersDepth members + 1
  | _ => 0

/-- How deep the deepest of some items is nested. -/
def itemsDepth : List Json → Nat
  | [] => 0
  | j :: rest => max (depth j) (itemsDepth rest)

/-- How deep the deepest of some members is nested. -/
def membersDepth : List (JsonText × Json) → Nat
  | [] => 0
  | (_, j) :: rest => max (depth j) (membersDepth rest)

end

/-- Reads a node with everything below it. -/
def node? (j : Json) : Option Node := nodeWithin? (depth j + 1) j

/-- The file system whose root is a given directory. -/
def storeOf? : Node → Option Store
  | .directory a children =>
    let (s, listing) := Store.initial.plantAll ∅ children
    some (s.setDirectory Store.root ⟨a, listing⟩)
  | _ => none

/-- Reads the file system that a text describes. -/
def parseStore? (text : String) : Option Store := Json.parse? text >>= node? >>= storeOf?

/-- Reads the changes that can be made to a file system. -/
def change? (j : Json) : Option Change := do
  let kind ← member? j "do" >>= Json.text?
  let path := member? j "at" >>= bytes?
  match kind with
  | "put" => do
    let node ← member? j "node" >>= node?
    some (.put (← path) node)
  | "remove" => path.map .remove
  | "rename" => do
    let source ← member? j "from" >>= bytes?
    let target ← member? j "to" >>= bytes?
    some (.rename source target)
  | "chmod" => do
    let permissions ← member? j "mode" >>= permissions?
    some (.chmod (← path) permissions)
  | "chown" => do
    let uid ← optional? j "uid" owner? 0
    let gid ← optional? j "gid" owner? 0
    some (.chown (← path) uid gid)
  | "label" => do
    let label ← optional? j "label" bytes? []
    some (.relabel (← path) label)
  | _ => none

end TreeComparison.Description

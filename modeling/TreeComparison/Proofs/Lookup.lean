import TreeComparison.FileSystem.Directory
import TreeComparison.Proofs.Association
import TreeComparison.Proofs.Fingerprint

/-!
What the questions about an open directory answer for a name that it may list. Whether there is an
answer depends on the leave to search the directory, and the answer is then about the entry of that
name. The kind of an entry can be read off its mode.
-/

namespace TreeComparison

theorem Listing.find?_eq_some_iff {l : Listing} {n : Name} {e : Entry} :
    l.find? n.bytes = some e ↔ (n, e) ∈ l.entries := by
  have hnodup : (l.entries.map fun x => x.1.bytes).Nodup := by
    have hbytes := l.distinct.map fun m k hmk => Name.ext hmk
    rwa [List.map_map] at hbytes
  rw [find?, Option.map_eq_some_iff]
  constructor
  · rintro ⟨x, hfind, rfl⟩
    obtain ⟨hmem, hkey⟩ := (find?_key_eq_some_iff hnodup).1 hfind
    rwa [← Name.ext hkey]
  · intro hmem
    exact ⟨(n, e), (find?_key_eq_some_iff hnodup).2 ⟨hmem, rfl⟩, rfl⟩

namespace Path

theorem components_of_slash_not_mem : ∀ {b : Bytes}, b ≠ [] → 0x2F ∉ b → components b = [b]
  | [], h, _ => absurd rfl h
  | [c], _, h => by
    have hc : ¬ c = 0x2F := fun hc => h (hc ▸ List.mem_singleton.2 rfl)
    simp [components, hc]
  | c :: d :: rest, _, h => by
    rw [List.mem_cons, not_or] at h
    have hc : ¬ c = 0x2F := fun hc => h.1 hc.symm
    rw [components, if_neg hc, components_of_slash_not_mem (List.cons_ne_nil d rest) h.2]

theorem not_isAbsolute {b : Bytes} (h : 0x2F ∉ b) : isAbsolute b = false := by
  cases b with
  | nil => rfl
  | cons c b =>
    rw [List.mem_cons, not_or] at h
    simp [isAbsolute, Ne.symm h.1]

end Path

namespace Store

/-- The entry that a directory lists by a name. -/
def child (s : Store) (d : DirectoryId) (n : Name) : Option Entry :=
  (s.directory d).listing.find? n.bytes

/-- Whether the user may look names up in a directory. -/
def searchable (s : Store) (u : User) (d : DirectoryId) : Bool :=
  u.may .search (s.directory d).attributes

/-- Whether the user may read labels at all: the paths that they are asked for by start at the
root. -/
def readsLabels (s : Store) (u : User) : Bool := s.searchable u root

/-- Whether the user may open a directory. -/
def readable (s : Store) (u : User) (d : DirectoryId) : Bool :=
  u.may .read (s.directory d).attributes

/-- Whether the user may list a directory. -/
def listable (s : Store) (u : User) (d : DirectoryId) : Bool :=
  s.searchable u d && s.readable u d

variable {s : Store} {u : User} {d : DirectoryId} {n : Name} {e : Entry}

theorem child_eq_some_iff : s.child d n = some e ↔ (n, e) ∈ (s.directory d).listing.entries :=
  Listing.find?_eq_some_iff

theorem names_of_listable (h : s.listable u d = true) :
    s.names u d = .ok (s.directory d).listing.names := if_pos h

theorem names_of_not_listable (h : s.listable u d = false) :
    s.names u d = .error .accessDenied := if_neg (Bool.eq_false_iff.1 h)

/-! ### Looking up a name -/

theorem follow_singleton {b : Bytes} (hb : b ≠ []) :
    s.follow u false Path.maxLinks d [b] = s.lookup u d b := by
  rw [Path.maxLinks, follow, along, if_neg hb]
  cases h : s.lookup u d b with
  | error r => rfl
  | ok e => cases e <;> simp [along]

theorem locate_eq_lookup {b : Bytes} (hb : b ≠ []) (hs : 0x2F ∉ b)
    (hlen : b.length ≤ Name.maxLength) : s.locate u false d b = s.lookup u d b := by
  have hmax : ¬ Path.maxLength ≤ b.length := by
    simp only [Name.maxLength, Path.maxLength] at *; omega
  rw [locate, if_neg hb, if_neg hmax, Path.not_isAbsolute hs,
    Path.components_of_slash_not_mem hb hs]
  exact follow_singleton hb

theorem lookup_of_not_searchable {b : Bytes} (h : s.searchable u d = false) :
    s.lookup u d b = .error .accessDenied := by
  rw [lookup]; exact if_pos (by simpa [searchable] using h)

theorem lookup_name (h : s.searchable u d = true) :
    s.lookup u d n.bytes = (s.child d n).elim (.error .noEntry) .ok := by
  obtain ⟨-, -, -, hhere, habove, hlen⟩ := n.proper
  have hsearch : u.may .search (s.directory d).attributes = true := h
  have hlong : ¬ Name.maxLength < n.bytes.length := by omega
  simp only [lookup, hsearch, Path.here, Path.above, hhere, habove, hlong, child]
  cases (s.directory d).listing.find? n.bytes <;> rfl

theorem locate_name : s.locate u false d n.bytes = s.lookup u d n.bytes :=
  locate_eq_lookup n.proper.1 n.proper.2.1 n.proper.2.2.2.2.2

theorem locate_of_not_searchable (h : s.searchable u d = false) :
    s.locate u false d n.bytes = .error .accessDenied := by
  rw [locate_name, lookup_of_not_searchable h]

theorem locate_of_child (h : s.searchable u d = true) (hn : s.child d n = some e) :
    s.locate u false d n.bytes = .ok e := by rw [locate_name, lookup_name h, hn]; rfl

theorem locate_of_no_child (h : s.searchable u d = true) (hn : s.child d n = none) :
    s.locate u false d n.bytes = .error .noEntry := by rw [locate_name, lookup_name h, hn]; rfl

theorem locate_here : s.locate u false d Path.here =
    if s.searchable u d then .ok (.directory d) else .error .accessDenied := by
  rw [locate_eq_lookup (by decide) (by decide) (by decide), lookup]
  cases h : u.may .search (s.directory d).attributes <;> simp [searchable, h]

end Store

/-! ### Kinds -/

/-- The kind of an entry. -/
def Entry.kind : Entry → EntryKind
  | .directory _ => .directory
  | .file _ _ => .file
  | .symlink _ _ => .symlink
  | .special _ _ => .other

/-- Permission bits do not reach up to the type. -/
theorem permissions_and_typeMask (p : BitVec 12) : p.toNat &&& 0o170000 = 0 := by
  refine Nat.eq_of_testBit_eq fun i => ?_
  rw [Nat.testBit_and, Nat.zero_testBit, show 0o170000 = 15 <<< 12 from rfl,
    Nat.testBit_shiftLeft]
  by_cases hi : i < 12
  · simp [Nat.not_le.2 hi]
  · have hp : p.toNat < 2 ^ i :=
      Nat.lt_of_lt_of_le p.isLt (Nat.pow_le_pow_right (by decide) (by omega))
    simp [Nat.testBit_lt_two_pow hp]

/-- The types that an entry can have. -/
def entryTypes : List Nat :=
  [0o040000, 0o100000, 0o120000, 0o010000, 0o140000, 0o020000, 0o060000]

theorem typeBits_mem_entryTypes (e : Entry) : e.typeBits ∈ entryTypes := by
  rcases e with _ | _ | _ | ⟨_ | _ | _ | _, _⟩ <;> simp [Entry.typeBits, entryTypes]

theorem typeBits_typeBits (e : Entry) : typeBits e.typeBits = e.typeBits := by
  have h : ∀ t ∈ entryTypes, typeBits t = t := by decide
  exact h _ (typeBits_mem_entryTypes e)

theorem typeBits_or (e : Entry) (p : BitVec 12) :
    typeBits (e.typeBits ||| p.toNat) = e.typeBits := by
  rw [typeBits, Nat.and_or_distrib_right, permissions_and_typeMask, Nat.or_zero]
  exact typeBits_typeBits e

namespace Store

variable {s : Store} {u : User} {d : DirectoryId} {n : Name} {e : Entry}

/-- One look at an entry shows what it is. -/
@[simp] theorem kind_snapshot (s : Store) (e : Entry) : (s.snapshot e).kind = e.kind := by
  rw [Snapshot.kind, snapshot, EntryKind.ofMode, typeBits_or]
  rcases e with _ | _ | _ | ⟨_ | _ | _ | _, _⟩ <;> simp [Entry.typeBits, Entry.kind]

theorem kind_eq_of_mode_eq {x y : Entry} (h : (s.snapshot x).mode = (s.snapshot y).mode) :
    x.kind = y.kind := by
  rw [← kind_snapshot s x, ← kind_snapshot s y, Snapshot.kind, Snapshot.kind, h]

/-! ### Questions about a name -/

theorem stat_of_not_searchable (h : s.searchable u d = false) :
    s.stat u d n.bytes = .error .accessDenied := by rw [stat, locate_of_not_searchable h]; rfl

theorem stat_of_child (h : s.searchable u d = true) (hn : s.child d n = some e) :
    s.stat u d n.bytes = .ok (s.snapshot e) := by rw [stat, locate_of_child h hn]; rfl

theorem stat_of_no_child (h : s.searchable u d = true) (hn : s.child d n = none) :
    s.stat u d n.bytes = .error .noEntry := by rw [stat, locate_of_no_child h hn]; rfl

theorem openDirectory_of_child {c : DirectoryId} (h : s.searchable u d = true)
    (hn : s.child d n = some (.directory c)) :
    s.openDirectory u d n.bytes = if s.readable u c then .ok c else .error .accessDenied := by
  rw [openDirectory, locate_of_child h hn]; rfl

theorem openFile_of_child {a : Attributes} {content : Bytes} (h : s.searchable u d = true)
    (hn : s.child d n = some (.file a content)) :
    s.openFile u d n.bytes =
      if u.may .read a then .ok [.data content] else .error .accessDenied := by
  rw [openFile, locate_of_child h hn]; rfl

theorem readLink_of_child {a : Attributes} {target : Bytes} (h : s.searchable u d = true)
    (hn : s.child d n = some (.symlink a target)) : s.readLink u d n.bytes = .ok target := by
  rw [readLink, locate_of_child h hn]; rfl

theorem securityLabel_of_not_readsLabels {name : Option Bytes} (h : s.readsLabels u = false) :
    s.securityLabel u d name = .error .accessDenied := by
  have hroot : u.may .search (s.directory root).attributes = false := h
  unfold securityLabel
  rw [hroot]
  rfl

theorem securityLabel_of_readsLabels {name : Option Bytes} (h : s.readsLabels u = true)
    (hname : name ≠ some []) : s.securityLabel u d name =
      (s.locate u false d (name.getD Path.here)).map fun e =>
        normalizeLabel (s.attributes e).label := by
  have hroot : u.may .search (s.directory root).attributes = true := h
  unfold securityLabel
  rw [hroot]
  cases name with
  | none => rfl
  | some b =>
    cases b with
    | nil => exact absurd rfl hname
    | cons c b => rfl

theorem securityLabel_of_child (hl : s.readsLabels u = true) (h : s.searchable u d = true)
    (hn : s.child d n = some e) :
    s.securityLabel u d (some n.bytes) = .ok (normalizeLabel (s.attributes e).label) := by
  rw [securityLabel_of_readsLabels hl fun hb => n.proper.1 (Option.some.inj hb), Option.getD_some,
    locate_of_child h hn]
  rfl

theorem securityLabel_self : s.securityLabel u d none =
    if s.readsLabels u && s.searchable u d then
      .ok (normalizeLabel (s.directory d).attributes.label)
    else .error .accessDenied := by
  cases hl : s.readsLabels u with
  | false => exact securityLabel_of_not_readsLabels hl
  | true =>
    rw [securityLabel_of_readsLabels hl (by simp), Option.getD_none, locate_here]
    cases s.searchable u d <;> rfl

end Store

end TreeComparison

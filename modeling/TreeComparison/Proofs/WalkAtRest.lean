import TreeComparison.Proofs.Tree
import TreeComparison.Walk.Run

/-!
What a walk over a file system at rest notes down, as plain lists over the entries of the
directories it meets. Each part of a walk has one equation, which names the leave that the user has
or lacks; what is below two directories is again the list of a walk.
-/

namespace TreeComparison

/-- The fault of an operation that the user has no leave for. -/
abbrev denied : Fault := .system .accessDenied

namespace Store

variable {s : Store} {u : User} {h : HashAlgorithm} {k : Nat} {a b c d : DirectoryId} {n : Name}
  {x y : Entry} {path : String}

/-- The entries of a directory with their names. -/
def entries (s : Store) (d : DirectoryId) : List (Name × Entry) := (s.directory d).listing.entries

theorem child_of_mem_entries {e : Name × Entry} (he : e ∈ s.entries d) :
    s.child d e.1 = some e.2 := child_eq_some_iff.2 he

theorem mem_entries_of_child (hx : s.child d n = some x) : (n, x) ∈ s.entries d :=
  child_eq_some_iff.1 hx

/-! ### One side alone -/

/-- The paths of everything below an entry of the given path. -/
def pathsUnder (s : Store) (u : User) (k : Nat) (x : Entry) (path : String) : List String :=
  match x with
  | .directory c => if s.readable u c then (Walk.subtree u k c path).value s else []
  | _ => []

/-- What is noted down while the paths below an entry are listed. -/
def notesUnder (s : Store) (u : User) (k : Nat) (x : Entry) (path : String) : List Finding :=
  match x with
  | .directory c =>
    if s.readable u c then (Walk.subtree u k c path).findings s
    else [.skipped path .openDirectory denied]
  | _ => []

theorem value_pathsOf (hd : s.searchable u d = true) : ∀ {es : List (Name × Entry)},
    (∀ e ∈ es, s.child d e.1 = some e.2) →
    (Walk.pathsOf u (Walk.subtree u k) d path (es.map (·.1))).value s = es.flatMap fun e =>
      joinPath path e.1.bytes :: s.pathsUnder u k e.2 (joinPath path e.1.bytes)
  | [], _ => rfl
  | (n, x) :: es, hes => by
    obtain ⟨hx, hes⟩ := List.forall_mem_cons.1 hes
    have ih := value_pathsOf hd hes
    rw [List.map_cons, Walk.pathsOf]
    cases x with
    | directory c =>
      cases hc : s.readable u c <;>
        simp [stat_of_child hd hx, openDirectory_of_child hd hx, Snapshot.isDirectory, Entry.kind,
          pathsUnder, hc, ih]
    | _ => simp [stat_of_child hd hx, Snapshot.isDirectory, Entry.kind, pathsUnder, ih]

theorem findings_pathsOf (hd : s.searchable u d = true) : ∀ {es : List (Name × Entry)},
    (∀ e ∈ es, s.child d e.1 = some e.2) →
    (Walk.pathsOf u (Walk.subtree u k) d path (es.map (·.1))).findings s = es.flatMap fun e =>
      .enumerated (joinPath path e.1.bytes) :: s.notesUnder u k e.2 (joinPath path e.1.bytes)
  | [], _ => rfl
  | (n, x) :: es, hes => by
    obtain ⟨hx, hes⟩ := List.forall_mem_cons.1 hes
    have ih := findings_pathsOf hd hes
    rw [List.map_cons, Walk.pathsOf]
    cases x with
    | directory c =>
      cases hc : s.readable u c <;>
        simp [stat_of_child hd hx, openDirectory_of_child hd hx, Snapshot.isDirectory, Entry.kind,
          notesUnder, hc, ih, Walk.skip]
    | _ => simp [stat_of_child hd hx, Snapshot.isDirectory, Entry.kind, notesUnder, ih]

theorem searchable_of_listable (hd : s.listable u d = true) : s.searchable u d = true :=
  (Bool.and_eq_true_iff.1 hd).1

theorem readable_of_listable (hd : s.listable u d = true) : s.readable u d = true :=
  (Bool.and_eq_true_iff.1 hd).2

theorem value_subtree_of_listable (hd : s.listable u d = true) :
    (Walk.subtree u (k + 1) d path).value s = (s.entries d).flatMap fun e =>
      joinPath path e.1.bytes :: s.pathsUnder u k e.2 (joinPath path e.1.bytes) := by
  rw [Walk.subtree]
  simp only [Walk.bind_eq, Walk.value_andThen, Walk.value_ask, names_of_listable hd]
  exact value_pathsOf (searchable_of_listable hd) fun _ => child_of_mem_entries

theorem findings_subtree_of_listable (hd : s.listable u d = true) :
    (Walk.subtree u (k + 1) d path).findings s = (s.entries d).flatMap fun e =>
      .enumerated (joinPath path e.1.bytes) :: s.notesUnder u k e.2 (joinPath path e.1.bytes) := by
  rw [Walk.subtree]
  simp only [Walk.bind_eq, Walk.findings_andThen, Walk.value_ask, Walk.findings_ask,
    names_of_listable hd, List.nil_append]
  exact findings_pathsOf (searchable_of_listable hd) fun _ => child_of_mem_entries

theorem subtree_of_not_listable (hd : s.listable u d = false) :
    (Walk.subtree u (k + 1) d path).value s = [] ∧
      (Walk.subtree u (k + 1) d path).findings s = [.skipped path .readDir denied] := by
  simp [Walk.subtree, names_of_not_listable hd, Walk.skip]

/-- What is noted down for an entry that only one side has. -/
def oneSidedNotes (s : Store) (u : User) (k : Nat) (side : Side) (x : Entry) (path : String) :
    List Finding :=
  .unmatched path side :: (s.notesUnder u k x path ++
    (path :: s.pathsUnder u k x path).map (.only side))

theorem findings_oneSided {side : Side} (hd : s.searchable u d = true)
    (hx : s.child d n = some x) :
    (Walk.oneSided u k side d n path).findings s = s.oneSidedNotes u k side x path := by
  rw [Walk.oneSided]
  cases x with
  | directory c =>
    cases hc : s.readable u c <;>
      simp [stat_of_child hd hx, openDirectory_of_child hd hx, Snapshot.isDirectory, Entry.kind,
        Except.toOption, oneSidedNotes, notesUnder, pathsUnder, hc, Walk.skip]
  | _ =>
    simp [stat_of_child hd hx, Snapshot.isDirectory, Entry.kind, Except.toOption, oneSidedNotes,
      notesUnder, pathsUnder]

/-! ### Both sides -/

/-- The label of an entry as it is compared. -/
def labelOf (s : Store) (x : Entry) : String := normalizeLabel (s.attributes x).label

/-- What is noted down for two entries of one path and one mode, and for what is below them. -/
def bodyNotes (s : Store) (u : User) (h : HashAlgorithm) (k : Nat) (path : String) :
    Entry → Entry → List Finding
  | .symlink _ target, .symlink _ target' =>
    if target = target' then []
    else [.differs path .symlink (.text (escape target)) (.text (escape target'))]
  | .file a content, .file a' content' =>
    if u.may .read a && u.may .read a' then
      differing path .content (.text (h.fingerprintOf content)) (.text (h.fingerprintOf content'))
    else [.skipped path .openFile denied]
  | .directory c, .directory d =>
    if s.readable u c && s.readable u d then (Walk.level u h k c d path).findings s
    else [.skipped path .openDirectory denied]
  | _, _ => []

/-- What is noted down for the labels of two entries. If they cannot be read, both count as
empty. -/
def labelNotes (s : Store) (u : User) (x y : Entry) (path : String) : List Finding :=
  if s.readsLabels u then differing path .selinux (.text (s.labelOf x)) (.text (s.labelOf y))
  else [.unreadableLabel path denied, .unreadableLabel path denied]

/-- What is noted down for two entries of one path, and for what is below them. -/
def pairNotes (s : Store) (u : User) (h : HashAlgorithm) (k : Nat) (x y : Entry) (path : String) :
    List Finding :=
  s.labelNotes u x y path ++
    (metadataFindings (s.snapshot x) (s.snapshot y) path ++
      if s.modeOf x = s.modeOf y then s.bodyNotes u h k path x y else [])

@[simp] theorem both_ok_ok {α : Type} (p q : α) : Walk.both (.ok p) (.ok q) = .ok (p, q) := rfl

@[simp] theorem both_error {α : Type} (r : Refusal) (q : Except Refusal α) :
    Walk.both (.error r) q = .error r := rfl

@[simp] theorem both_ok_error {α : Type} (p : α) (r : Refusal) :
    Walk.both (.ok p) (.error r) = .error r := rfl

theorem fingerprints_data (content content' : Bytes) :
    Walk.fingerprints h [.data content] [.data content']
      = .ok (h.fingerprintOf content, h.fingerprintOf content') := by
  rw [Walk.fingerprints, fingerprint_data, fingerprint_data]; rfl

section Pair

variable (ha : s.searchable u a = true) (hb : s.searchable u b = true)
include ha hb

theorem findings_compareSecurityLabel (hx : s.child a n = some x) (hy : s.child b n = some y) :
    (Walk.compareSecurityLabel u a b (some n.bytes) path).findings s = s.labelNotes u x y path := by
  cases hl : s.readsLabels u with
  | true =>
    simp [Walk.compareSecurityLabel, Walk.compareLabels, Walk.readLabel, Walk.labelOr, labelNotes,
      hl, securityLabel_of_child hl ha hx, securityLabel_of_child hl hb hy, Except.mapError,
      labelOf]
  | false =>
    simp [Walk.compareSecurityLabel, Walk.compareLabels, Walk.readLabel, Walk.labelOr, labelNotes,
      hl, securityLabel_of_not_readsLabels hl, Except.mapError, differing]

theorem findings_compareSymlink {p q : Attributes} {target target' : Bytes}
    (hx : s.child a n = some (.symlink p target)) (hy : s.child b n = some (.symlink q target')) :
    (Walk.compareSymlink u a b n.bytes path).findings s
      = s.bodyNotes u h k path (.symlink p target) (.symlink q target') := by
  rw [Walk.compareSymlink]
  simp only [Walk.bind_eq, Walk.findings_andThen, Walk.value_ask, Walk.findings_ask,
    readLink_of_child ha hx, readLink_of_child hb hy, bodyNotes]
  by_cases heq : target = target' <;> simp [heq]

theorem findings_compareContent {p q : Attributes} {content content' : Bytes}
    (hx : s.child a n = some (.file p content)) (hy : s.child b n = some (.file q content')) :
    (Walk.compareContent u h a b n.bytes path).findings s
      = s.bodyNotes u h k path (.file p content) (.file q content') := by
  rw [Walk.compareContent]
  simp only [Walk.bind_eq, Walk.findings_andThen, Walk.value_ask, Walk.findings_ask,
    openFile_of_child ha hx, openFile_of_child hb hy, bodyNotes]
  cases hp : u.may .read p <;> cases hq : u.may .read q <;>
    simp [fingerprints_data, Walk.skip]

theorem findings_descend {c d : DirectoryId} (hx : s.child a n = some (.directory c))
    (hy : s.child b n = some (.directory d)) :
    (Walk.descend u (Walk.level u h k) a b n path).findings s
      = s.bodyNotes u h k path (.directory c) (.directory d) := by
  rw [Walk.descend]
  simp only [Walk.bind_eq, Walk.findings_andThen, Walk.value_ask, Walk.findings_ask,
    openDirectory_of_child ha hx, openDirectory_of_child hb hy, bodyNotes]
  cases hc : s.readable u c <;> cases hd : s.readable u d <;> simp [Walk.skip]

theorem findings_comparePair (hx : s.child a n = some x) (hy : s.child b n = some y) :
    (Walk.comparePair u h (Walk.level u h k) a b n path (s.snapshot y)).findings s
      = s.pairNotes u h k x y path := by
  have hlabel : (Walk.compareSecurityLabel u a b (some n.bytes) path).findings s = _ :=
    findings_compareSecurityLabel ha hb hx hy
  rw [Walk.comparePair]
  simp only [Walk.bind_eq, Walk.findings_andThen, Walk.value_ask, Walk.findings_ask,
    stat_of_child ha hx, hlabel, Walk.compareMetadata, Walk.findings_foundAll, pairNotes]
  by_cases hmode : s.modeOf x = s.modeOf y
  · have hkind := kind_eq_of_mode_eq hmode
    rw [modeOf, modeOf] at hmode
    cases x <;> cases y <;> simp only [Entry.kind, reduceCtorEq] at hkind
    case directory =>
      simp [comparability, modeOf, hmode, Entry.kind, findings_descend ha hb hx hy]
    case file =>
      simp [comparability, modeOf, hmode, Entry.kind, findings_compareContent (k := k) ha hb hx hy]
    case symlink =>
      simp [comparability, modeOf, hmode, Entry.kind,
        findings_compareSymlink (h := h) (k := k) ha hb hx hy]
    case special => simp [comparability, modeOf, hmode, Entry.kind, bodyNotes]
  · rw [modeOf, modeOf] at hmode
    simp [comparability, modeOf, hmode]

end Pair

/-! ### One level -/

/-- What the primary pass notes down for an entry of A that has the given name. -/
def visitNotes (s : Store) (u : User) (h : HashAlgorithm) (k : Nat) (b : DirectoryId) (n : Name)
    (x : Entry) (path : String) : List Finding :=
  .visiting path ::
    if s.searchable u b then
      match s.child b n with
      | none => s.oneSidedNotes u k .deleted x path
      | some y => s.pairNotes u h k x y path
    else [.skipped path .stat denied]

/-- What the sweep notes down: the names of B that A does not have. -/
def sweepNotes (s : Store) (u : User) (k : Nat) (a b : DirectoryId) (path : String) :
    List Finding :=
  if s.listable u b then
    ((s.entries b).filter fun e => (s.child a e.1).isNone).flatMap fun e =>
      s.oneSidedNotes u k .added e.2 (joinPath path e.1.bytes)
  else [.skipped path .readDir denied]

theorem findings_visit (ha : s.searchable u a = true) (hx : s.child a n = some x) :
    (Walk.visit u h k (Walk.level u h k) a b path n).findings s
      = s.visitNotes u h k b n x (joinPath path n.bytes) := by
  rw [Walk.visit, visitNotes]
  simp only [Walk.bind_eq, Walk.findings_andThen, Walk.findings_found, Walk.value_ask,
    Walk.findings_ask, List.singleton_append, List.nil_append]
  cases hb : s.searchable u b with
  | false => simp [stat_of_not_searchable hb, Refusal.kind, Walk.skip]
  | true =>
    cases hy : s.child b n with
    | none => simp [stat_of_no_child hb hy, Refusal.kind, findings_oneSided ha hx]
    | some y => simp [stat_of_child hb hy, findings_comparePair ha hb hx hy]

theorem value_visit (hb : s.searchable u b = true) :
    (Walk.visit u h k (Walk.level u h k) a b path n).value s = (s.child b n).isSome := by
  rw [Walk.visit]
  cases hy : s.child b n with
  | none => simp [stat_of_no_child hb hy, Refusal.kind]
  | some y => simp [stat_of_child hb hy]

theorem findings_primary (ha : s.searchable u a = true) : ∀ {es : List (Name × Entry)},
    (∀ e ∈ es, s.child a e.1 = some e.2) →
    (Walk.primary u h k (Walk.level u h k) a b path (es.map (·.1))).findings s
      = es.flatMap fun e => s.visitNotes u h k b e.1 e.2 (joinPath path e.1.bytes)
  | [], _ => rfl
  | e :: es, hes => by
    obtain ⟨hx, hes⟩ := List.forall_mem_cons.1 hes
    rw [List.map_cons, Walk.primary]
    simp [findings_visit ha hx, findings_primary ha hes]

theorem value_primary (hb : s.searchable u b = true) : ∀ {ns : List Name},
    (Walk.primary u h k (Walk.level u h k) a b path ns).value s
      = ns.filter fun n => (s.child b n).isSome
  | [] => rfl
  | n :: ns => by
    rw [Walk.primary]
    cases hy : s.child b n <;> simp [value_visit hb, value_primary hb, hy]

theorem findings_sweepNames {seen : List Name} (hb : s.searchable u b = true) :
    ∀ {es : List (Name × Entry)}, (∀ e ∈ es, s.child b e.1 = some e.2) →
    (Walk.sweepNames u k b path seen (es.map (·.1))).findings s
      = (es.filter fun e => decide (e.1 ∉ seen)).flatMap fun e =>
          s.oneSidedNotes u k .added e.2 (joinPath path e.1.bytes)
  | [], _ => rfl
  | e :: es, hes => by
    obtain ⟨hy, hes⟩ := List.forall_mem_cons.1 hes
    rw [List.map_cons, Walk.sweepNames]
    by_cases hseen : e.1 ∈ seen <;>
      simp [hseen, findings_oneSided hb hy, findings_sweepNames hb hes]

/-- What a name of B needs not to be met by the primary pass is not to be in A. -/
theorem mem_primary_iff (hb : s.searchable u b = true) (hy : s.child b n = some y) :
    n ∈ (Walk.primary u h k (Walk.level u h k) a b path ((s.entries a).map (·.1))).value s
      ↔ (s.child a n).isSome = true := by
  rw [value_primary hb, List.mem_filter, hy, Option.isSome_some, Option.isSome_iff_exists]
  constructor
  · rintro ⟨hmem, -⟩
    obtain ⟨e, he, rfl⟩ := List.mem_map.1 hmem
    exact ⟨e.2, child_of_mem_entries he⟩
  · rintro ⟨x, hx⟩
    exact ⟨List.mem_map.2 ⟨(n, x), mem_entries_of_child hx, rfl⟩, rfl⟩

/-- The sweep of a directory that can be listed takes the names not seen. -/
theorem findings_sweep_of_listable {seen : List Name} (hb : s.listable u b = true) :
    (Walk.sweep u k b path seen).findings s
      = ((s.entries b).filter fun e => decide (e.1 ∉ seen)).flatMap fun e =>
          s.oneSidedNotes u k .added e.2 (joinPath path e.1.bytes) := by
  rw [Walk.sweep]
  simp only [Walk.bind_eq, Walk.findings_andThen, Walk.value_ask, Walk.findings_ask,
    names_of_listable hb, List.nil_append]
  exact findings_sweepNames (searchable_of_listable hb) fun _ => child_of_mem_entries

theorem findings_sweep_of_not_listable {seen : List Name} (hb : s.listable u b = false) :
    (Walk.sweep u k b path seen).findings s = [.skipped path .readDir denied] := by
  simp [Walk.sweep, names_of_not_listable hb, Walk.skip]

theorem findings_sweep :
    (Walk.sweep u k b path ((Walk.primary u h k (Walk.level u h k) a b path
      ((s.entries a).map (·.1))).value s)).findings s = s.sweepNotes u k a b path := by
  rw [sweepNotes]
  cases hb : s.listable u b with
  | false => exact findings_sweep_of_not_listable hb
  | true =>
    rw [findings_sweep_of_listable hb, if_pos rfl]
    congr 1
    refine List.filter_congr fun e he => ?_
    simp only [mem_primary_iff (searchable_of_listable hb) (child_of_mem_entries he)]
    cases s.child a e.1 <;> rfl

theorem findings_level_of_listable (ha : s.listable u a = true) :
    (Walk.level u h (k + 1) a b path).findings s
      = ((s.entries a).flatMap fun e => s.visitNotes u h k b e.1 e.2 (joinPath path e.1.bytes))
        ++ s.sweepNotes u k a b path := by
  rw [Walk.level]
  simp only [Walk.bind_eq, Walk.findings_andThen, Walk.value_ask, Walk.findings_ask,
    names_of_listable ha, List.nil_append]
  have hprimary : (Walk.primary u h k (Walk.level u h k) a b path
      ((s.entries a).map (·.1))).findings s = _ :=
    findings_primary (searchable_of_listable ha) fun _ => child_of_mem_entries
  exact congr (congrArg _ hprimary) findings_sweep

theorem findings_level_of_not_listable (ha : s.listable u a = false) :
    (Walk.level u h (k + 1) a b path).findings s = [.skipped path .readDir denied] := by
  simp [Walk.level, names_of_not_listable ha, Walk.skip]

end Store

end TreeComparison

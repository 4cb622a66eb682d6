import TreeComparison.Proofs.ExactReport
import TreeComparison.Proofs.Rendering
import TreeComparison.Proofs.StrictReport

/-!
An empty report says that two trees agree. Agreement is stated place by place and without the walk:
both trees have an entry at a place or neither has, and two entries of one place are of the same
mode, owners and label and hold the same. Trees that agree give an empty report to every user. The
other way round the user has to see everything, and the digest has to tell the contents apart.
-/

namespace TreeComparison.Store

variable {s : Store} {u : User} {h : HashAlgorithm} {o : Options} {a b d : DirectoryId}
  {ns : List Name} {x y : Entry} {p : String} {q : Property} {v w : PropertyValue} {side : Side}

/-- Whether two entries agree, whatever is below them: contents byte by byte, labels up to the
padding at their ends. -/
structure Same (s : Store) (x y : Entry) : Prop where
  mode : s.modeOf x = s.modeOf y
  uid : (s.attributes x).uid = (s.attributes y).uid
  gid : (s.attributes x).gid = (s.attributes y).gid
  label : SameLabel (s.attributes x).label (s.attributes y).label
  target : ∀ {p q t t'}, x = .symlink p t → y = .symlink q t' → t = t'
  content : ∀ {p q c c'}, x = .file p c → y = .file q c' → c = c'

/-- Whether two trees agree: at every place both have an entry or neither has, and the two entries
are the same. The roots are the entries at the place that no names lead to. -/
def Agree (s : Store) (a b : DirectoryId) : Prop :=
  ∀ ns, Option.Rel s.Same (s.entryAt (.directory a) ns) (s.entryAt (.directory b) ns)

/-- Whether a content occurs in a tree. -/
def Holds (s : Store) (d : DirectoryId) (c : Bytes) : Prop :=
  ∃ ns p, s.entryAt (.directory d) ns = some (.file p c)

/-- Whether a digest tells all contents that occur in two trees apart. -/
def TellsApart (s : Store) (h : HashAlgorithm) (a b : DirectoryId) : Prop :=
  ∀ c c', s.Holds a c ∨ s.Holds b c → s.Holds a c' ∨ s.Holds b c' → h.digest c = h.digest c' →
    c = c'

/-! ### Contents -/

/-- The contents of the files that are listed in a file system. -/
def contents (s : Store) : List Bytes :=
  (List.range s.size).flatMap fun d => (s.entries d).filterMap fun e =>
    match e.2 with
    | .file _ content => some content
    | _ => none

theorem mem_contents_of_child {attributes : Attributes} {n : Name} {c : Bytes}
    (hx : s.child d n = some (.file attributes c)) : c ∈ s.contents :=
  List.mem_flatMap.2 ⟨d, List.mem_range.2 (lt_size_of_child hx),
    List.mem_filterMap.2 ⟨_, mem_entries_of_child hx, rfl⟩⟩

/-- What a tree holds is listed somewhere. -/
theorem Holds.mem_contents {c : Bytes} (hold : s.Holds d c) : c ∈ s.contents := by
  obtain ⟨ns, attributes, hfile⟩ := hold
  induction ns generalizing d with
  | nil => cases hfile
  | cons n ns ih =>
    rw [entryAt_cons] at hfile
    obtain ⟨x, hx, hfile⟩ := Option.bind_eq_some_iff.1 hfile
    cases x with
    | directory e => exact ih hfile
    | _ =>
      cases ns with
      | nil =>
        rw [entryAt_nil] at hfile
        exact mem_contents_of_child (hx.trans hfile)
      | cons m ns => cases hfile

/-- A digest that tells all contents in a file system apart tells those of two trees apart. -/
theorem tellsApart_of_contents
    (hfree : ∀ c ∈ s.contents, ∀ c' ∈ s.contents, h.digest c = h.digest c' → c = c') :
    s.TellsApart h a b := by
  have hmem : ∀ {c}, s.Holds a c ∨ s.Holds b c → c ∈ s.contents :=
    fun hold => hold.elim Holds.mem_contents Holds.mem_contents
  exact fun c c' hc hc' => hfree c (hmem hc) c' (hmem hc')

/-! ### Entries that agree -/

/-- The permission bits can be read off a mode. -/
theorem permissions_eq_of_mode_eq (hmode : s.modeOf x = s.modeOf y) :
    (s.attributes x).permissions = (s.attributes y).permissions := by
  -- the type stands above the twelve permission bits
  have htype : ∀ t ∈ entryTypes, t &&& 2 ^ 12 - 1 = 0 := by decide
  have hlow : ∀ e, s.modeOf e &&& 2 ^ 12 - 1 = (s.attributes e).permissions.toNat := by
    intro e
    rw [modeOf, snapshot, Nat.and_or_distrib_right, htype _ (typeBits_mem_entryTypes e),
      Nat.zero_or, Nat.and_two_pow_sub_one_of_lt_two_pow (s.attributes e).permissions.isLt]
  exact BitVec.eq_of_toNat_eq (by rw [← hlow, ← hlow, hmode])

/-- Entries that agree are open to the same users. -/
theorem Same.may_eq {access : Access} (hxy : s.Same x y) :
    u.may access (s.attributes x) = u.may access (s.attributes y) := by
  rw [User.may, User.may, User.classShift, User.classShift, hxy.uid, hxy.gid,
    permissions_eq_of_mode_eq hxy.mode]

/-- Nothing is below entries that are no directories. -/
theorem Same.rel_entryAt (hxy : s.Same x y) (hx : x.kind ≠ .directory) :
    Option.Rel s.Same (s.entryAt x ns) (s.entryAt y ns) := by
  have hy : y.kind ≠ .directory := kind_eq_of_mode_eq hxy.mode ▸ hx
  cases ns with
  | nil =>
    rw [entryAt_nil, entryAt_nil]
    exact .some hxy
  | cons n ns => cases x <;> cases y <;> first | exact .none | contradiction

theorem Same.labelOf_eq (hxy : s.Same x y) : s.labelOf x = s.labelOf y :=
  normalizeLabel_eq_iff.2 hxy.label

theorem Same.contrast_eq_none (hxy : s.Same x y) : s.contrast h x y q = none := by
  cases q with
  | selinux => rw [contrast, unequal, if_pos (by rw [hxy.labelOf_eq])]
  | mode => rw [contrast, if_pos hxy.mode]
  | uid => rw [contrast, if_pos hxy.mode, unequal, if_pos (by rw [hxy.uid])]
  | gid => rw [contrast, if_pos hxy.mode, unequal, if_pos (by rw [hxy.gid])]
  | symlink =>
    cases x <;> cases y <;> try rfl
    rw [contrast, if_neg fun hne => hne.2 (hxy.target rfl rfl)]
  | content =>
    cases x <;> cases y <;> try rfl
    rw [contrast, if_pos hxy.mode, unequal, if_pos (by rw [hxy.content rfl rfl])]

/-- Entries that are alike by their fingerprints are the same, if the user may read labels and the
digest tells their contents apart. -/
theorem Alike.same (hl : s.readsLabels u = true) (hxy : s.Alike u h x y)
    (hfree : ∀ {p q c c'}, x = .file p c → y = .file q c' → h.digest c = h.digest c' → c = c') :
    s.Same x y where
  mode := hxy.mode
  uid := hxy.uid
  gid := hxy.gid
  label := normalizeLabel_eq_iff.1 (hxy.label hl)
  target := hxy.target
  content := fun hx hy => hfree hx hy (fingerprintOf_eq_iff.1 (hxy.content hx hy))

/-! ### Trees that agree -/

theorem Agree.same_roots (hab : s.Agree a b) : s.Same (.directory a) (.directory b) := by
  have hroots := hab []
  rw [entryAt_nil, entryAt_nil] at hroots
  cases hroots with
  | some hroots => exact hroots

theorem Agree.rootContrast_eq_none (hab : s.Agree a b) : s.rootContrast u h a b q = none := by
  have hroots := hab.same_roots
  by_cases hq : q = .selinux
  · subst hq
    -- a label that may not be read counts as empty, and the user may read both or neither
    have hsearch : s.searchable u a = s.searchable u b := hroots.may_eq
    rw [rootContrast, unequal, if_pos]
    rw [rootLabel, rootLabel, hsearch, hroots.labelOf_eq]
  · rw [rootContrast]
    · exact hroots.contrast_eq_none
    · exact hq

/-- What is related is there on both sides or on none. -/
theorem isSome_eq_of_rel {α β : Type} {r : α → β → Prop} {o : Option α} {o' : Option β}
    (hrel : Option.Rel r o o') : o.isSome = o'.isSome := by
  cases hrel <;> rfl

theorem Agree.isSome_eq (hab : s.Agree a b) (ns : List Name) :
    (s.entryAt (.directory a) ns).isSome = (s.entryAt (.directory b) ns).isSome :=
  isSome_eq_of_rel (hab ns)

/-- Where two trees agree, neither has anything alone. -/
theorem Agree.not_only (hab : s.Agree a b) : .only side p ∉ s.compare u h a b := by
  intro hf
  obtain ⟨ns, -, -, hlone⟩ := justified_of_mem_level (only_mem_compare_iff.1 hf)
  have hsome := hab.isSome_eq ns
  cases side with
  | deleted =>
    rw [LoneAt.isSome hlone, LoneAt.entryAt_eq_none hlone] at hsome
    cases hsome
  | added =>
    rw [LoneAt.isSome hlone, LoneAt.entryAt_eq_none hlone] at hsome
    cases hsome

theorem Agree.not_differs (hab : s.Agree a b) : .differs p q v w ∉ s.compare u h a b := by
  intro hf
  rcases differs_mem_compare hf with ⟨-, hq⟩ | ⟨ns, x, y, -, -, ⟨hx, hy, -⟩, hq⟩
  · rw [hab.rootContrast_eq_none] at hq
    cases hq
  · have hrel := hab ns
    rw [hx, hy] at hrel
    cases hrel with
    | some hxy =>
      rw [hxy.contrast_eq_none] at hq
      cases hq

theorem Agree.isEmpty_diff (hab : s.Agree a b) : (s.diff u o a b ∅).isEmpty = true :=
  isEmpty_diff_iff.2 ⟨fun _ _ => hab.not_only, fun _ _ _ _ => hab.not_differs⟩

/-! ### Two trees that agree -/

/-- The names of the file and of the link in the two trees of `twins`. -/
def fileName : Name := ⟨[0x68], by decide⟩

@[inherit_doc fileName] def linkName : Name := ⟨[0x6C], by decide⟩

/-- A file system with two trees that agree, at places 0 and 1. Their entries are listed in another
order, and the labels of the second tree are padded. -/
def twins : Store where
  directories := #[
    ⟨⟨0o755, 0, 0, [0x73]⟩, ⟨[(fileName, .file ⟨0o600, 7, 7, [0x73]⟩ [0x31]),
      (linkName, .symlink ⟨0o777, 7, 7, []⟩ [0x68])], by decide⟩⟩,
    ⟨⟨0o755, 0, 0, [0x73, 0x0A]⟩, ⟨[(linkName, .symlink ⟨0o777, 7, 7, [0x00]⟩ [0x68]),
      (fileName, .file ⟨0o600, 7, 7, [0x73, 0x0A, 0x00]⟩ [0x31])], by decide⟩⟩]

theorem child_twins {n : Name} {e : Entry} (he : twins.child d n = some e) :
    (n = fileName ∧ ∃ p, e = .file p [0x31]) ∨ (n = linkName ∧ ∃ p, e = .symlink p [0x68]) := by
  have hmem : (n, e) ∈ twins.entries d := mem_entries_of_child he
  match d, lt_size_of_child he with
  | 0, _ =>
    rcases List.mem_cons.1 hmem with heq | hmem
    · obtain ⟨rfl, rfl⟩ := Prod.mk.inj heq
      exact .inl ⟨rfl, _, rfl⟩
    · obtain ⟨rfl, rfl⟩ := Prod.mk.inj (List.mem_singleton.1 hmem)
      exact .inr ⟨rfl, _, rfl⟩
  | 1, _ =>
    rcases List.mem_cons.1 hmem with heq | hmem
    · obtain ⟨rfl, rfl⟩ := Prod.mk.inj heq
      exact .inr ⟨rfl, _, rfl⟩
    · obtain ⟨rfl, rfl⟩ := Prod.mk.inj (List.mem_singleton.1 hmem)
      exact .inl ⟨rfl, _, rfl⟩

theorem agree_twins : twins.Agree 0 1 := by
  intro ns
  cases ns with
  | nil =>
    rw [entryAt_nil, entryAt_nil]
    exact .some ⟨rfl, rfl, rfl, ⟨[0x73], [], [0x0A], rfl, rfl, by simp, by simp⟩, nofun, nofun⟩
  | cons n ns =>
    rw [entryAt_cons, entryAt_cons]
    by_cases hfile : n = fileName
    · subst hfile
      refine Same.rel_entryAt ⟨rfl, rfl, rfl, ?_, nofun, ?_⟩ nofun
      · exact ⟨[0x73], [], [0x0A, 0x00], rfl, rfl, by simp, by simp⟩
      · rintro p q c c' ⟨⟩ ⟨⟩
        rfl
    by_cases hlink : n = linkName
    · subst hlink
      refine Same.rel_entryAt ⟨rfl, rfl, rfl, ?_, ?_, nofun⟩ nofun
      · exact ⟨[], [], [0x00], rfl, rfl, by simp, by simp⟩
      · rintro p q c c' ⟨⟩ ⟨⟩
        rfl
    · have hnone : ∀ d, twins.child d n = none := by
        intro d
        cases he : twins.child d n with
        | none => rfl
        | some e =>
          rcases child_twins he with ⟨hn, -⟩ | ⟨hn, -⟩
          · exact absurd hn hfile
          · exact absurd hn hlink
      rw [hnone, hnone]
      exact .none

theorem eq_of_holds_twins {c : Bytes} (hc : twins.Holds d c) : c = [0x31] := by
  have hall : ∀ c ∈ twins.contents, c = [0x31] := by decide
  exact hall c hc.mem_contents

/-! ### Empty reports -/

/-- An empty report of a privileged user says that the trees agree. -/
theorem agree_of_isEmpty (hu : u.privileged = true) (ha : s.IsFinite a) (hb : s.IsFinite b)
    (hfree : s.TellsApart o.hashAlgorithm a b) (hr : (s.diff u o a b ∅).isEmpty = true) :
    s.Agree a b := by
  intro ns
  -- whether refusals are recorded makes no difference, as there are none
  have hstrict : (s.diff u ⟨o.hashAlgorithm, true⟩ a b ∅).isEmpty = true :=
    isEmpty_diff_iff.2 ((isEmpty_diff_iff (o := o)).1 hr)
  have hrel := alike_of_isEmpty (o := ⟨o.hashAlgorithm, true⟩) ha hb rfl hstrict
    (errors_diff_eq_nil (unrefused_of_privileged hu).operations) ns
  cases hx : s.entryAt (.directory a) ns <;> cases hy : s.entryAt (.directory b) ns <;>
    rw [hx, hy] at hrel <;> cases hrel
  · exact .none
  · rename_i x y hxy
    refine .some (hxy.same (readsLabels_of_privileged hu) ?_)
    rintro p q c c' rfl rfl
    exact hfree c c' (.inl ⟨ns, p, hx⟩) (.inr ⟨ns, q, hy⟩)

/-- Emptiness decides equality. Trees that agree give an empty report to every user and with all
options, and a privileged user is refused nothing on the way. An empty report of a privileged user
says that the trees agree, if the digest tells the contents in them apart. -/
theorem isEmpty_diff_decides (s : Store) (u : User) (o : Options) (a b : DirectoryId) :
    (s.Agree a b → (s.diff u o a b ∅).isEmpty = true ∧
      (u.privileged = true → (s.diff u o a b ∅).errors = [])) ∧
    (u.privileged = true → s.IsFinite a → s.IsFinite b → s.TellsApart o.hashAlgorithm a b →
      (s.diff u o a b ∅).isEmpty = true → s.Agree a b) := by
  constructor
  · intro hab
    refine ⟨hab.isEmpty_diff, fun hu => ?_⟩
    exact errors_diff_eq_nil (unrefused_of_privileged hu).operations
  · intro hu ha hb hfree hr
    exact agree_of_isEmpty hu ha hb hfree hr

/-- The trees of `twins` give an empty report to a user who may not open their files, and the empty
report of the privileged user says that they agree. -/
theorem isEmpty_diff_twins : twins.Agree 0 1 ∧
    (twins.diff ⟨8, 8, false⟩ ⟨.blake3, false⟩ 0 1 ∅).isEmpty = true ∧
    (twins.diff ⟨0, 0, true⟩ ⟨.sha256, true⟩ 0 1 ∅).isEmpty = true ∧
    (twins.diff ⟨0, 0, true⟩ ⟨.sha256, true⟩ 0 1 ∅).errors = [] ∧
    twins.IsFinite 0 ∧ twins.IsFinite 1 ∧ twins.TellsApart .sha256 0 1 := by
  have hfinite : ∀ d, twins.IsFinite d := isFinite_of_isAscending rfl
  have hfree : twins.TellsApart .sha256 0 1 := by
    intro c c' hc hc' _
    rw [hc.elim eq_of_holds_twins eq_of_holds_twins, hc'.elim eq_of_holds_twins eq_of_holds_twins]
  have hother := (isEmpty_diff_decides twins ⟨8, 8, false⟩ ⟨.blake3, false⟩ 0 1).1 agree_twins
  have hroot := isEmpty_diff_decides twins ⟨0, 0, true⟩ ⟨.sha256, true⟩ 0 1
  obtain ⟨hempty, herrors⟩ := hroot.1 agree_twins
  exact ⟨hroot.2 rfl (hfinite 0) (hfinite 1) hfree hempty, hother.1, hempty, herrors rfl,
    hfinite 0, hfinite 1, hfree⟩

end TreeComparison.Store

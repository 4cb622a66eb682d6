import Mathlib.Data.List.Flatten
import TreeComparison.Proofs.Comparison

/-!
Two trees that are the same. They may belong to two file systems, where their directories stand at
other places of the table and may list their entries in another order; all that counts is what the
names lead to. Then each part of a walk notes down the same for both, level by level from the bottom
up, and so does the whole. Labels are the exception, as the leave to read them is that to search the
root of the file system: what is noted down about them is the same only if the user has this leave
in both file systems or in neither.
-/

namespace TreeComparison

/-! ### Lists in one order or in any -/

/-- How much of two lists is to be the same: all, or all but the order. -/
inductive Arrangement where
  | exact
  | loose

namespace Arrangement

variable {m : Arrangement} {α β : Type} {l l' r r' : List α} {f g : α → List β}

/-- Whether two lists are the same, as far as it is wanted. -/
def Relates : Arrangement → List α → List α → Prop
  | exact, l, l' => l = l'
  | loose, l, l' => l.Perm l'

theorem Relates.refl (l : List α) : m.Relates l l := by
  cases m with
  | exact => exact rfl
  | loose => exact .refl l

theorem Relates.append (h : m.Relates l l') (h' : m.Relates r r') :
    m.Relates (l ++ r) (l' ++ r') := by
  cases m with
  | exact => exact congr (congrArg _ h) h'
  | loose => exact List.Perm.append h h'

theorem Relates.cons (x : α) (h : m.Relates l l') : m.Relates (x :: l) (x :: l') :=
  (refl [x]).append h

theorem Relates.map (f : α → β) (h : m.Relates l l') : m.Relates (l.map f) (l'.map f) := by
  cases m with
  | exact => exact congrArg _ h
  | loose => exact List.Perm.map f h

theorem Relates.flatMap (h : m.Relates l l') (hfg : ∀ x ∈ l, m.Relates (f x) (g x)) :
    m.Relates (l.flatMap f) (l'.flatMap g) := by
  cases m with
  | exact =>
    obtain rfl : l = l' := h
    exact List.flatMap_congr hfg
  | loose => exact List.Perm.flatMap h hfg

theorem Relates.filter {p : α → Bool} (h : m.Relates l l') :
    m.Relates (l.filter p) (l'.filter p) := by
  cases m with
  | exact => exact congrArg _ h
  | loose => exact List.Perm.filter p h

theorem Relates.filter_cons {p : α → Bool} (x : α) (h : m.Relates (l.filter p) (l'.filter p)) :
    m.Relates ((x :: l).filter p) ((x :: l').filter p) := by
  rw [List.filter_cons, List.filter_cons]
  split
  · exact h.cons x
  · exact h

theorem Relates.filterMap {p : α → Option β} (h : m.Relates l l') :
    m.Relates (l.filterMap p) (l'.filterMap p) := by
  cases m with
  | exact => exact congrArg _ h
  | loose => exact List.Perm.filterMap p h

theorem Relates.perm (h : m.Relates l l') : l.Perm l' := by
  cases m with
  | exact => exact .of_eq h
  | loose => exact h

end Arrangement

theorem flatMap_filter_eq {α β : Type} {p : α → Bool} {f : α → List β} {l : List α} :
    (l.filter p).flatMap f = l.flatMap fun e => if p e then f e else [] := by
  induction l with
  | nil => rfl
  | cons e l ih => cases he : p e <;> simp [he, ih]

/-- What is related is missing on both sides or on none. -/
theorem missing_or_related {α β : Type} {r : α → β → Prop} {o : Option α} {o' : Option β}
    (hrel : Option.Rel r o o') :
    o = none ∧ o' = none ∨ ∃ x y, o = some x ∧ o' = some y ∧ r x y := by
  cases hrel with
  | none => exact .inl ⟨rfl, rfl⟩
  | some hxy => exact .inr ⟨_, _, rfl, rfl, hxy⟩

/-- Whether a second report is a first one with its lists in another order. -/
structure Report.Reordered (r r' : Report) : Prop where
  added : r.added.Perm r'.added
  deleted : r.deleted.Perm r'.deleted
  errors : r.errors.Perm r'.errors
  differences : r.differences = r'.differences

/-- Whether a finding is about labels. -/
def Finding.isOfLabels : Finding → Bool
  | .unreadableLabel _ _ => true
  | .differs _ .selinux _ _ => true
  | _ => false

namespace Store

variable {m : Arrangement} {s t : Store} {u : User} {h : HashAlgorithm} {k k' : Nat}
  {a a' b b' c c' d d' : DirectoryId} {n : Name} {ns : List Name} {x x' y y' : Entry}
  {path : String} {side : Side} {o : Options}

/-! ### Trees that are the same -/

/-- The names that a directory lists. -/
def namesOf (s : Store) (d : DirectoryId) : List Name := (s.directory d).listing.names

/-- Whether two entries are the same but for what is below them. -/
inductive SameEntry (m : Arrangement) (s t : Store) : Entry → Entry → Prop where
  | directory (c d : DirectoryId)
      (hattributes : (s.directory c).attributes = (t.directory d).attributes)
      (hnames : m.Relates (s.namesOf c) (t.namesOf d)) :
      SameEntry m s t (.directory c) (.directory d)
  | file (p : Attributes) (content : Bytes) : SameEntry m s t (.file p content) (.file p content)
  | symlink (p : Attributes) (target : Bytes) :
      SameEntry m s t (.symlink p target) (.symlink p target)
  | special (kind kind' : Special) (p : Attributes)
      (htype : (Entry.special kind p).typeBits = (Entry.special kind' p).typeBits) :
      SameEntry m s t (.special kind p) (.special kind' p)

/-- Whether two entries are the same with all that is below them: whatever names lead to in one of
them, they lead to the same in the other. -/
def SameTree (m : Arrangement) (s t : Store) (x y : Entry) : Prop :=
  ∀ ns, Option.Rel (SameEntry m s t) (s.entryAt x ns) (t.entryAt y ns)

theorem SameEntry.attributes_eq (hxy : SameEntry m s t x y) : s.attributes x = t.attributes y := by
  cases hxy with
  | directory c d hattributes hnames => exact hattributes
  | _ => rfl

theorem SameEntry.typeBits_eq (hxy : SameEntry m s t x y) : x.typeBits = y.typeBits := by
  cases hxy with
  | special kind kind' p htype => exact htype
  | _ => rfl

theorem SameEntry.labelOf_eq (hxy : SameEntry m s t x y) : s.labelOf x = t.labelOf y := by
  rw [labelOf, labelOf, hxy.attributes_eq]

theorem SameEntry.snapshot_eq (hxy : SameEntry m s t x y) : s.snapshot x = t.snapshot y := by
  rw [snapshot, snapshot, hxy.attributes_eq, hxy.typeBits_eq]

theorem SameEntry.modeOf_eq (hxy : SameEntry m s t x y) : s.modeOf x = t.modeOf y := by
  rw [modeOf, modeOf, hxy.snapshot_eq]

/-- An entry is like itself where it has the same attributes and lists the same names. -/
theorem sameEntry_self (x : Entry)
    (hattributes : ∀ d, x = .directory d → (s.directory d).attributes = (t.directory d).attributes)
    (hnames : ∀ d, x = .directory d → m.Relates (s.namesOf d) (t.namesOf d)) :
    SameEntry m s t x x := by
  cases x with
  | directory d => exact .directory d d (hattributes d rfl) (hnames d rfl)
  | file p content => exact .file p content
  | symlink p target => exact .symlink p target
  | special kind p => exact .special kind kind p rfl

theorem sameTree_refl (x : Entry) : SameTree .exact s s x x := by
  intro ns
  cases s.entryAt x ns with
  | none => exact .none
  | some y => exact .some (sameEntry_self y (fun _ _ => rfl) fun _ _ => rfl)

theorem SameTree.sameEntry (hxy : SameTree m s t x y) : SameEntry m s t x y := by
  have hroot := hxy []
  rw [entryAt_nil, entryAt_nil] at hroot
  cases hroot with
  | some hsame => exact hsame

/-- The same name leads on to the same. -/
theorem SameTree.child (hcd : SameTree m s t (.directory c) (.directory d)) (n : Name) :
    Option.Rel (SameTree m s t) (s.child c n) (t.child d n) := by
  have hn := hcd [n]
  have hbelow := fun ns => hcd (n :: ns)
  simp only [entryAt_cons] at hn hbelow
  cases hx : s.child c n <;> cases hy : t.child d n <;>
    simp only [hx, hy, Option.bind_some, Option.bind_none, entryAt_nil] at hn hbelow
  · exact .none
  · cases hn
  · cases hn
  · exact .some hbelow

section Directories

variable (hcd : SameTree m s t (.directory c) (.directory d))
include hcd

theorem SameTree.directory_attributes_eq :
    (s.directory c).attributes = (t.directory d).attributes := hcd.sameEntry.attributes_eq

theorem SameTree.searchable_eq : s.searchable u c = t.searchable u d := by
  rw [searchable, searchable, hcd.directory_attributes_eq]

theorem SameTree.readable_eq : s.readable u c = t.readable u d := by
  rw [readable, readable, hcd.directory_attributes_eq]

theorem SameTree.listable_eq : s.listable u c = t.listable u d := by
  rw [listable, listable, hcd.searchable_eq, hcd.readable_eq]

theorem SameTree.namesOf_relates : m.Relates (s.namesOf c) (t.namesOf d) := by
  cases hcd.sameEntry with
  | directory _ _ hattributes hnames => exact hnames

end Directories

/-! ### How deep a walk goes -/

/-- Whether an entry and all below it are within so many steps. -/
def IsWithin (s : Store) (x : Entry) (k : Nat) : Prop :=
  ∀ ns y, s.entryAt x ns = some y → ns.length < k

theorem not_isWithin_zero : ¬ s.IsWithin x 0 := fun hx => Nat.not_lt_zero _ (hx [] x entryAt_nil)

theorem IsWithin.child (hd : s.IsWithin (.directory d) (k + 1)) (hx : s.child d n = some x) :
    s.IsWithin x k := by
  intro ns y hy
  have hlen := hd (n :: ns) y (by rw [entryAt_cons, hx, Option.bind_some, hy])
  exact Nat.lt_of_succ_lt_succ hlen

/-- Whether two entries are the same with all that is below them, and a walk of so many levels down
from each either comes to its end there or may go equally far. -/
structure Corresponds (m : Arrangement) (s t : Store) (k k' : Nat) (x y : Entry) : Prop where
  same : SameTree m s t x y
  depth : k = k' ∨ s.IsWithin x k ∧ t.IsWithin y k'

theorem Corresponds.eq_zero (hxy : Corresponds m s t 0 k' x y) : k' = 0 :=
  hxy.depth.elim Eq.symm fun hwithin => absurd hwithin.1 not_isWithin_zero

theorem Corresponds.exists_eq_succ (hxy : Corresponds m s t (k + 1) k' x y) :
    ∃ j, k' = j + 1 := by
  refine Nat.exists_eq_succ_of_ne_zero ?_
  rintro rfl
  rcases hxy.depth with hk | hwithin
  · cases hk
  · exact not_isWithin_zero hwithin.2

theorem Corresponds.child
    (hcd : Corresponds m s t (k + 1) (k' + 1) (.directory c) (.directory d)) (n : Name) :
    Option.Rel (Corresponds m s t k k') (s.child c n) (t.child d n) := by
  rcases missing_or_related (hcd.same.child n) with ⟨hx, hy⟩ | ⟨x, y, hx, hy, hxy⟩
  · rw [hx, hy]
    exact .none
  · rw [hx, hy]
    refine .some ⟨hxy, hcd.depth.imp Nat.succ.inj fun hwithin => ?_⟩
    exact ⟨hwithin.1.child hx, hwithin.2.child hy⟩

/-! ### The entries of a directory -/

/-- A list made of the entries of a directory is one made of its names. -/
theorem flatMap_entries_eq {β : Type} (f : Name × Entry → List β) :
    (s.entries d).flatMap f =
      (s.namesOf d).flatMap fun n => (s.child d n).elim [] fun x => f (n, x) := by
  rw [namesOf, Listing.names, List.flatMap_map]
  refine List.flatMap_congr fun e he => ?_
  rw [child_of_mem_entries he, Option.elim_some]

theorem Corresponds.flatMap_entries {β : Type} {f g : Name × Entry → List β}
    (hcd : Corresponds m s t (k + 1) (k' + 1) (.directory c) (.directory d))
    (hfg : ∀ n x y, Corresponds m s t k k' x y → m.Relates (f (n, x)) (g (n, y))) :
    m.Relates ((s.entries c).flatMap f) ((t.entries d).flatMap g) := by
  rw [flatMap_entries_eq, flatMap_entries_eq]
  refine hcd.same.namesOf_relates.flatMap fun n _ => ?_
  rcases missing_or_related (hcd.child n) with ⟨hx, hy⟩ | ⟨x, y, hx, hy, hxy⟩
  · rw [hx, hy]
    exact .refl []
  · rw [hx, hy]
    exact hfg n x y hxy

/-! ### One side alone -/

theorem Corresponds.pathsUnder (hxy : Corresponds m s t k k' x y) :
    m.Relates (s.pathsUnder u k x path) (t.pathsUnder u k' y path) := by
  induction k generalizing k' x y path with
  | zero =>
    obtain rfl := hxy.eq_zero
    rw [pathsUnder_zero, pathsUnder_zero]
    exact .refl []
  | succ k ih =>
    obtain ⟨k', rfl⟩ := hxy.exists_eq_succ
    cases hxy.same.sameEntry with
    | directory c d =>
      cases hc : s.listable u c with
      | false =>
        have hd : t.listable u d = false := hxy.same.listable_eq.symm.trans hc
        rw [pathsUnder_of_not_listable hc, pathsUnder_of_not_listable hd]
        exact .refl []
      | true =>
        have hd : t.listable u d = true := hxy.same.listable_eq.symm.trans hc
        rw [pathsUnder_of_listable hc, pathsUnder_of_listable hd]
        exact hxy.flatMap_entries fun n x y hxy => (ih hxy).cons _
    | _ => exact .refl []

theorem Corresponds.notesUnder (hxy : Corresponds m s t k k' x y) :
    m.Relates (s.notesUnder u k x path) (t.notesUnder u k' y path) := by
  induction k generalizing k' x y path with
  | zero =>
    obtain rfl := hxy.eq_zero
    cases hxy.same.sameEntry with
    | directory c d =>
      rw [Store.notesUnder, Store.notesUnder, hxy.same.readable_eq]
      exact .refl _
    | _ => exact .refl _
  | succ k ih =>
    obtain ⟨k', rfl⟩ := hxy.exists_eq_succ
    cases hxy.same.sameEntry with
    | directory c d =>
      cases hc : s.listable u c with
      | false =>
        have hd : t.listable u d = false := hxy.same.listable_eq.symm.trans hc
        rw [Store.notesUnder, Store.notesUnder, hxy.same.readable_eq,
          (subtree_of_not_listable hc).2, (subtree_of_not_listable hd).2]
        exact .refl _
      | true =>
        have hd : t.listable u d = true := hxy.same.listable_eq.symm.trans hc
        rw [notesUnder_of_listable hc, notesUnder_of_listable hd]
        exact hxy.flatMap_entries fun n x y hxy => (ih hxy).cons _
    | _ => exact .refl []

theorem Corresponds.oneSidedNotes (hxy : Corresponds m s t k k' x y) :
    m.Relates (s.oneSidedNotes u k side x path) (t.oneSidedNotes u k' side y path) :=
  (hxy.notesUnder.append ((hxy.pathsUnder.cons _).map _)).cons _

/-! ### Both sides -/

/-- Whether the findings that are kept are the same about the labels of the same entries: the user
may read labels in both file systems or in neither, or no finding about labels is kept. -/
def LabelsAlike (s t : Store) (u : User) (keep : Finding → Bool) : Prop :=
  s.readsLabels u = t.readsLabels u ∨ ∀ f, f.isOfLabels = true → keep f = false

theorem filter_eq_nil_of_isOfLabels {keep : Finding → Bool} {fs : List Finding}
    (hkeep : ∀ f, f.isOfLabels = true → keep f = false)
    (hfs : ∀ f ∈ fs, f.isOfLabels = true) : fs.filter keep = [] :=
  List.filter_eq_nil_iff.2 fun f hf => Bool.eq_false_iff.1 (hkeep f (hfs f hf))

theorem isOfLabels_of_mem_differing {v w : PropertyValue} {f : Finding}
    (hf : f ∈ differing path .selinux v w) : f.isOfLabels = true := by
  obtain ⟨v, w, -, rfl⟩ := mem_differing_iff.1 hf
  rfl

theorem isOfLabels_of_mem_labelNotes {f : Finding} (hf : f ∈ s.labelNotes u x y path) :
    f.isOfLabels = true := by
  rcases (mem_labelNotes_iff (h := .sha256)).1 hf with ⟨-, v, w, -, rfl⟩ | ⟨-, rfl⟩ <;> rfl

variable {keep : Finding → Bool}

section Pair

variable (hlabels : LabelsAlike s t u keep)
include hlabels

theorem LabelsAlike.labelNotes (hx : SameEntry m s t x x') (hy : SameEntry m s t y y') :
    (s.labelNotes u x y path).filter keep = (t.labelNotes u x' y' path).filter keep := by
  rcases hlabels with hread | hkeep
  · rw [Store.labelNotes, Store.labelNotes, hread, hx.labelOf_eq, hy.labelOf_eq]
  · rw [filter_eq_nil_of_isOfLabels hkeep fun _ => isOfLabels_of_mem_labelNotes,
      filter_eq_nil_of_isOfLabels hkeep fun _ => isOfLabels_of_mem_labelNotes]

variable (ih : ∀ {a a' b b' : DirectoryId} {path : String},
  Corresponds m s t k k' (.directory a) (.directory a') →
  Corresponds m s t k k' (.directory b) (.directory b') →
  m.Relates (((Walk.level u h k a b path).findings s).filter keep)
    (((Walk.level u h k' a' b' path).findings t).filter keep))
include ih

omit hlabels in
theorem Corresponds.bodyNotes (hx : Corresponds m s t k k' x x')
    (hy : Corresponds m s t k k' y y') :
    m.Relates ((s.bodyNotes u h k path x y).filter keep)
      ((t.bodyNotes u h k' path x' y').filter keep) := by
  cases hx.same.sameEntry <;> cases hy.same.sameEntry
  case directory.directory =>
    rw [Store.bodyNotes, Store.bodyNotes, hx.same.readable_eq, hy.same.readable_eq]
    split
    · exact ih hx hy
    · exact .refl _
  all_goals exact .refl _

theorem Corresponds.pairNotes (hx : Corresponds m s t k k' x x')
    (hy : Corresponds m s t k k' y y') :
    m.Relates ((s.pairNotes u h k x y path).filter keep)
      ((t.pairNotes u h k' x' y' path).filter keep) := by
  simp only [Store.pairNotes, List.filter_append]
  rw [hlabels.labelNotes hx.same.sameEntry hy.same.sameEntry, hx.same.sameEntry.snapshot_eq,
    hy.same.sameEntry.snapshot_eq, hx.same.sameEntry.modeOf_eq, hy.same.sameEntry.modeOf_eq]
  refine (Arrangement.Relates.refl _).append ((Arrangement.Relates.refl _).append ?_)
  split
  · exact hx.bodyNotes ih hy
  · exact .refl _

theorem Corresponds.visitNotes {n : Name} (hx : Corresponds m s t k k' x x')
    (hb : Corresponds m s t (k + 1) (k' + 1) (.directory b) (.directory b')) :
    m.Relates ((s.visitNotes u h k b n x path).filter keep)
      ((t.visitNotes u h k' b' n x' path).filter keep) := by
  rw [Store.visitNotes, Store.visitNotes, hb.same.searchable_eq]
  refine Arrangement.Relates.filter_cons _ ?_
  split
  · rcases missing_or_related (hb.child n) with ⟨hy, hy'⟩ | ⟨y, y', hy, hy', hyy'⟩
    · rw [hy, hy']
      exact hx.oneSidedNotes.filter
    · rw [hy, hy']
      exact hx.pairNotes hlabels ih hyy'
  · exact .refl _

end Pair

/-! ### All findings -/

theorem Corresponds.sweepNotes
    (ha : Corresponds m s t (k + 1) (k' + 1) (.directory a) (.directory a'))
    (hb : Corresponds m s t (k + 1) (k' + 1) (.directory b) (.directory b')) :
    m.Relates (s.sweepNotes u k a b path) (t.sweepNotes u k' a' b' path) := by
  have hseen : ∀ n, (s.child a n).isNone = (t.child a' n).isNone := by
    intro n
    rcases missing_or_related (ha.same.child n) with ⟨hx, hx'⟩ | ⟨x, x', hx, hx', -⟩
    · rw [hx, hx']
    · rw [hx, hx']
      rfl
  rw [Store.sweepNotes, Store.sweepNotes, hb.same.listable_eq]
  split
  · rw [flatMap_filter_eq, flatMap_filter_eq]
    refine hb.flatMap_entries fun n y y' hy => ?_
    rw [hseen]
    split
    · exact hy.oneSidedNotes
    · exact .refl _
  · exact .refl _

section Whole

variable (hlabels : LabelsAlike s t u keep)
include hlabels

/-- Two levels are compared with the same findings. -/
theorem Corresponds.level (ha : Corresponds m s t k k' (.directory a) (.directory a'))
    (hb : Corresponds m s t k k' (.directory b) (.directory b')) :
    m.Relates (((Walk.level u h k a b path).findings s).filter keep)
      (((Walk.level u h k' a' b' path).findings t).filter keep) := by
  induction k generalizing k' a a' b b' path with
  | zero =>
    obtain rfl := ha.eq_zero
    exact .refl []
  | succ k ih =>
    obtain ⟨k', rfl⟩ := ha.exists_eq_succ
    cases hlist : s.listable u a with
    | false =>
      have hlist' : t.listable u a' = false := ha.same.listable_eq.symm.trans hlist
      rw [findings_level_of_not_listable hlist, findings_level_of_not_listable hlist']
      exact .refl _
    | true =>
      have hlist' : t.listable u a' = true := ha.same.listable_eq.symm.trans hlist
      rw [findings_level_of_listable hlist, findings_level_of_listable hlist', List.filter_append,
        List.filter_append, List.filter_flatMap, List.filter_flatMap]
      refine Arrangement.Relates.append ?_ (ha.sweepNotes hb).filter
      exact ha.flatMap_entries fun n x x' hx => hx.visitNotes hlabels ih hb

theorem SameTree.roots (ha : SameTree m s t (.directory a) (.directory a'))
    (hb : SameTree m s t (.directory b) (.directory b')) :
    ((Walk.roots u a b).findings s).filter keep =
      ((Walk.roots u a' b').findings t).filter keep := by
  have hsplit : ∀ (s : Store) (a b : DirectoryId), ((Walk.roots u a b).findings s).filter keep =
      (s.rootLabelNotes u a ++ (s.rootLabelNotes u b ++
        differing "/" .selinux (.text (s.rootLabel u a)) (.text (s.rootLabel u b)))).filter keep ++
      (metadataFindings (s.snapshot (.directory a)) (s.snapshot (.directory b)) "/").filter keep :=
    fun s a b => by rw [findings_roots, List.filter_append]
  rw [hsplit, hsplit, ha.sameEntry.snapshot_eq, hb.sameEntry.snapshot_eq]
  congr 1
  rcases hlabels with hread | hkeep
  · simp only [rootLabelNotes, rootLabel, hread, ha.searchable_eq, hb.searchable_eq,
      ha.sameEntry.labelOf_eq, hb.sameEntry.labelOf_eq]
  · -- in whatever file system these notes are about labels
    have hnotes : ∀ (s : Store) (a b : DirectoryId) (v w : PropertyValue), ∀ f ∈
        s.rootLabelNotes u a ++ (s.rootLabelNotes u b ++ differing "/" .selinux v w),
        f.isOfLabels = true := by
      intro s a b v w f hf
      rw [List.mem_append, List.mem_append] at hf
      rcases hf with hf | hf | hf
      · rw [eq_of_mem_rootLabelNotes hf]
        rfl
      · rw [eq_of_mem_rootLabelNotes hf]
        rfl
      · exact isOfLabels_of_mem_differing hf
    rw [filter_eq_nil_of_isOfLabels hkeep (hnotes _ _ _ _ _),
      filter_eq_nil_of_isOfLabels hkeep (hnotes _ _ _ _ _)]

/-- The same trees are compared with the same findings, as far as findings are kept. -/
theorem Corresponds.filter_compare
    (ha : Corresponds m s t s.levels t.levels (.directory a) (.directory a'))
    (hb : Corresponds m s t s.levels t.levels (.directory b) (.directory b')) :
    m.Relates ((s.compare u h a b).filter keep) ((t.compare u h a' b').filter keep) := by
  rw [compare_eq_append, compare_eq_append, List.filter_append, List.filter_append,
    ha.same.roots hlabels hb.same]
  exact (Arrangement.Relates.refl _).append (ha.level hlabels hb)

end Whole

/-! If the user may read labels in both file systems or in neither, all findings are the same. -/

theorem labelsAlike_of_eq (hread : s.readsLabels u = t.readsLabels u) :
    LabelsAlike s t u fun _ => true := .inl hread

theorem Corresponds.level_of_readsLabels_eq (hread : s.readsLabels u = t.readsLabels u)
    (ha : Corresponds m s t k k' (.directory a) (.directory a'))
    (hb : Corresponds m s t k k' (.directory b) (.directory b')) :
    m.Relates ((Walk.level u h k a b path).findings s)
      ((Walk.level u h k' a' b' path).findings t) := by
  simpa using ha.level (labelsAlike_of_eq hread) hb

theorem Corresponds.compare (hread : s.readsLabels u = t.readsLabels u)
    (ha : Corresponds m s t s.levels t.levels (.directory a) (.directory a'))
    (hb : Corresponds m s t s.levels t.levels (.directory b) (.directory b')) :
    m.Relates (s.compare u h a b) (t.compare u h a' b') := by
  simpa using ha.filter_compare (labelsAlike_of_eq hread) hb

/-! ### Reports of the same findings -/

/-- Comparisons that find the same in another order have the same differences, as no attribute of a
path is found to differ in two ways, and the same paths and errors in another order. -/
theorem reordered_of_perm
    (hperm : (s.compare u o.hashAlgorithm a b).Perm (t.compare u o.hashAlgorithm a' b')) :
    (s.diff u o a b ∅).Reordered (t.diff u o a' b' ∅) := by
  have hpaths : ∀ side, ((s.diff u o a b ∅).paths side).Perm ((t.diff u o a' b' ∅).paths side) := by
    intro side
    rw [paths_diff, paths_diff]
    exact hperm.filterMap _
  have herrors : (s.diff u o a b ∅).errors.Perm (t.diff u o a' b' ∅).errors := by
    rw [errors_diff, errors_diff]
    split
    · exact hperm.filterMap _
    · exact .rfl
  have hdifferences : (s.diff u o a b ∅).differences = (t.diff u o a' b' ∅).differences := by
    refine Report.differences_eq isMeaningful_diff isMeaningful_diff fun p q => ?_
    refine Option.ext fun vw => ?_
    rw [difference?_diff, difference?_diff]
    exact hperm.mem_iff
  exact ⟨hpaths .added, hpaths .deleted, herrors, hdifferences⟩

end Store

end TreeComparison

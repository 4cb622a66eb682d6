import TreeComparison.Proofs.Correspondence

/-!
The order in which directories list their entries. Two file systems may differ in nothing else: each
directory lists the same entries in an order of its own. Then all names lead to the same in both, so
a comparison finds the same in another order, and the two reports are the same up to the order of
their lists.
-/

namespace TreeComparison.Store

/-- Whether a second file system is a first one in which each directory may list its entries in
another order. -/
structure Relisted (s t : Store) : Prop where
  size : s.size = t.size
  attributes : ∀ d, (s.directory d).attributes = (t.directory d).attributes
  entries : ∀ d, (s.entries d).Perm (t.entries d)

namespace Relisted

variable {s t : Store} {u : User} {h : HashAlgorithm} {a b d : DirectoryId} {n : Name}
  {ns : List Name} {x : Entry} (hst : s.Relisted t)
include hst

theorem child_eq : s.child d n = t.child d n := by
  refine Option.ext fun e => ?_
  rw [child_eq_some_iff, child_eq_some_iff]
  exact (hst.entries d).mem_iff

theorem entryAt_eq : s.entryAt x ns = t.entryAt x ns := by
  induction ns generalizing x with
  | nil => rw [entryAt_nil, entryAt_nil]
  | cons n ns ih =>
    cases x with
    | directory d =>
      rw [entryAt_cons, entryAt_cons, hst.child_eq]
      cases t.child d n with
      | none => rfl
      | some e => exact ih
    | _ => rfl

theorem sameTree : SameTree .loose s t x x := by
  intro ns
  rw [hst.entryAt_eq]
  cases t.entryAt x ns with
  | none => exact .none
  | some e =>
    exact .some (sameEntry_self e (fun d _ => hst.attributes d) fun d _ => (hst.entries d).map _)

theorem readsLabels_eq : s.readsLabels u = t.readsLabels u := by
  rw [readsLabels, readsLabels, searchable, searchable, hst.attributes]

/-- A comparison has the same findings in another order. -/
theorem compare_perm : (s.compare u h a b).Perm (t.compare u h a b) := by
  have hlevels : s.levels = t.levels := congrArg (· + 1) hst.size
  have hcorresponds : ∀ d, Corresponds .loose s t s.levels t.levels (.directory d) (.directory d) :=
    fun d => ⟨hst.sameTree, .inl hlevels⟩
  exact (Corresponds.compare hst.readsLabels_eq (hcorresponds a) (hcorresponds b)).perm

theorem reordered_diff {o : Options} : (s.diff u o a b ∅).Reordered (t.diff u o a b ∅) :=
  reordered_of_perm hst.compare_perm

end Relisted

/-- Whatever order the directories list their entries in, a comparison finds the same, and its
report has the same differences and, in some order, the same paths and errors. -/
theorem diff_reordered {s t : Store} (hst : s.Relisted t) (u : User) (o : Options)
    (a b : DirectoryId) :
    (s.compare u o.hashAlgorithm a b).Perm (t.compare u o.hashAlgorithm a b) ∧
      (s.diff u o a b ∅).Reordered (t.diff u o a b ∅) :=
  ⟨hst.compare_perm, hst.reordered_diff⟩

/-! ### A directory listed forth and back -/

/-- A file that only its owner may read. -/
def secret : Entry := .file ⟨0o600, 7, 7, []⟩ [0x31]

/-- Two such files in the order of their names. -/
def forth : Listing where
  entries := [(⟨[0x70], by decide⟩, secret), (⟨[0x71], by decide⟩, secret)]
  distinct := by decide

/-- The same files in the other order. -/
def back : Listing where
  entries := [(⟨[0x71], by decide⟩, secret), (⟨[0x70], by decide⟩, secret)]
  distinct := by decide

/-- A file system with two trees that both have the listed entries and no others. -/
def vault (l : Listing) : Store where
  directories := #[⟨⟨0o755, 0, 0, []⟩, l⟩, ⟨⟨0o755, 0, 0, []⟩, l⟩]

theorem relisted_vault {l l' : Listing} (hl : l.entries.Perm l'.entries) :
    (vault l).Relisted (vault l') where
  size := rfl
  attributes
    | 0 => rfl
    | 1 => rfl
    | _ + 2 => rfl
  entries
    | 0 => hl
    | 1 => hl
    | _ + 2 => .rfl

theorem relisted_forth_back : (vault forth).Relisted (vault back) :=
  relisted_vault (.swap _ _ _)

/-- To a user who may not read the files they are the same errors. -/
theorem diff_vault_reordered : (vault forth).Relisted (vault back) ∧
    ((vault forth).diff ⟨8, 8, false⟩ ⟨.sha256, true⟩ 0 1 ∅).Reordered
      ((vault back).diff ⟨8, 8, false⟩ ⟨.sha256, true⟩ 0 1 ∅) :=
  ⟨relisted_forth_back,
    (diff_reordered relisted_forth_back ⟨8, 8, false⟩ ⟨.sha256, true⟩ 0 1).2⟩

end TreeComparison.Store

import Mathlib.Data.List.Perm.Subperm
import TreeComparison.Proofs.Lookup

/-!
The tree below a directory. A list of names leads from a directory to at most one entry, and a
finite tree is no deeper than the table of directories is long.
-/

namespace TreeComparison.Store

variable {s : Store} {d : DirectoryId} {e x y : Entry} {n : Name} {ms ns : List Name}

/-- The entry that some names lead to from an entry, through directories alone. -/
def entryAt (s : Store) : Entry → List Name → Option Entry
  | e, [] => some e
  | .directory d, n :: ns => (s.child d n).bind fun e => s.entryAt e ns
  | _, _ :: _ => none

@[simp] theorem entryAt_nil : s.entryAt e [] = some e := by cases e <;> rfl

@[simp] theorem entryAt_cons :
    s.entryAt (.directory d) (n :: ns) = (s.child d n).bind fun e => s.entryAt e ns := rfl

theorem entryAt_append :
    s.entryAt e (ms ++ ns) = (s.entryAt e ms).bind fun e => s.entryAt e ns := by
  induction ms generalizing e with
  | nil => simp
  | cons n ms ih =>
    cases e with
    | directory d =>
      rw [List.cons_append, entryAt_cons, entryAt_cons]
      cases s.child d n <;> simp [ih]
    | _ => rfl

/-- Names lead on from directories only. -/
theorem exists_directory_of_entryAt_cons (h : s.entryAt e (n :: ns) = some x) :
    ∃ d y, e = .directory d ∧ s.child d n = some y ∧ s.entryAt y ns = some x := by
  cases e with
  | directory d =>
    rw [entryAt_cons, Option.bind_eq_some_iff] at h
    obtain ⟨y, hy, hx⟩ := h
    exact ⟨d, y, rfl, hy, hx⟩
  | _ => cases h

/-! ### Finite trees -/

/-- Whether a directory lists another one. -/
def Lists (s : Store) (d c : DirectoryId) : Prop := ∃ n, s.child d n = some (.directory c)

/-- Whether all ways down from a directory end: what is below it is a finite tree. -/
def IsFinite (s : Store) (d : DirectoryId) : Prop := Acc (fun c d => s.Lists d c) d

/-- What lies outside the table lists nothing. -/
theorem lt_size_of_child (h : s.child d n = some e) : d < s.size := by
  by_cases hd : d < s.size
  · exact hd
  · have hvacant : s.directory d = .vacant := dif_neg hd
    rw [child, hvacant] at h
    cases h

theorem length_le_of_nodup {l : List Nat} {k : Nat} (hnodup : l.Nodup) (hlt : ∀ i ∈ l, i < k) :
    l.length ≤ k := by
  have hsub : l.Subperm (List.range k) :=
    List.subperm_of_subset hnodup fun i hi => List.mem_range.2 (hlt i hi)
  simpa using hsub.length_le

theorem not_transGen_self {α : Type} {r : α → α → Prop} {a : α} (h : Acc r a) :
    ¬ Relation.TransGen r a a := by
  have hacc := h.transGen
  clear h
  induction hacc with
  | intro a _ ih => exact fun haa => ih a haa haa

/-- On a way down no directory is met twice. So the way is no longer than the table, even with the
directories `above` that it started below. -/
theorem length_add_le_size (h : s.IsFinite d) (above : List DirectoryId) (hnodup : above.Nodup)
    (hlt : ∀ c ∈ above, c < s.size)
    (habove : ∀ c ∈ above, Relation.TransGen (fun c d => s.Lists d c) d c)
    (hx : s.entryAt (.directory d) ns = some x) : above.length + ns.length ≤ s.size := by
  induction h generalizing above ns with
  | intro d hacc ih =>
    cases ns with
    | nil => exact length_le_of_nodup hnodup hlt
    | cons n ns =>
      have hd : d ∉ above := fun hmem => not_transGen_self (Acc.intro d hacc) (habove d hmem)
      -- below the next directory, `d` is one more of those above
      have hnodup' := List.nodup_cons.2 ⟨hd, hnodup⟩
      obtain ⟨y, hy, hx⟩ := Option.bind_eq_some_iff.1 hx
      have hlt' : ∀ c ∈ d :: above, c < s.size :=
        List.forall_mem_cons.2 ⟨lt_size_of_child hy, hlt⟩
      cases ns with
      | nil =>
        have := length_le_of_nodup hnodup' hlt'
        simpa using this
      | cons m ns =>
        obtain ⟨c, z, rfl, -, -⟩ := exists_directory_of_entryAt_cons hx
        have hlist : s.Lists d c := ⟨n, hy⟩
        have := ih c hlist (d :: above) hnodup' hlt' (List.forall_mem_cons.2 ⟨.single hlist,
          fun b hb => .trans (.single hlist) (habove b hb)⟩) hx
        simp only [List.length_cons] at this ⊢
        omega

/-- In a finite tree no entry is deeper than there are directories. -/
theorem length_lt_levels (h : s.IsFinite d) (hx : s.entryAt (.directory d) ns = some x) :
    ns.length < s.size + 1 := by
  have := length_add_le_size h [] .nil (by simp) (by simp) hx
  simp only [List.length_nil] at this
  omega

/-- Whether an entry, if it is a directory, stands in the table after a place. -/
def isAfter (d : DirectoryId) : Entry → Bool
  | .directory c => d < c
  | _ => true

/-- Whether directories list only such as stand after them. -/
def isAscending (s : Store) : Bool :=
  (List.range s.size).all fun d => (s.directory d).listing.entries.all fun e => isAfter d e.2

/-- In a table that only ever leads on, all trees are finite. -/
theorem isFinite_of_isAscending (h : s.isAscending = true) (d : DirectoryId) : s.IsFinite d := by
  have hdown : Subrelation (fun c d => s.Lists d c) (measure fun d => s.size - d).rel := by
    rintro c d ⟨n, hn⟩
    have hd := lt_size_of_child hn
    have hall := List.all_eq_true.1 h d (List.mem_range.2 hd)
    have hlt : d < c := by
      simpa [isAfter] using List.all_eq_true.1 hall _ (child_eq_some_iff.1 hn)
    exact Nat.sub_lt_sub_left hd hlt
  exact (hdown.wf (measure _).wf).apply d

/-- A file system with two trees. Both have a file `f`, of different owners; the first tree alone
has a directory `d`, which has a file `f` of its own, and only its owner may enter it. -/
def sample : Store where
  directories := #[
    ⟨⟨0o755, 0, 0, []⟩, ⟨[(⟨[0x61], by decide⟩, .directory 1), (⟨[0x62], by decide⟩, .directory 2)],
      by decide⟩⟩,
    ⟨⟨0o755, 0, 0, []⟩, ⟨[(⟨[0x64], by decide⟩, .directory 3),
      (⟨[0x66], by decide⟩, .file ⟨0o644, 7, 7, []⟩ [0x31])], by decide⟩⟩,
    ⟨⟨0o755, 0, 0, []⟩, ⟨[(⟨[0x66], by decide⟩, .file ⟨0o644, 8, 7, []⟩ [0x31])], by decide⟩⟩,
    ⟨⟨0o700, 0, 0, []⟩, ⟨[(⟨[0x66], by decide⟩, .file ⟨0o644, 7, 7, []⟩ [])], by decide⟩⟩]

theorem isFinite_sample (d : DirectoryId) : sample.IsFinite d := isFinite_of_isAscending rfl d

/-! ### Levels that are compared -/

/-- The mode of an entry. -/
def modeOf (s : Store) (e : Entry) : Nat := (s.snapshot e).mode

/-- Whether some names lead from two directories to two directories that are compared: on the way,
and at its end, the modes are the same on both sides. -/
structure Paired (s : Store) (a b : DirectoryId) (m : List Name) : Prop where
  left : ∃ c, s.entryAt (.directory a) m = some (.directory c)
  right : ∃ d, s.entryAt (.directory b) m = some (.directory d)
  modes : ∀ p, p ≠ [] → p <+: m → ∀ x y, s.entryAt (.directory a) p = some x →
    s.entryAt (.directory b) p = some y → s.modeOf x = s.modeOf y

theorem paired_nil {a b : DirectoryId} : s.Paired a b [] where
  left := ⟨a, entryAt_nil⟩
  right := ⟨b, entryAt_nil⟩
  modes := fun _ hne hp => absurd (List.prefix_nil.1 hp) hne

theorem Paired.cons {a b c d : DirectoryId} {m : List Name} (hc : s.child a n = some (.directory c))
    (hd : s.child b n = some (.directory d))
    (hmode : s.modeOf (.directory c) = s.modeOf (.directory d)) (h : s.Paired c d m) :
    s.Paired a b (n :: m) where
  left := by simpa [hc] using h.left
  right := by simpa [hd] using h.right
  modes := by
    intro p hne hp x y hx hy
    obtain ⟨q, rfl, hq⟩ := (List.prefix_cons_iff.1 hp).resolve_left hne
    simp only [entryAt_cons, hc, hd, Option.bind_some] at hx hy
    cases q with
    | nil =>
      simp only [entryAt_nil, Option.some.injEq] at hx hy
      rw [← hx, ← hy, hmode]
    | cons k q => exact h.modes _ (List.cons_ne_nil k q) hq x y hx hy

theorem Paired.symm {a b : DirectoryId} {m : List Name} (h : s.Paired a b m) : s.Paired b a m where
  left := h.right
  right := h.left
  modes := fun p hne hp x y hx hy => (h.modes p hne hp y x hy hx).symm

/-- Whether some names lead to an entry of the first tree where the second has none: the first name
on the way that the second tree does not have stands in two directories that are compared. -/
def LoneAt (s : Store) (a b : DirectoryId) (ns : List Name) : Prop :=
  ∃ m n r, ns = m ++ n :: r ∧ s.Paired a b m ∧
    (s.entryAt (.directory a) (m ++ [n])).isSome ∧ s.entryAt (.directory b) (m ++ [n]) = none ∧
    (s.entryAt (.directory a) (m ++ n :: r)).isSome

/-- Whether some names lead to two entries that are compared: the two roots, or two entries of one
name in two directories that are compared. -/
def ComparedAt (s : Store) (a b : DirectoryId) (ns : List Name) (x y : Entry) : Prop :=
  s.entryAt (.directory a) ns = some x ∧ s.entryAt (.directory b) ns = some y ∧
    s.Paired a b ns.dropLast

section Down

variable {a b c d : DirectoryId}

theorem loneAt_of_child (hx : s.child a n = some x) (hy : s.child b n = none)
    (hz : s.entryAt x ns = some y) : s.LoneAt a b (n :: ns) :=
  ⟨[], n, ns, rfl, paired_nil, by simp [hx], by simp [hy], by simp [hx, hz]⟩

theorem comparedAt_of_child (hx : s.child a n = some x) (hy : s.child b n = some y) :
    s.ComparedAt a b [n] x y :=
  ⟨by simp [hx], by simp [hy], paired_nil⟩

variable (hc : s.child a n = some (.directory c)) (hd : s.child b n = some (.directory d))
  (hmode : s.modeOf (.directory c) = s.modeOf (.directory d))
include hc hd hmode

theorem LoneAt.cons (h : s.LoneAt c d ns) : s.LoneAt a b (n :: ns) := by
  obtain ⟨m, k, r, rfl, hm, hleft, hright, hend⟩ := h
  exact ⟨n :: m, k, r, rfl, hm.cons hc hd hmode, by simpa [hc] using hleft,
    by simpa [hd] using hright, by simpa [hc] using hend⟩

theorem ComparedAt.cons (hne : ns ≠ []) (h : s.ComparedAt c d ns x y) :
    s.ComparedAt a b (n :: ns) x y := by
  obtain ⟨hx, hy, hm⟩ := h
  refine ⟨by simpa [hc] using hx, by simpa [hd] using hy, ?_⟩
  rw [List.dropLast_cons_of_ne_nil hne]
  exact hm.cons hc hd hmode

end Down

/-- What only one tree has is not in the other one. -/
theorem LoneAt.entryAt_eq_none {a b : DirectoryId} (h : s.LoneAt a b ns) :
    s.entryAt (.directory b) ns = none := by
  obtain ⟨m, n, r, rfl, -, -, hright, -⟩ := h
  rw [← List.singleton_append, ← List.append_assoc, entryAt_append, hright, Option.bind_none]

theorem LoneAt.isSome {a b : DirectoryId} (h : s.LoneAt a b ns) :
    (s.entryAt (.directory a) ns).isSome = true := by
  obtain ⟨m, n, r, rfl, -, -, -, hend⟩ := h
  exact hend

theorem LoneAt.ne_nil {a b : DirectoryId} (h : s.LoneAt a b ns) : ns ≠ [] := by
  obtain ⟨m, n, r, rfl, -⟩ := h
  simp

end TreeComparison.Store

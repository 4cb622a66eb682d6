import TreeComparison.Proofs.LevelNotes
import TreeComparison.Proofs.LogicalPath

/-!
What becomes of an entry that one side alone has. Every path that is listed below it leads to an
entry, and every entry below it is listed unless a directory on the way to it could not be opened or
listed, which is noted down at the path of that directory.
-/

namespace TreeComparison.Store

variable {s : Store} {u : User} {k : Nat} {c d : DirectoryId} {n : Name} {ns : List Name}
  {x y : Entry} {path q : String} {f : Finding}

/-! ### One level down -/

@[simp] theorem pathsUnder_zero : s.pathsUnder u 0 x path = [] := by
  cases x with
  | directory c => rw [pathsUnder]; split <;> rfl
  | _ => rfl

theorem pathsUnder_of_listable (hc : s.listable u c = true) :
    s.pathsUnder u (k + 1) (.directory c) path = (s.entries c).flatMap fun e =>
      joinPath path e.1.bytes :: s.pathsUnder u k e.2 (joinPath path e.1.bytes) := by
  rw [pathsUnder, if_pos (readable_of_listable hc), value_subtree_of_listable hc]

theorem pathsUnder_of_not_listable (hc : s.listable u c = false) :
    s.pathsUnder u (k + 1) (.directory c) path = [] := by
  rw [pathsUnder, (subtree_of_not_listable hc).1, ite_self]

theorem notesUnder_of_listable (hc : s.listable u c = true) :
    s.notesUnder u (k + 1) (.directory c) path = (s.entries c).flatMap fun e =>
      .enumerated (joinPath path e.1.bytes) :: s.notesUnder u k e.2 (joinPath path e.1.bytes) := by
  rw [notesUnder, if_pos (readable_of_listable hc), findings_subtree_of_listable hc]

/-- A directory that cannot be listed could not be opened or could not be searched. -/
theorem notesUnder_of_not_listable (hc : s.listable u c = false) :
    s.notesUnder u (k + 1) (.directory c) path = [.skipped path .readDir denied] ∨
      s.notesUnder u (k + 1) (.directory c) path = [.skipped path .openDirectory denied] := by
  rw [notesUnder, (subtree_of_not_listable hc).2]
  split
  · exact .inl rfl
  · exact .inr rfl

/-- While a directory is listed, the same is noted down as for an entry, but for a refusal of the
directory itself. -/
theorem mem_notesUnder_or_of_mem_subtree (hf : f ∈ (Walk.subtree u k d path).findings s) :
    f ∈ s.notesUnder u k (.directory d) path ∨ f = .skipped path .readDir denied := by
  cases hd : s.readable u d with
  | true => exact .inl (by rwa [notesUnder, if_pos hd])
  | false =>
    have hlist : s.listable u d = false := by rw [listable, hd, Bool.and_false]
    cases k with
    | zero => cases hf
    | succ k =>
      rw [(subtree_of_not_listable hlist).2, List.mem_singleton] at hf
      exact .inr hf

/-! ### Nothing is invented -/

/-- What is listed below an entry is there. -/
theorem exists_of_mem_pathsUnder (hq : q ∈ s.pathsUnder u k x path) :
    ∃ ns y, ns ≠ [] ∧ s.entryAt x ns = some y ∧ q = pathBelow path ns := by
  induction k generalizing x path with
  | zero => rw [pathsUnder_zero] at hq; cases hq
  | succ k ih =>
    cases x with
    | directory c =>
      cases hc : s.listable u c with
      | false => rw [pathsUnder_of_not_listable hc] at hq; cases hq
      | true =>
        rw [pathsUnder_of_listable hc] at hq
        obtain ⟨e, he, hq⟩ := List.mem_flatMap.1 hq
        have hchild := child_of_mem_entries he
        rcases List.mem_cons.1 hq with rfl | hq
        · exact ⟨[e.1], e.2, List.cons_ne_nil _ _, by simp [hchild], rfl⟩
        · obtain ⟨ns, y, -, hy, rfl⟩ := ih hq
          exact ⟨e.1 :: ns, y, List.cons_ne_nil _ _, by simpa [hchild] using hy, rfl⟩
    | _ => cases hq

/-- An entry that one side has is recorded with all that is listed below it. -/
theorem mem_oneSidedNotes_iff {side : Side} : f ∈ s.oneSidedNotes u k side x path ↔
    f = .unmatched path side ∨ f ∈ s.notesUnder u k x path ∨
      ∃ q ∈ path :: s.pathsUnder u k x path, f = .only side q := by
  rw [oneSidedNotes, List.mem_cons, List.mem_append, List.mem_map]
  simp only [eq_comm]

/-- What is recorded for one side is there. -/
theorem exists_of_mem_cons_pathsUnder (hq : q ∈ path :: s.pathsUnder u k x path) :
    ∃ ns y, s.entryAt x ns = some y ∧ q = pathBelow path ns := by
  rcases List.mem_cons.1 hq with rfl | hq
  · exact ⟨[], x, entryAt_nil, rfl⟩
  · obtain ⟨ns, y, -, hy, rfl⟩ := exists_of_mem_pathsUnder hq
    exact ⟨ns, y, hy, rfl⟩

/-- While paths are listed, only looks at what is further below and refusals are noted down. -/
theorem exists_of_mem_notesUnder (hf : f ∈ s.notesUnder u k x path) :
    ∃ ns, (ns ≠ [] ∧ f = .enumerated (pathBelow path ns)) ∨
      ∃ operation, f = .skipped (pathBelow path ns) operation denied := by
  induction k generalizing x path with
  | zero =>
    cases x with
    | directory c =>
      rw [notesUnder] at hf
      split at hf
      · cases hf
      · rw [List.mem_singleton.1 hf]
        exact ⟨[], .inr ⟨.openDirectory, rfl⟩⟩
    | _ => cases hf
  | succ k ih =>
    cases x with
    | directory c =>
      cases hc : s.listable u c with
      | false =>
        rcases notesUnder_of_not_listable hc with h | h <;> rw [h] at hf <;>
          rw [List.mem_singleton.1 hf]
        · exact ⟨[], .inr ⟨.readDir, rfl⟩⟩
        · exact ⟨[], .inr ⟨.openDirectory, rfl⟩⟩
      | true =>
        rw [notesUnder_of_listable hc] at hf
        obtain ⟨e, he, hf⟩ := List.mem_flatMap.1 hf
        rcases List.mem_cons.1 hf with rfl | hf
        · exact ⟨[e.1], .inl ⟨List.cons_ne_nil _ _, rfl⟩⟩
        · obtain ⟨ns, hns⟩ := ih hf
          exact ⟨e.1 :: ns, hns.imp_left fun hlook => ⟨List.cons_ne_nil _ _, hlook.2⟩⟩
    | _ => cases hf

/-- Paths are recorded for the side of the entry only. -/
theorem only_mem_oneSidedNotes_iff {side side' : Side} :
    .only side' q ∈ s.oneSidedNotes u k side x path ↔
      side' = side ∧ q ∈ path :: s.pathsUnder u k x path := by
  rw [mem_oneSidedNotes_iff]
  constructor
  · rintro (heq | hf | ⟨q', hq', heq⟩)
    · cases heq
    · obtain ⟨ns, ⟨-, heq⟩ | ⟨operation, heq⟩⟩ := exists_of_mem_notesUnder hf <;> cases heq
    · obtain ⟨rfl, rfl⟩ := Finding.only.inj heq
      exact ⟨rfl, hq'⟩
  · rintro ⟨rfl, hq⟩
    exact .inr (.inr ⟨q, hq, rfl⟩)

/-- Where one side has nothing, no difference is found. -/
theorem differs_not_mem_oneSidedNotes {side : Side} {property : Property} {v w : PropertyValue} :
    .differs q property v w ∉ s.oneSidedNotes u k side x path := by
  rw [mem_oneSidedNotes_iff]
  rintro (heq | hf | ⟨_, -, heq⟩)
  · cases heq
  · obtain ⟨ns, ⟨-, heq⟩ | ⟨operation, heq⟩⟩ := exists_of_mem_notesUnder hf <;> cases heq
  · cases heq

/-! ### Nothing is lost -/

/-- An entry below another one is listed, or there is a refusal on the way to it. -/
theorem mem_pathsUnder_or_refused (hy : s.entryAt x ns = some y) (hlen : ns.length ≤ k) :
    pathBelow path ns ∈ path :: s.pathsUnder u k x path ∨
      ∃ m operation, m <+: ns ∧
        .skipped (pathBelow path m) operation denied ∈ s.notesUnder u k x path := by
  induction k generalizing x path ns with
  | zero =>
    rw [List.length_eq_zero_iff.1 (Nat.le_zero.1 hlen)]
    exact .inl List.mem_cons_self
  | succ k ih =>
    cases ns with
    | nil => exact .inl List.mem_cons_self
    | cons n ns =>
      obtain ⟨c, z, rfl, hz, hy⟩ := exists_directory_of_entryAt_cons hy
      cases hc : s.listable u c with
      | false =>
        refine .inr ⟨[], ?_⟩
        rcases notesUnder_of_not_listable hc with h | h
        · exact ⟨.readDir, List.nil_prefix, by rw [h]; exact List.mem_singleton.2 rfl⟩
        · exact ⟨.openDirectory, List.nil_prefix, by rw [h]; exact List.mem_singleton.2 rfl⟩
      | true =>
        have hmem := mem_entries_of_child hz
        rw [pathsUnder_of_listable hc, notesUnder_of_listable hc]
        have hcover : pathBelow (joinPath path n.bytes) ns ∈ _ ∨ _ :=
          ih hy (Nat.le_of_succ_le_succ hlen)
        rcases hcover with h | ⟨m, operation, hm, hnote⟩
        · exact .inl (List.mem_cons_of_mem _ (List.mem_flatMap.2 ⟨_, hmem, h⟩))
        · exact .inr ⟨n :: m, operation, List.cons_prefix_cons.2 ⟨rfl, hm⟩,
            List.mem_flatMap.2 ⟨_, hmem, List.mem_cons_of_mem _ hnote⟩⟩

end TreeComparison.Store

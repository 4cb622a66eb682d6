import TreeComparison.Proofs.Correspondence

/-!
The pre-order of a subtree. The paths of a listing are taken as a list of places: each entry stands
before all that is below it, and the entries of one directory come in the order in which the
directory lists them. Which places are listed is said by what leads to them, and not by the walk.
-/

namespace TreeComparison

/-- What is gathered under different names is not repeated. -/
theorem nodup_flatMap_map_cons {α β : Type} {es : List (α × β)} {part : β → List (List α)}
    (hes : (es.map (·.1)).Nodup) (hpart : ∀ e ∈ es, (part e.2).Nodup) :
    (es.flatMap fun e => (part e.2).map (e.1 :: ·)).Nodup := by
  rw [List.nodup_flatMap]
  refine ⟨fun e he => (hpart e he).map fun _ _ heq => (List.cons.inj heq).2, ?_⟩
  refine (List.pairwise_map.1 hes).imp ?_
  intro e e' hne ns hns hns'
  obtain ⟨ms, -, rfl⟩ := List.mem_map.1 hns
  obtain ⟨ms', -, heq⟩ := List.mem_map.1 hns'
  exact hne (List.cons.inj heq).1.symm

namespace Store

variable {s : Store} {u : User} {k : Nat} {c d : DirectoryId} {n : Name} {ms ns : List Name}
  {x y z : Entry} {path : String}

/-! ### Places that are reached -/

/-- Whether names lead from an entry to another one, through directories that the user can open and
list. -/
inductive IsReached (s : Store) (u : User) : Entry → List Name → Entry → Prop where
  | here (x : Entry) : IsReached s u x [] x
  | inside (c : DirectoryId) (n : Name) (x : Entry) (ns : List Name) (y : Entry)
      (hc : s.listable u c = true) (hx : s.child c n = some x) (hy : IsReached s u x ns y) :
      IsReached s u (.directory c) (n :: ns) y

theorem isReached_cons_iff : s.IsReached u x (n :: ns) y ↔ ∃ c z, x = .directory c ∧
    s.listable u c = true ∧ s.child c n = some z ∧ s.IsReached u z ns y := by
  constructor
  · intro hy
    cases hy with
    | inside c _ z _ _ hc hz hy => exact ⟨c, z, rfl, hc, hz, hy⟩
  · rintro ⟨c, z, rfl, hc, hz, hy⟩
    exact .inside c n z ns y hc hz hy

/-- What is reached is there. -/
theorem IsReached.entryAt (hy : s.IsReached u x ns y) : s.entryAt x ns = some y := by
  induction hy with
  | here x => exact entryAt_nil
  | inside c n x ns y hc hx hy ih => rw [entryAt_cons, hx, Option.bind_some, ih]

/-- What is reached through a place is reached from there. -/
theorem isReached_append_iff : s.IsReached u x (ms ++ ns) z ↔
    ∃ y, s.IsReached u x ms y ∧ s.IsReached u y ns z := by
  induction ms generalizing x with
  | nil =>
    constructor
    · exact fun hz => ⟨x, .here x, hz⟩
    · rintro ⟨y, hy, hz⟩
      cases hy
      exact hz
  | cons m ms ih =>
    simp only [List.cons_append, isReached_cons_iff, ih]
    constructor
    · rintro ⟨c, x', rfl, hc, hx', y, hy, hz⟩
      exact ⟨y, ⟨c, x', rfl, hc, hx', hy⟩, hz⟩
    · rintro ⟨y, ⟨c, x', rfl, hc, hx', hy⟩, hz⟩
      exact ⟨c, x', rfl, hc, hx', y, hy, hz⟩

theorem IsReached.unique (hy : s.IsReached u x ns y) (hz : s.IsReached u x ns z) : y = z :=
  Option.some.inj (hy.entryAt.symm.trans hz.entryAt)

theorem IsWithin.of_isReached (hx : s.IsWithin x (k + ns.length)) (hy : s.IsReached u x ns y) :
    s.IsWithin y k := by
  induction hy with
  | here x => exact hx
  | inside c n x ns y hc hchild hy ih => exact ih (IsWithin.child hx hchild)

/-! ### The places below an entry -/

/-- The places of an entry and of all below it that the user can see, at most so many levels down:
each before those below it, and those in one directory as it lists them. -/
def places (s : Store) (u : User) : Nat → Entry → List (List Name)
  | k + 1, .directory c =>
    [] :: if s.listable u c then (s.entries c).flatMap fun e => (s.places u k e.2).map (e.1 :: ·)
      else []
  | _, _ => [[]]

theorem places_of_listable (hc : s.listable u c = true) : s.places u (k + 1) (.directory c) =
    [] :: (s.entries c).flatMap fun e => (s.places u k e.2).map (e.1 :: ·) := by
  rw [places, if_pos hc]

theorem places_of_not_listable (hc : ∀ c, x = .directory c → s.listable u c = false) :
    s.places u k x = [[]] := by
  cases k with
  | zero => cases x <;> rfl
  | succ k =>
    cases x with
    | directory c => rw [places, if_neg (Bool.eq_false_iff.1 (hc c rfl))]
    | _ => rfl

/-- Either there is more below an entry, or its place is all. -/
theorem listable_or_places_eq (s : Store) (u : User) (k : Nat) (x : Entry) :
    (∃ c, x = .directory c ∧ s.listable u c = true) ∨
      (∀ c, x = .directory c → s.listable u c = false) ∧ s.places u k x = [[]] := by
  by_cases hx : ∃ c, x = .directory c ∧ s.listable u c = true
  · exact .inl hx
  · have hclosed : ∀ c, x = .directory c → s.listable u c = false := fun c hc =>
      Bool.eq_false_iff.2 fun hlist => hx ⟨c, hc, hlist⟩
    exact .inr ⟨hclosed, places_of_not_listable hclosed⟩

theorem places_eq_cons : s.places u k x = [] :: (s.places u k x).tail := by
  cases k with
  | zero => cases x <;> rfl
  | succ k => cases x <;> rfl

theorem pathsUnder_eq_nil (hx : ∀ c, x = .directory c → s.listable u c = false) :
    s.pathsUnder u k x path = [] := by
  cases k with
  | zero => exact pathsUnder_zero
  | succ k =>
    cases x with
    | directory c => exact pathsUnder_of_not_listable (hx c rfl)
    | _ => rfl

/-- The paths that are listed are the paths of these places. -/
theorem map_pathBelow_places :
    (s.places u k x).map (pathBelow path) = path :: s.pathsUnder u k x path := by
  induction k generalizing x path with
  | zero =>
    rw [pathsUnder_zero]
    cases x <;> rfl
  | succ k ih =>
    rcases listable_or_places_eq s u (k + 1) x with ⟨c, rfl, hc⟩ | ⟨hx, hplaces⟩
    · rw [places_of_listable hc, pathsUnder_of_listable hc, List.map_cons, List.map_flatMap,
        pathBelow_nil]
      simp only [← ih, List.map_map]
      rfl
    · rw [hplaces, pathsUnder_eq_nil hx]
      rfl

theorem pathsUnder_eq_map :
    s.pathsUnder u k x path = (s.places u k x).tail.map (pathBelow path) := by
  rw [List.map_tail, map_pathBelow_places, List.tail_cons]

/-- The paths of a listing are those of all places but that of the directory itself. -/
theorem value_subtree : (Walk.subtree u k d path).value s
    = (s.places u k (.directory d)).tail.map (pathBelow path) := by
  rw [← pathsUnder_eq_map]
  cases k with
  | zero => exact pathsUnder_zero.symm
  | succ k =>
    cases hd : s.listable u d with
    | false => rw [(subtree_of_not_listable hd).1, pathsUnder_of_not_listable hd]
    | true => rw [value_subtree_of_listable hd, pathsUnder_of_listable hd]

theorem mem_places_iff (hx : s.IsWithin x k) :
    ns ∈ s.places u k x ↔ ∃ y, s.IsReached u x ns y := by
  induction k generalizing x ns with
  | zero => exact absurd hx not_isWithin_zero
  | succ k ih =>
    cases ns with
    | nil =>
      rw [places_eq_cons]
      exact iff_of_true List.mem_cons_self ⟨x, .here x⟩
    | cons n ns =>
      simp only [isReached_cons_iff]
      rcases listable_or_places_eq s u (k + 1) x with ⟨c, rfl, hc⟩ | ⟨hclosed, hplaces⟩
      · rw [places_of_listable hc]
        simp only [List.mem_cons, List.cons_ne_nil, false_or, List.mem_flatMap, List.mem_map,
          List.cons.injEq]
        constructor
        · rintro ⟨e, he, ms, hms, rfl, rfl⟩
          have hchild := child_of_mem_entries he
          obtain ⟨y, hy⟩ := (ih (hx.child hchild)).1 hms
          exact ⟨y, c, e.2, rfl, hc, hchild, hy⟩
        · rintro ⟨y, c', z, hcc, -, hz, hy⟩
          obtain rfl := Entry.directory.inj hcc
          exact ⟨(n, z), mem_entries_of_child hz, ns, (ih (hx.child hz)).2 ⟨y, hy⟩, rfl, rfl⟩
      · rw [hplaces]
        refine iff_of_false (by simp) ?_
        rintro ⟨y, c, z, rfl, hc, -, -⟩
        rw [hclosed c rfl] at hc
        cases hc

theorem nodup_places : (s.places u k x).Nodup := by
  induction k generalizing x with
  | zero => cases x <;> exact List.nodup_singleton _
  | succ k ih =>
    rcases listable_or_places_eq s u (k + 1) x with ⟨c, rfl, hc⟩ | ⟨-, hplaces⟩
    · rw [places_of_listable hc, List.nodup_cons]
      refine ⟨?_, nodup_flatMap_map_cons (s.nodup_entries c) fun e _ => ih⟩
      simp
    · rw [hplaces]
      exact List.nodup_singleton _

/-- The places below a place that is reached stand behind it without a gap. -/
theorem exists_places_eq (hy : s.IsReached u x ns y) : ∃ before after,
    s.places u (k + ns.length) x = before ++ ((s.places u k y).map (ns ++ ·) ++ after) := by
  induction hy with
  | here x => exact ⟨[], [], by simp⟩
  | inside c n x ns y hc hx hy ih =>
    obtain ⟨before, after, hplaces⟩ := ih
    obtain ⟨l, r, hentries⟩ := List.append_of_mem (mem_entries_of_child hx)
    rw [List.length_cons, ← Nat.add_assoc, places_of_listable hc, hentries, List.flatMap_append,
      List.flatMap_cons, hplaces]
    refine ⟨[] :: (l.flatMap fun e => (s.places u (k + ns.length) e.2).map (e.1 :: ·)) ++
      before.map (n :: ·), after.map (n :: ·) ++
        r.flatMap fun e => (s.places u (k + ns.length) e.2).map (e.1 :: ·), ?_⟩
    simp

/-- The entries of a directory come in the order in which it lists them. -/
theorem sublist_places (hc : s.listable u c = true) :
    ((s.namesOf c).map fun n => [n]).Sublist (s.places u (k + 1) (.directory c)) := by
  have hsub : ∀ es : List (Name × Entry), (es.map fun e => [e.1]).Sublist
      (es.flatMap fun e => (s.places u k e.2).map (e.1 :: ·)) := by
    intro es
    induction es with
    | nil => exact .slnil
    | cons e es ih =>
      have hhere : [[e.1]].Sublist ((s.places u k e.2).map (e.1 :: ·)) :=
        List.singleton_sublist.2 (List.mem_map.2 ⟨[], places_eq_cons ▸ List.mem_cons_self, rfl⟩)
      exact hhere.append ih
  rw [places_of_listable hc, namesOf, Listing.names, List.map_map]
  exact (hsub (s.entries c)).cons _

/-! ### The pre-order -/

/-- Whether a list of places is the pre-order of all below a directory that the user can reach. An
entry that is no directory, or is one that the user cannot open or list, stands alone. -/
structure IsPreorder (s : Store) (u : User) (d : DirectoryId) (l : List (List Name)) : Prop where
  nodup : l.Nodup
  mem_iff : ∀ ns, ns ∈ l ↔ ns ≠ [] ∧ ∃ x, s.IsReached u (.directory d) ns x
  block : ∀ ns ∈ l, ∃ before block after, l = before ++ ns :: (block ++ after) ∧
    ∀ ms, ms ∈ block ↔ ms ∈ l ∧ ns <+: ms ∧ ms ≠ ns
  siblings : ∀ ns c names, s.IsReached u (.directory d) ns (.directory c) →
    s.names u c = .ok names → (names.map fun n => ns ++ [n]).Sublist l
  alone : ∀ ns x, s.IsReached u (.directory d) ns x →
    (∀ c, x = .directory c → s.listable u c = false) → ∀ ms ∈ l, ns <+: ms → ms = ns

theorem mem_tail_places_iff (hx : s.IsWithin x k) :
    ns ∈ (s.places u k x).tail ↔ ns ≠ [] ∧ ∃ y, s.IsReached u x ns y := by
  have hnodup : (s.places u k x).Nodup := nodup_places
  rw [places_eq_cons, List.nodup_cons] at hnodup
  rw [← mem_places_iff hx, places_eq_cons, List.mem_cons, List.tail_cons]
  constructor
  · intro hmem
    exact ⟨fun hnil => hnodup.1 (hnil ▸ hmem), .inr hmem⟩
  · rintro ⟨hne, hnil | hmem⟩
    · exact absurd hnil hne
    · exact hmem

section Preorder

variable (hd : s.IsWithin (.directory d) k) (hy : s.IsReached u (.directory d) ns y)
include hd hy

/-- The places from a place that is reached on, in the list of all places. -/
theorem exists_places_eq_of_isWithin : ∃ j before after, s.IsWithin y j ∧
    s.places u k (.directory d) = before ++ ((s.places u j y).map (ns ++ ·) ++ after) := by
  have hlen : ns.length < k := hd ns y hy.entryAt
  obtain ⟨j, rfl⟩ := Nat.exists_eq_add_of_le' (Nat.le_of_lt hlen)
  obtain ⟨before, after, hplaces⟩ := exists_places_eq (k := j) hy
  exact ⟨j, before, after, hd.of_isReached hy, hplaces⟩

theorem exists_block (hne : ns ≠ []) : ∃ before block after,
    (s.places u k (.directory d)).tail = before ++ ns :: (block ++ after) ∧
      ∀ ms, ms ∈ block ↔ ms ∈ (s.places u k (.directory d)).tail ∧ ns <+: ms ∧ ms ≠ ns := by
  obtain ⟨j, before, after, hwithin, hplaces⟩ := exists_places_eq_of_isWithin hd hy
  rw [places_eq_cons (k := j), List.map_cons, List.append_nil] at hplaces
  refine ⟨before.tail, (s.places u j y).tail.map (ns ++ ·), after, ?_, fun ms => ?_⟩
  · -- the list begins with the place of the directory itself
    cases before with
    | nil =>
      rw [places_eq_cons] at hplaces
      exact absurd (List.cons.inj hplaces).1.symm hne
    | cons m before => rw [hplaces]; rfl
  · rw [mem_tail_places_iff hd, List.mem_map]
    constructor
    · rintro ⟨r, hr, rfl⟩
      obtain ⟨hrne, z, hz⟩ := (mem_tail_places_iff hwithin).1 hr
      exact ⟨⟨List.append_ne_nil_of_left_ne_nil hne r, z, isReached_append_iff.2 ⟨y, hy, hz⟩⟩,
        List.prefix_append ns r, fun heq => hrne (List.append_right_eq_self.1 heq)⟩
    · rintro ⟨⟨-, z, hz⟩, ⟨r, rfl⟩, hself⟩
      obtain ⟨y', hy', hz⟩ := isReached_append_iff.1 hz
      obtain rfl := hy.unique hy'
      have hrne : r ≠ [] := fun hnil => hself (by rw [hnil, List.append_nil])
      exact ⟨r, (mem_tail_places_iff hwithin).2 ⟨hrne, z, hz⟩, rfl⟩

end Preorder

theorem sublist_tail_places (hd : s.IsWithin (.directory d) k)
    (hns : s.IsReached u (.directory d) ns (.directory c)) (hc : s.listable u c = true) :
    ((s.namesOf c).map fun n => ns ++ [n]).Sublist (s.places u k (.directory d)).tail := by
  obtain ⟨j, before, after, hwithin, hplaces⟩ := exists_places_eq_of_isWithin hd hns
  cases j with
  | zero => exact absurd hwithin not_isWithin_zero
  | succ j =>
    have hsub : ((s.namesOf c).map fun n => ns ++ [n]).Sublist (s.places u k (.directory d)) := by
      have hnames := (sublist_places (k := j) hc).map (ns ++ ·)
      rw [List.map_map] at hnames
      rw [hplaces]
      exact (hnames.trans (List.sublist_append_left _ _)).trans (List.sublist_append_right _ _)
    rw [places_eq_cons, List.sublist_cons_iff] at hsub
    rcases hsub with hsub | ⟨r, heq, -⟩
    · exact hsub
    · -- no entry stands at the place of the directory itself
      have hmem : [] ∈ (s.namesOf c).map fun n => ns ++ [n] := heq ▸ List.mem_cons_self
      simp at hmem

theorem isPreorder_places (hd : s.IsWithin (.directory d) k) :
    s.IsPreorder u d (s.places u k (.directory d)).tail where
  nodup := nodup_places.tail
  mem_iff := fun ns => mem_tail_places_iff hd
  block := by
    intro ns hns
    obtain ⟨hne, y, hy⟩ := (mem_tail_places_iff hd).1 hns
    exact exists_block hd hy hne
  siblings := by
    intro ns c names hns hnames
    cases hc : s.listable u c with
    | false =>
      rw [names_of_not_listable hc] at hnames
      cases hnames
    | true =>
      rw [names_of_listable hc] at hnames
      obtain rfl := Except.ok.inj hnames
      exact sublist_tail_places hd hns hc
  alone := by
    intro ns x hns hclosed ms hms hprefix
    obtain ⟨-, y, hy⟩ := (mem_tail_places_iff hd).1 hms
    obtain ⟨r, rfl⟩ := hprefix
    obtain ⟨x', hx', hy⟩ := isReached_append_iff.1 hy
    obtain rfl := hns.unique hx'
    cases hy with
    | here => exact List.append_nil ns
    | inside c n z r _ hc _ _ =>
      rw [hclosed c rfl] at hc
      cases hc

end Store

end TreeComparison

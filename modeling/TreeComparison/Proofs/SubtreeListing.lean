import TreeComparison.Proofs.Accumulation
import TreeComparison.Proofs.Confinement
import TreeComparison.Proofs.SubtreeOrder
import TreeComparison.Proofs.Swap

/-!
The listing of a subtree: its pre-order, and an error for each refusal on the way. What is refused
is said by the answers that the directories give to what the listing asks of them.
-/

namespace TreeComparison

namespace Store

variable {s : Store} {u : User} {k : Nat} {c d : DirectoryId} {n : Name} {ns : List Name}
  {x : Entry} {path : String}

/-! ### Refusals -/

/-- Whether an operation is refused in a directory or below it: the directory itself cannot be
listed, or a name that it lists cannot be looked at, or leads to a directory that cannot be opened,
or to one that can be, and the operation is refused there. -/
inductive RefusedAt (s : Store) (u : User) :
    DirectoryId → List Name → Operation → Refusal → Prop where
  | unlisted {d : DirectoryId} {r : Refusal} (hr : s.names u d = .error r) :
      RefusedAt s u d [] .readDir r
  | unseen {d : DirectoryId} {names : List Name} {n : Name} {r : Refusal}
      (hnames : s.names u d = .ok names) (hn : n ∈ names)
      (hr : s.stat u d n.bytes = .error r) : RefusedAt s u d [n] .stat r
  | unopened {d : DirectoryId} {names : List Name} {n : Name} {shown : Snapshot} {r : Refusal}
      (hnames : s.names u d = .ok names) (hn : n ∈ names)
      (hshown : s.stat u d n.bytes = .ok shown) (hdirectory : shown.isDirectory = true)
      (hr : s.openDirectory u d n.bytes = .error r) : RefusedAt s u d [n] .openDirectory r
  | inside {d c : DirectoryId} {names : List Name} {n : Name} {ns : List Name}
      {operation : Operation} {r : Refusal} (hnames : s.names u d = .ok names) (hn : n ∈ names)
      (hc : s.openDirectory u d n.bytes = .ok c) (hns : RefusedAt s u c ns operation r) :
      RefusedAt s u d (n :: ns) operation r

/-- What is refused at an entry or below it, what is refused in a directory that can be opened being
known. -/
def refusalsAt (s : Store) (u : User) (inside : DirectoryId → List (List Name × Operation)) :
    Entry → List (List Name × Operation)
  | .directory c => if s.readable u c then inside c else [([], .openDirectory)]
  | _ => []

/-- What is refused while a directory is listed with all that is below it, at most so many levels
down. -/
def refusals (s : Store) (u : User) : Nat → DirectoryId → List (List Name × Operation)
  | 0, _ => []
  | k + 1, d =>
    if s.listable u d then (s.entries d).flatMap fun e =>
      (s.refusalsAt u (s.refusals u k) e.2).map fun r => (e.1 :: r.1, r.2)
    else [([], .readDir)]

/-- The record of what is refused at a place. -/
def skipAt (path : String) (r : List Name × Operation) : Skip :=
  ⟨pathBelow path r.1, r.2, denied.message⟩

theorem filterMap_skip?_subtree : ((Walk.subtree u k d path).findings s).filterMap Finding.skip?
    = (s.refusals u k d).map (skipAt path) := by
  induction k generalizing d path with
  | zero => rfl
  | succ k ih =>
    have hnotes : ∀ (x : Entry) (path : String),
        (s.notesUnder u k x path).filterMap Finding.skip?
          = (s.refusalsAt u (s.refusals u k) x).map (skipAt path) := by
      intro x path
      cases x with
      | directory c =>
        rw [notesUnder, refusalsAt]
        split
        · exact ih
        · rfl
      | _ => rfl
    cases hd : s.listable u d with
    | false =>
      rw [(subtree_of_not_listable hd).2, refusals, if_neg (Bool.eq_false_iff.1 hd)]
      rfl
    | true =>
      rw [findings_subtree_of_listable hd, refusals, if_pos hd, List.filterMap_flatMap,
        List.map_flatMap]
      refine List.flatMap_congr fun e _ => ?_
      rw [List.filterMap_cons_none rfl, hnotes, List.map_map]
      rfl

theorem nodup_places_refusals : ((s.refusals u k d).map (·.1)).Nodup := by
  induction k generalizing d with
  | zero => exact .nil
  | succ k ih =>
    rw [refusals]
    split
    · have hplaces : (((s.entries d).flatMap fun e =>
          (s.refusalsAt u (s.refusals u k) e.2).map fun r => (e.1 :: r.1, r.2)).map (·.1))
          = (s.entries d).flatMap fun e =>
            ((s.refusalsAt u (s.refusals u k) e.2).map (·.1)).map (e.1 :: ·) := by
        simp only [List.map_flatMap, List.map_map]
        rfl
      rw [hplaces]
      refine @nodup_flatMap_map_cons _ _ _ (fun x =>
        (s.refusalsAt u (s.refusals u k) x).map (·.1)) (s.nodup_entries d) fun e _ => ?_
      cases e.2 with
      | directory c =>
        rw [refusalsAt]
        split
        · exact ih
        · exact List.nodup_singleton _
      | _ => exact .nil
    · exact List.nodup_singleton _

/-! ### What is refused, by the answers that directories give -/

theorem listable_of_names {names : List Name} (hnames : s.names u d = .ok names) :
    s.listable u d = true := by
  cases hd : s.listable u d with
  | true => rfl
  | false =>
    rw [names_of_not_listable hd] at hnames
    cases hnames

/-- A listed name leads to an entry. -/
theorem exists_child_of_names {names : List Name} (hnames : s.names u d = .ok names)
    (hn : n ∈ names) : ∃ x, s.child d n = some x := by
  rw [names_of_listable (listable_of_names hnames)] at hnames
  obtain rfl := Except.ok.inj hnames
  obtain ⟨e, he, rfl⟩ := List.mem_map.1 hn
  exact ⟨e.2, child_of_mem_entries he⟩

theorem mem_refusals_of_child {operation : Operation} (hd : s.listable u d = true)
    (hx : s.child d n = some x)
    (hns : (ns, operation) ∈ s.refusalsAt u (s.refusals u k) x) :
    (n :: ns, operation) ∈ s.refusals u (k + 1) d := by
  rw [refusals, if_pos hd]
  exact List.mem_flatMap.2 ⟨_, mem_entries_of_child hx, List.mem_map.2 ⟨_, hns, rfl⟩⟩

theorem mem_refusals_of_refusedAt {operation : Operation} {r : Refusal}
    (hd : s.IsWithin (.directory d) k) (hr : s.RefusedAt u d ns operation r) :
    (ns, operation) ∈ s.refusals u k d ∧ r = .accessDenied := by
  induction k generalizing d ns with
  | zero => exact absurd hd not_isWithin_zero
  | succ k ih =>
    cases hr with
    | unlisted hr =>
      cases hlist : s.listable u d with
      | true =>
        rw [names_of_listable hlist] at hr
        cases hr
      | false =>
        rw [names_of_not_listable hlist] at hr
        rw [refusals, if_neg (Bool.eq_false_iff.1 hlist)]
        exact ⟨List.mem_singleton_self _, (Except.error.inj hr).symm⟩
    | unseen hnames hn hr =>
      -- whoever can list a directory can look at what is in it
      obtain ⟨x, hx⟩ := exists_child_of_names hnames hn
      rw [stat_of_child (searchable_of_listable (listable_of_names hnames)) hx] at hr
      cases hr
    | unopened hnames hn hshown hdirectory hr =>
      have hlist := listable_of_names hnames
      have hsearch := searchable_of_listable hlist
      obtain ⟨x, hx⟩ := exists_child_of_names hnames hn
      rw [stat_of_child hsearch hx] at hshown
      obtain rfl := Except.ok.inj hshown
      rw [Snapshot.isDirectory, kind_snapshot] at hdirectory
      cases x <;> simp only [Entry.kind, reduceCtorEq, decide_false] at hdirectory
      case directory c =>
        rw [openDirectory_of_child hsearch hx] at hr
        split at hr
        · cases hr
        · rename_i hc
          refine ⟨mem_refusals_of_child hlist hx ?_, (Except.error.inj hr).symm⟩
          rw [refusalsAt, if_neg hc]
          exact List.mem_singleton_self _
    | inside hnames hn hc hns =>
      have hlist := listable_of_names hnames
      obtain ⟨x, hx⟩ := exists_child_of_names hnames hn
      obtain ⟨rfl, hread⟩ := (openDirectory_eq_ok_iff (searchable_of_listable hlist) hx).1 hc
      obtain ⟨hmem, hr⟩ := ih (hd.child hx) hns
      refine ⟨mem_refusals_of_child hlist hx ?_, hr⟩
      rwa [refusalsAt, if_pos hread]

theorem refusedAt_of_mem_refusals {operation : Operation}
    (hns : (ns, operation) ∈ s.refusals u k d) : s.RefusedAt u d ns operation .accessDenied := by
  induction k generalizing d ns with
  | zero => cases hns
  | succ k ih =>
    rw [refusals] at hns
    split at hns
    · rename_i hd
      have hnames := names_of_listable hd
      obtain ⟨⟨n, x⟩, hmem, hns⟩ := List.mem_flatMap.1 hns
      have hx := child_of_mem_entries hmem
      have hn : n ∈ (s.directory d).listing.names := List.mem_map.2 ⟨_, hmem, rfl⟩
      obtain ⟨⟨ms, operation'⟩, hms, heq⟩ := List.mem_map.1 hns
      obtain ⟨rfl, rfl⟩ := Prod.mk.inj heq
      cases x with
      | directory c =>
        have hopen := openDirectory_of_child (searchable_of_listable hd) hx
        rw [refusalsAt] at hms
        split at hms
        · rename_i hc
          rw [if_pos hc] at hopen
          exact .inside hnames hn hopen (ih hms)
        · rename_i hc
          rw [if_neg hc] at hopen
          obtain ⟨rfl, rfl⟩ := Prod.mk.inj (List.mem_singleton.1 hms)
          exact .unopened hnames hn (stat_of_child (searchable_of_listable hd) hx)
            (by simp [Snapshot.isDirectory, Entry.kind]) hopen
      | _ => cases hms
    · rename_i hd
      obtain ⟨rfl, rfl⟩ := Prod.mk.inj (List.mem_singleton.1 hns)
      exact .unlisted (names_of_not_listable (Bool.eq_false_iff.2 hd))

theorem mem_refusals_iff (hd : s.IsWithin (.directory d) k) {e : Skip} :
    e ∈ (s.refusals u k d).map (skipAt path) ↔ ∃ ns operation r, s.RefusedAt u d ns operation r ∧
      e = ⟨pathBelow path ns, operation, (Fault.system r).message⟩ := by
  rw [List.mem_map]
  constructor
  · rintro ⟨⟨ns, operation⟩, hmem, rfl⟩
    exact ⟨ns, operation, .accessDenied, refusedAt_of_mem_refusals hmem, rfl⟩
  · rintro ⟨ns, operation, r, hr, rfl⟩
    obtain ⟨hmem, rfl⟩ := mem_refusals_of_refusedAt hd hr
    exact ⟨(ns, operation), hmem, rfl⟩

/-! ### The listing of a subtree -/

/-- Whether paths and a report come from a listing of all below a directory with the given path, of
which the report was begun as `r`: the paths are those of the pre-order, and none is there twice;
the report gains, if it is strict, one error for each refusal, at its place and with its reason. -/
structure IsListing (s : Store) (u : User) (strict : Bool) (d : DirectoryId) (path : String)
    (r : Report) (listing : List String × Report) : Prop where
  paths : ∃ l, s.IsPreorder u d l ∧ listing.1 = l.map (pathBelow path)
  nodup : listing.1.Nodup
  report : ∃ refused : List Skip,
    listing.2 = { r with errors := r.errors ++ if strict then refused else [] } ∧
      (refused.map (·.path)).Nodup ∧
      ∀ e, e ∈ refused ↔ ∃ ns operation f, s.RefusedAt u d ns operation f ∧
        e = ⟨pathBelow path ns, operation, (Fault.system f).message⟩

/-- The listing of a subtree is its pre-order, complete and without repetition, with an error for
each refusal in strict mode. No look at a listed name is refused in a file system at rest, since
whoever lists a directory may search it. -/
theorem listSubtree_isListing (s : Store) (u : User) (o : Options) (d : DirectoryId)
    (path : String) (r : Report) (hd : s.IsFinite d) :
    s.IsListing u o.strict d path r (s.listSubtree u o d path r) := by
  have hwithin : s.IsWithin (.directory d) s.levels := isWithin_levels hd
  have hpreorder : s.IsPreorder u d _ := isPreorder_places hwithin
  have hvalue : (s.listSubtree u o d path r).1 = _ :=
    (congrArg Prod.fst listSubtree_eq_noteAll).trans value_subtree
  refine ⟨⟨_, hpreorder, hvalue⟩, ?_, (s.refusals u s.levels d).map (skipAt path), ?_, ?_,
    fun e => mem_refusals_iff hwithin⟩
  · rw [hvalue]
    exact hpreorder.nodup.map (pathBelow_injective path)
  · rw [listSubtree_eq_noteAll, Report.noteAll_of_silent fun f => silent_of_mem_subtree,
      Report.errors_noteAll, filterMap_skip?_subtree]
  · have hplaces : ((s.refusals u s.levels d).map (skipAt path)).map (·.path)
        = ((s.refusals u s.levels d).map (·.1)).map (pathBelow path) := by
      rw [List.map_map, List.map_map]
      rfl
    rw [hplaces]
    exact nodup_places_refusals.map (pathBelow_injective path)

/-- The directory that may not be opened stands alone in the listing. -/
theorem listSubtree_sample_isListing : sample.IsFinite 0 ∧
    sample.IsListing ⟨9, 9, false⟩ true 0 "/t" ∅
      (sample.listSubtree ⟨9, 9, false⟩ ⟨.sha256, true⟩ 0 "/t" ∅) ∧
    sample.listSubtree ⟨9, 9, false⟩ ⟨.sha256, true⟩ 0 "/t" ∅
      = (["/t/a", "/t/a/d", "/t/a/f", "/t/b", "/t/b/f"],
        { (∅ : Report) with errors := [⟨"/t/a/d", .openDirectory, denied.message⟩] }) :=
  ⟨isFinite_sample 0, listSubtree_isListing sample ⟨9, 9, false⟩ ⟨.sha256, true⟩ 0 "/t" ∅
    (isFinite_sample 0), by decide⟩

end Store

end TreeComparison

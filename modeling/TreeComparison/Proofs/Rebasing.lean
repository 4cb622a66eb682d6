import TreeComparison.Proofs.ModeGate
import TreeComparison.Proofs.SubtreeOrder

/-!
Runs with another path to start from. A walk reads nothing off its paths, so if it starts from a
path other than the root it finds the same, with that path in front of all others. The root itself
is the one path that ends in a slash, and becomes the new path without one. No two paths of one walk
are merged in this way, and they keep their order, so the same holds of the report.
-/

namespace TreeComparison

/-! ### Paths -/

/-- A path below the root of a tree, as one below the path that the tree has in another one. -/
def rebase (base path : String) : String := if path = "/" then base else base ++ path

variable {base p q : String} {m ns : List Name}

theorem rebase_logicalPath (hbase : base.toList.getLast? ≠ some '/') (ns : List Name) :
    rebase base (logicalPath ns) = pathBelow base ns := by
  cases ns with
  | nil => exact if_pos rfl
  | cons n ns =>
    have hne : n :: ns ≠ [] := List.cons_ne_nil n ns
    rw [rebase, if_neg (logicalPath_ne_root hne)]
    apply String.toList_inj.1
    rw [String.toList_append, toList_logicalPath hne, toList_pathBelow base _ hbase]

theorem rebase_pathBelow (hbase : base.toList.getLast? ≠ some '/') (m ns : List Name) :
    rebase base (pathBelow (logicalPath m) ns) = pathBelow (pathBelow base m) ns := by
  rw [← logicalPath_append, rebase_logicalPath hbase, pathBelow_append]

theorem joinPath_pathBelow (base : String) (m : List Name) (n : Name) :
    joinPath (pathBelow base m) n.bytes = pathBelow base (m ++ [n]) := by
  rw [pathBelow_append]
  rfl

/-- Whether a path begins with a slash. -/
def IsRooted (path : String) : Prop := ∃ rest, path.toList = '/' :: rest

theorem isRooted_logicalPath (ns : List Name) : IsRooted (logicalPath ns) := by
  cases ns with
  | nil => exact ⟨[], rfl⟩
  | cons n ns => exact ⟨_, toList_logicalPath (List.cons_ne_nil n ns)⟩

/-- Paths keep their order. -/
theorem rebase_lt_rebase (hp : IsRooted p) (hq : IsRooted q) (hlt : p < q) :
    rebase base p < rebase base q := by
  obtain ⟨l, hp⟩ := hp
  obtain ⟨r, hq⟩ := hq
  have hne : q ≠ "/" := by
    -- nothing that begins with a slash comes before the root
    rintro rfl
    rw [String.lt_iff, hp] at hlt
    simp at hlt
  rw [rebase, rebase, if_neg hne, String.lt_iff]
  split
  · rw [String.toList_append, hq]
    nth_rewrite 1 [← List.append_nil base.toList]
    exact List.append_left_lt (List.nil_lt_cons _ _)
  · rw [String.toList_append, String.toList_append]
    exact List.append_left_lt (String.lt_iff.1 hlt)

theorem rebase_lt_rebase_iff (hp : IsRooted p) (hq : IsRooted q) :
    rebase base p < rebase base q ↔ p < q := by
  refine ⟨fun hlt => ?_, rebase_lt_rebase hp hq⟩
  rcases Std.lt_trichotomy p q with h | rfl | h
  · exact h
  · exact absurd hlt (String.lt_irrefl _)
  · exact absurd hlt (String.lt_asymm (rebase_lt_rebase hq hp h))

theorem rebase_eq_rebase_iff (hp : IsRooted p) (hq : IsRooted q) :
    rebase base p = rebase base q ↔ p = q := by
  refine ⟨fun heq => ?_, congrArg _⟩
  rcases Std.lt_trichotomy p q with h | rfl | h
  · exact absurd (heq ▸ rebase_lt_rebase hp hq h) (String.lt_irrefl _)
  · rfl
  · exact absurd (heq ▸ rebase_lt_rebase hq hp h) (String.lt_irrefl _)

/-! ### Findings -/

namespace Finding

/-- A finding with its path rebased. -/
def rebase (base : String) : Finding → Finding
  | .visiting path => .visiting (TreeComparison.rebase base path)
  | .enumerated path => .enumerated (TreeComparison.rebase base path)
  | .unmatched path side => .unmatched (TreeComparison.rebase base path) side
  | .unreadableLabel path fault => .unreadableLabel (TreeComparison.rebase base path) fault
  | .skipped path operation fault => .skipped (TreeComparison.rebase base path) operation fault
  | .differs path property a b => .differs (TreeComparison.rebase base path) property a b
  | .only side path => .only side (TreeComparison.rebase base path)

@[simp] theorem path_rebase (f : Finding) :
    (f.rebase base).path = TreeComparison.rebase base f.path := by
  cases f <;> rfl

end Finding

namespace Store

variable {s : Store} {u : User} {h : HashAlgorithm} {k : Nat} {a b d : DirectoryId} {n : Name}
  {x y : Entry} {side : Side}

section Rebase

variable (hbase : base.toList.getLast? ≠ some '/')
include hbase

theorem pathsUnder_rebase : s.pathsUnder u k x (pathBelow base m)
    = (s.pathsUnder u k x (logicalPath m)).map (rebase base) := by
  rw [pathsUnder_eq_map, pathsUnder_eq_map, List.map_map]
  exact List.map_congr_left fun ns _ => (rebase_pathBelow hbase m ns).symm

theorem value_subtree_rebase : (Walk.subtree u k d (pathBelow base m)).value s
    = ((Walk.subtree u k d (logicalPath m)).value s).map (rebase base) := by
  rw [value_subtree, value_subtree, List.map_map]
  exact List.map_congr_left fun ns _ => (rebase_pathBelow hbase m ns).symm

/-- A refusal is the same at another path. -/
theorem skipped_rebase {operation : Operation} {fault : Fault} :
    [Finding.skipped (pathBelow base m) operation fault]
      = [.skipped (logicalPath m) operation fault].map (Finding.rebase base) := by
  rw [List.map_singleton, Finding.rebase, rebase_logicalPath hbase]

theorem notesUnder_rebase_of_subtree (ih : ∀ (c : DirectoryId) (m : List Name),
    (Walk.subtree u k c (pathBelow base m)).findings s
      = ((Walk.subtree u k c (logicalPath m)).findings s).map (Finding.rebase base)) :
    s.notesUnder u k x (pathBelow base m)
      = (s.notesUnder u k x (logicalPath m)).map (Finding.rebase base) := by
  cases x with
  | directory c =>
    rw [notesUnder, notesUnder]
    split
    · exact ih c m
    · exact skipped_rebase hbase
  | _ => rfl

/-- A listing of what is below a directory finds the same whatever path it starts from. -/
theorem findings_subtree_rebase (d : DirectoryId) (m : List Name) :
    (Walk.subtree u k d (pathBelow base m)).findings s
      = ((Walk.subtree u k d (logicalPath m)).findings s).map (Finding.rebase base) := by
  induction k generalizing d m with
  | zero => rfl
  | succ k ih =>
    cases hd : s.listable u d with
    | false =>
      rw [(subtree_of_not_listable hd).2, (subtree_of_not_listable hd).2]
      exact skipped_rebase hbase
    | true =>
      simp only [findings_subtree_of_listable hd, List.map_flatMap, List.map_cons,
        joinPath_pathBelow, joinPath_logicalPath, notesUnder_rebase_of_subtree hbase ih,
        Finding.rebase, rebase_logicalPath hbase]

theorem notesUnder_rebase : s.notesUnder u k x (pathBelow base m)
    = (s.notesUnder u k x (logicalPath m)).map (Finding.rebase base) :=
  notesUnder_rebase_of_subtree hbase (findings_subtree_rebase hbase)

theorem oneSidedNotes_rebase : s.oneSidedNotes u k side x (pathBelow base m)
    = (s.oneSidedNotes u k side x (logicalPath m)).map (Finding.rebase base) := by
  simp only [oneSidedNotes, notesUnder_rebase hbase, pathsUnder_rebase hbase, List.map_cons,
    List.map_append, List.map_map, Finding.rebase, rebase_logicalPath hbase]
  rfl

theorem differing_rebase {property : Property} {v w : PropertyValue} :
    differing (pathBelow base m) property v w
      = (differing (logicalPath m) property v w).map (Finding.rebase base) := by
  rw [differing, differing, ← rebase_logicalPath hbase]
  split <;> rfl

theorem metadataFindings_rebase {p q : Snapshot} : metadataFindings p q (pathBelow base m)
    = (metadataFindings p q (logicalPath m)).map (Finding.rebase base) := by
  rw [metadataFindings, metadataFindings]
  split
  · rw [← rebase_logicalPath hbase]
    rfl
  · rw [List.map_append, differing_rebase hbase, differing_rebase hbase]

theorem labelNotes_rebase : s.labelNotes u x y (pathBelow base m)
    = (s.labelNotes u x y (logicalPath m)).map (Finding.rebase base) := by
  rw [labelNotes, labelNotes]
  split
  · exact differing_rebase hbase
  · rw [← rebase_logicalPath hbase]
    rfl

section Pair

variable (ih : ∀ (a b : DirectoryId) (m : List Name),
  (Walk.level u h k a b (pathBelow base m)).findings s
    = ((Walk.level u h k a b (logicalPath m)).findings s).map (Finding.rebase base))
include ih

theorem bodyNotes_rebase : s.bodyNotes u h k (pathBelow base m) x y
    = (s.bodyNotes u h k (logicalPath m) x y).map (Finding.rebase base) := by
  cases x <;> cases y
  case directory.directory c d =>
    rw [bodyNotes, bodyNotes]
    split
    · exact ih c d m
    · exact skipped_rebase hbase
  case file.file p content p' content' =>
    rw [bodyNotes, bodyNotes]
    split
    · exact differing_rebase hbase
    · exact skipped_rebase hbase
  case symlink.symlink p target p' target' =>
    rw [bodyNotes, bodyNotes]
    split
    · rfl
    · rw [← rebase_logicalPath hbase]
      rfl
  all_goals rfl

theorem pairNotes_rebase : s.pairNotes u h k x y (pathBelow base m)
    = (s.pairNotes u h k x y (logicalPath m)).map (Finding.rebase base) := by
  rw [pairNotes, pairNotes, List.map_append, List.map_append, labelNotes_rebase hbase,
    metadataFindings_rebase hbase]
  split
  · rw [bodyNotes_rebase hbase ih]
  · rfl

theorem visitNotes_rebase : s.visitNotes u h k b n x (pathBelow base m)
    = (s.visitNotes u h k b n x (logicalPath m)).map (Finding.rebase base) := by
  rw [visitNotes, visitNotes, List.map_cons, Finding.rebase, rebase_logicalPath hbase]
  congr 1
  split
  · split
    · exact oneSidedNotes_rebase hbase
    · exact pairNotes_rebase hbase ih
  · exact skipped_rebase hbase

end Pair

theorem sweepNotes_rebase : s.sweepNotes u k a b (pathBelow base m)
    = (s.sweepNotes u k a b (logicalPath m)).map (Finding.rebase base) := by
  rw [sweepNotes, sweepNotes]
  split
  · simp only [joinPath_pathBelow, joinPath_logicalPath, oneSidedNotes_rebase hbase,
      List.map_flatMap]
  · exact skipped_rebase hbase

/-- A comparison of two directories finds the same whatever path it starts from. -/
theorem level_rebase (a b : DirectoryId) (m : List Name) :
    (Walk.level u h k a b (pathBelow base m)).findings s
      = ((Walk.level u h k a b (logicalPath m)).findings s).map (Finding.rebase base) := by
  induction k generalizing a b m with
  | zero => rfl
  | succ k ih =>
    cases ha : s.listable u a with
    | false =>
      rw [findings_level_of_not_listable ha, findings_level_of_not_listable ha]
      exact skipped_rebase hbase
    | true =>
      rw [findings_level_of_listable ha, findings_level_of_listable ha, List.map_append,
        sweepNotes_rebase hbase, List.map_flatMap]
      simp only [joinPath_pathBelow, joinPath_logicalPath, visitNotes_rebase hbase ih]

end Rebase

end Store

/-! ### Reports -/

/-- Whether a second report is a first one with all paths rebased: its lists are in the same order,
and the paths with differences too, none of which is lost or merged with another one. -/
structure Report.IsRebased (base : String) (r r' : Report) : Prop where
  added : r'.added = r.added.map (rebase base)
  deleted : r'.deleted = r.deleted.map (rebase base)
  differences : r'.differences.entries = r.differences.entries.map fun e => (rebase base e.1, e.2)
  errors : r'.errors = r.errors.map fun e => { e with path := rebase base e.path }

namespace Report

variable {r r' : Report} {f : Finding} {fs : List Finding} {strict : Bool} {path : String}
  {property : Property} {v w : PropertyValue}

/-- A report has differences for paths of findings only. -/
theorem exists_finding_of_mem_differences {e : String × PropertyDiff}
    (he : e ∈ ((∅ : Report).noteAll strict fs).differences.entries) : ∃ f ∈ fs, f.path = e.1 := by
  induction fs using List.reverseRecOn with
  | nil => cases he
  | append_singleton fs f ih =>
    rw [noteAll_append_singleton] at he
    have hold : e ∈ ((∅ : Report).noteAll strict fs).differences.entries →
        ∃ g ∈ fs ++ [f], g.path = e.1 := by
      intro he
      obtain ⟨g, hg, hpath⟩ := ih he
      exact ⟨g, List.mem_append_left _ hg, hpath⟩
    cases f with
    | differs path property v w =>
      rcases SortedMap.mem_insertInto he with rfl | he
      · exact ⟨_, List.mem_append_right _ (List.mem_singleton_self _), rfl⟩
      · exact hold he
    | only side path => cases side <;> exact hold he
    | skipped path operation fault => cases strict <;> exact hold he
    | _ => exact hold he

section Note

variable (h : r.IsRebased base r') (hkeys : ∀ e ∈ r.differences.entries, IsRooted e.1)
include h hkeys

theorem IsRebased.properties?_eq (hpath : IsRooted path) :
    r'.properties? (rebase base path) = r.properties? path := by
  rw [properties?, SortedMap.get?, h.differences,
    find?_map_key fun e he => rebase_eq_rebase_iff hpath (hkeys e he), Option.map_map]
  rfl

theorem IsRebased.recordDifference (hpath : IsRooted path) :
    (r.recordDifference path property v w).IsRebased base
      (r'.recordDifference (rebase base path) property v w) where
  added := h.added
  deleted := h.deleted
  differences := by
    rw [Report.recordDifference, Report.recordDifference, h.properties?_eq hkeys hpath]
    dsimp only [SortedMap.insert]
    rw [h.differences]
    exact SortedMap.insertInto_map (fun e he => rebase_lt_rebase_iff hpath (hkeys e he))
      fun e he => rebase_eq_rebase_iff hpath (hkeys e he)
  errors := h.errors

theorem IsRebased.note (hpath : IsRooted f.path) :
    (r.note strict f).IsRebased base (r'.note strict (f.rebase base)) := by
  have hsnoc : ∀ {α : Type} {g : α → α} {l l' : List α} {x : α}, l' = l.map g →
      l' ++ [g x] = (l ++ [x]).map g := by
    rintro α g l _ x rfl
    rw [List.map_append, List.map_singleton]
  cases f with
  | differs path q v w => exact h.recordDifference hkeys hpath
  | only side path =>
    cases side with
    | deleted => exact ⟨h.added, hsnoc h.deleted, h.differences, h.errors⟩
    | added => exact ⟨hsnoc h.added, h.deleted, h.differences, h.errors⟩
  | skipped path operation fault =>
    cases strict with
    | false => exact h
    | true => exact ⟨h.added, h.deleted, h.differences,
        @hsnoc Skip _ _ _ ⟨path, operation, fault.message⟩ h.errors⟩
  | _ => exact h

end Note

/-- Findings with their paths rebased make a report with its paths rebased. -/
theorem isRebased_noteAll (hfs : ∀ f ∈ fs, IsRooted f.path) :
    ((∅ : Report).noteAll strict fs).IsRebased base
      ((∅ : Report).noteAll strict (fs.map (Finding.rebase base))) := by
  induction fs using List.reverseRecOn with
  | nil => exact ⟨rfl, rfl, rfl, rfl⟩
  | append_singleton fs f ih =>
    obtain ⟨hfs, hf⟩ := List.forall_mem_append.1 hfs
    have hf := hf f (List.mem_singleton_self f)
    rw [List.map_append, List.map_singleton, noteAll_append_singleton, noteAll_append_singleton]
    refine (ih hfs).note (fun e he => ?_) hf
    obtain ⟨f, hf, hpath⟩ := exists_finding_of_mem_differences he
    exact hpath ▸ hfs f hf

end Report

end TreeComparison

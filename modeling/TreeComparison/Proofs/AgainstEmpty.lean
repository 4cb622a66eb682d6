import TreeComparison.Proofs.Swap

/-!
A tree against an empty directory. Everything in the tree is then on one side only, and the
comparison says of it what the listing of the tree says: the same paths in the same order, and the
same refusals. The primary pass, the sweep and the listing each decide for themselves what can be
entered, so the three are compared entry by entry.
-/

namespace TreeComparison

/-! ### Findings that make a listing -/

/-- Whether findings say no more of a tree than its listing does: they record its paths for one
side, and refuse what was refused while it was listed. -/
structure Flattens (side : Side) (fs : List Finding) (paths : List String) (notes : List Finding) :
    Prop where
  here : fs.filterMap (Finding.only? side) = paths
  there : fs.filterMap (Finding.only? side.other) = []
  refused : fs.filterMap Finding.skip? = notes.filterMap Finding.skip?
  alike : ∀ p q v w, .differs p q v w ∉ fs

namespace Flattens

variable {side : Side} {fs gs notes notes' : List Finding} {paths paths' : List String}
  {path : String} {operation : Operation} {fault : Fault}

theorem nil : Flattens side [] [] [] := ⟨rfl, rfl, rfl, fun _ _ _ _ => List.not_mem_nil⟩

theorem skipped : Flattens side [.skipped path operation fault] []
    [.skipped path operation fault] :=
  ⟨rfl, rfl, rfl, by simp⟩

theorem append (hf : Flattens side fs paths notes) (hg : Flattens side gs paths' notes') :
    Flattens side (fs ++ gs) (paths ++ paths') (notes ++ notes') where
  here := by rw [List.filterMap_append, hf.here, hg.here]
  there := by rw [List.filterMap_append, hf.there, hg.there, List.nil_append]
  refused := by rw [List.filterMap_append, List.filterMap_append, hf.refused, hg.refused]
  alike := fun p q v w hmem =>
    (List.mem_append.1 hmem).elim (hf.alike p q v w) (hg.alike p q v w)

/-- Entry by entry, and so for a whole directory. -/
theorem flatMap {α : Type} {f g : α → List Finding} {ps : α → List String} {l : List α}
    (h : ∀ e ∈ l, Flattens side (f e) (ps e) (g e)) :
    Flattens side (l.flatMap f) (l.flatMap ps) (l.flatMap g) := by
  induction l with
  | nil => exact nil
  | cons e l ih =>
    obtain ⟨he, hl⟩ := List.forall_mem_cons.1 h
    exact he.append (ih hl)

/-- The visit of an entry is no part of a report. -/
theorem visiting (hf : Flattens side fs paths notes) :
    Flattens side (.visiting path :: fs) paths notes :=
  ⟨hf.here, hf.there, hf.refused, fun p q v w hmem =>
    (List.mem_cons.1 hmem).elim nofun (hf.alike p q v w)⟩

end Flattens

namespace Store

variable {s : Store} {u : User} {h : HashAlgorithm} {o : Options} {k : Nat} {a e : DirectoryId}
  {x : Entry} {path : String} {side : Side}

/-- While paths are listed, none is recorded for a side. -/
theorem filterMap_only?_notesUnder :
    (s.notesUnder u k x path).filterMap (Finding.only? side) = [] := by
  refine List.filterMap_eq_nil_iff.2 fun f hf => ?_
  obtain ⟨ns, ⟨-, rfl⟩ | ⟨operation, rfl⟩⟩ := exists_of_mem_notesUnder hf
  · rfl
  · rfl

/-- An entry that one side alone has is recorded as it is listed. -/
theorem flattens_oneSidedNotes : Flattens side (s.oneSidedNotes u k side x path)
    (path :: s.pathsUnder u k x path) (.enumerated path :: s.notesUnder u k x path) where
  here := by
    have honly : Finding.only? side ∘ Finding.only side = some := by
      funext q
      simp [Finding.only?]
    rw [oneSidedNotes, List.filterMap_cons_none rfl, List.filterMap_append,
      filterMap_only?_notesUnder, List.nil_append, List.filterMap_map, honly, List.filterMap_some]
  there := by
    have honly : Finding.only? side.other ∘ Finding.only side = fun _ => none := by
      funext q
      cases side <;> rfl
    rw [oneSidedNotes, List.filterMap_cons_none rfl, List.filterMap_append,
      filterMap_only?_notesUnder, List.nil_append, List.filterMap_map, honly, List.filterMap_none]
  refused := by
    have honly : Finding.skip? ∘ Finding.only side = fun _ => none := rfl
    rw [oneSidedNotes, List.filterMap_cons_none rfl, List.filterMap_append, List.filterMap_map,
      honly, List.filterMap_none, List.append_nil, List.filterMap_cons_none rfl]
  alike := fun _ _ _ _ => differs_not_mem_oneSidedNotes

section Empty

variable (he : s.listable u e = true) (hempty : s.entries e = [])

include hempty in
theorem child_of_entries_eq_nil (n : Name) : s.child e n = none := by
  rw [Option.eq_none_iff_forall_ne_some]
  intro x hx
  have hmem := mem_entries_of_child hx
  rw [hempty] at hmem
  cases hmem

include he hempty

/-- The primary pass finds nothing of A in an empty directory, and the sweep finds nothing there. -/
theorem flattens_level_deleted : Flattens .deleted ((Walk.level u h k a e path).findings s)
    ((Walk.subtree u k a path).value s) ((Walk.subtree u k a path).findings s) := by
  cases k with
  | zero => exact .nil
  | succ k =>
    cases ha : s.listable u a with
    | false =>
      rw [findings_level_of_not_listable ha, (subtree_of_not_listable ha).1,
        (subtree_of_not_listable ha).2]
      exact .skipped
    | true =>
      have hsweep : s.sweepNotes u k a e path = [] := by
        rw [sweepNotes, if_pos he, hempty]
        rfl
      rw [findings_level_of_listable ha, hsweep, List.append_nil, value_subtree_of_listable ha,
        findings_subtree_of_listable ha]
      refine .flatMap fun x _ => ?_
      rw [visitNotes, if_pos (searchable_of_listable he), child_of_entries_eq_nil hempty]
      exact flattens_oneSidedNotes.visiting

/-- The primary pass has nothing to do in an empty directory, and leaves all of B to the sweep. -/
theorem flattens_level_added : Flattens .added ((Walk.level u h k e a path).findings s)
    ((Walk.subtree u k a path).value s) ((Walk.subtree u k a path).findings s) := by
  cases k with
  | zero => exact .nil
  | succ k =>
    have hlevel : (Walk.level u h (k + 1) e a path).findings s = s.sweepNotes u k e a path := by
      rw [findings_level_of_listable he, hempty]
      rfl
    rw [hlevel, sweepNotes]
    cases ha : s.listable u a with
    | false =>
      rw [(subtree_of_not_listable ha).1, (subtree_of_not_listable ha).2]
      exact .skipped
    | true =>
      have hall : ((s.entries a).filter fun x => (s.child e x.1).isNone) = s.entries a :=
        List.filter_eq_self.2 fun x _ => by rw [child_of_entries_eq_nil hempty]; rfl
      rw [if_pos rfl, hall, value_subtree_of_listable ha, findings_subtree_of_listable ha]
      exact .flatMap fun x _ => flattens_oneSidedNotes

end Empty

end Store

/-! ### Reports that make a listing -/

/-- Whether a report says the same of one tree as its listing: the paths belong to one side, in the
order of the listing, nothing belongs to the other side, no differences are recorded but those of
the two roots, and the errors are those of the listing. -/
structure Report.MatchesListing (r : Report) (side : Side) (listing : List String × Report) :
    Prop where
  here : r.paths side = listing.1
  there : r.paths side.other = []
  differences : ∀ p ∈ r.differences.keys, p = "/"
  errors : r.errors = listing.2.errors

namespace Store

variable {s : Store} {u : User} {o : Options} {a b c e : DirectoryId} {side : Side}

theorem matchesListing_of_flattens (hlevel : Flattens side
    ((Walk.level u o.hashAlgorithm s.levels a b "/").findings s)
    ((Walk.subtree u s.levels c "/").value s) ((Walk.subtree u s.levels c "/").findings s)) :
    (s.diff u o a b ∅).MatchesListing side (s.listSubtree u o c "/" ∅) where
  here := by
    rw [paths_diff, filterMap_compare rfl fun _ _ _ => rfl, hlevel.here, listSubtree_eq_noteAll]
  there := by rw [paths_diff, filterMap_compare rfl fun _ _ _ => rfl, hlevel.there]
  differences := by
    intro p hp
    obtain ⟨q, ⟨v, w⟩, hq⟩ := (Report.mem_keys_differences_iff isMeaningful_diff).1 hp
    by_contra hne
    exact hlevel.alike p q v w ((differs_mem_compare_iff_mem_level hne).1 (difference?_diff.1 hq))
  errors := by
    rw [errors_diff, filterMap_compare rfl fun _ _ _ => rfl, hlevel.refused, listSubtree_eq_noteAll,
      Report.errors_noteAll]
    rfl

/-- Walker and listing agree on one tree. Compared with an empty directory that the user may list,
on whichever side, a tree is reported as its listing has it. -/
theorem diff_matchesListing (s : Store) (u : User) (o : Options) (a e : DirectoryId)
    (he : s.listable u e = true) (hempty : s.entries e = []) :
    (s.diff u o a e ∅).MatchesListing .deleted (s.listSubtree u o a "/" ∅) ∧
      (s.diff u o e a ∅).MatchesListing .added (s.listSubtree u o a "/" ∅) :=
  ⟨matchesListing_of_flattens (flattens_level_deleted he hempty),
    matchesListing_of_flattens (flattens_level_added he hempty)⟩

/-- A file system with a tree at place 0 and an empty directory at place 1. In the tree a directory
`i` has a link in it, and a directory `j` may be entered by its owner only. -/
def besideEmpty : Store where
  directories := #[
    ⟨⟨0o755, 0, 0, []⟩, ⟨[(⟨[0x69], by decide⟩, .directory 2), (⟨[0x6A], by decide⟩, .directory 3)],
      by decide⟩⟩,
    ⟨⟨0o750, 0, 9, [0x65]⟩, ∅⟩,
    ⟨⟨0o755, 0, 0, []⟩, ⟨[(⟨[0x6F], by decide⟩, .symlink ⟨0o777, 0, 0, []⟩ [0x2E])], by decide⟩⟩,
    ⟨⟨0o700, 8, 8, []⟩, ⟨[(⟨[0x65], by decide⟩, .file ⟨0o644, 8, 8, []⟩ [])], by decide⟩⟩]

/-- The directory that may not be entered is reported by its own path, on either side. -/
theorem diff_besideEmpty_matchesListing :
    besideEmpty.listable ⟨9, 9, false⟩ 1 = true ∧ besideEmpty.entries 1 = [] ∧
    (besideEmpty.diff ⟨9, 9, false⟩ ⟨.sha256, true⟩ 0 1 ∅).MatchesListing .deleted
      (besideEmpty.listSubtree ⟨9, 9, false⟩ ⟨.sha256, true⟩ 0 "/" ∅) ∧
    (besideEmpty.diff ⟨9, 9, false⟩ ⟨.sha256, true⟩ 1 0 ∅).MatchesListing .added
      (besideEmpty.listSubtree ⟨9, 9, false⟩ ⟨.sha256, true⟩ 0 "/" ∅) ∧
    (besideEmpty.listSubtree ⟨9, 9, false⟩ ⟨.sha256, true⟩ 0 "/" ∅).1 = ["/i", "/i/o", "/j"] ∧
    (besideEmpty.listSubtree ⟨9, 9, false⟩ ⟨.sha256, true⟩ 0 "/" ∅).2.errors
      = [⟨"/j", .openDirectory, denied.message⟩] := by
  have hboth := diff_matchesListing besideEmpty ⟨9, 9, false⟩ ⟨.sha256, true⟩ 0 1 (by decide) rfl
  exact ⟨by decide, rfl, hboth.1, hboth.2, by decide, by decide⟩

end Store

end TreeComparison

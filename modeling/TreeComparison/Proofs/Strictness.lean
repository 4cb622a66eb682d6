import TreeComparison.Proofs.Recording
import TreeComparison.Proofs.Threading

/-!
Strict mode and the rest of a report. A recorder is told whether it is strict, but it is the walk of
the same name with its findings written down, and that walk is not told. So a strict run and a lax
one find the same; they part only where a refusal is written down. A lax run leaves the errors of
the report alone, and a strict one appends to them a record of each refusal, in order.
-/

namespace TreeComparison

namespace Report

variable {r : Report} {f : Finding} {fs : List Finding} {es : List Skip}

/-- Whether of two reports that were both begun as `r` the strict one has gained the errors
`refused`, the lax one none, and nothing else tells them apart. -/
structure Gains (r lax strict : Report) (refused : List Skip) : Prop where
  added : strict.added = lax.added
  deleted : strict.deleted = lax.deleted
  differences : strict.differences = lax.differences
  errors_lax : lax.errors = r.errors
  errors_strict : strict.errors = r.errors ++ refused

/-- A finding is written down in the same way whatever errors there are; if it is a refusal, strict
mode adds an error. -/
theorem note_true : ({ r with errors := es } : Report).note true f =
    { r.note false f with errors := es ++ f.skip?.toList } := by
  cases f with
  | only side path =>
    cases side <;> simp [note, recordDeleted, recordAdded, Finding.skip?]
  | skipped path operation fault => rfl
  | _ => simp [note, recordDifference, properties?, Finding.skip?]

/-- A strict report is a lax one with the refusals at the end of its errors. -/
theorem noteAll_true : r.noteAll true fs =
    { r.noteAll false fs with errors := r.errors ++ fs.filterMap Finding.skip? } := by
  induction fs using List.reverseRecOn with
  | nil => simp [noteAll]
  | append_singleton fs f ih =>
    rw [noteAll_append_singleton, ih, note_true, noteAll_append_singleton, List.filterMap_append,
      List.append_assoc]
    cases hf : f.skip? <;> simp [hf]

/-- What strict mode adds, whatever was found. -/
theorem gains_noteAll : r.Gains (r.noteAll false fs) (r.noteAll true fs)
    (fs.filterMap Finding.skip?) where
  added := by rw [noteAll_true]
  deleted := by rw [noteAll_true]
  differences := by rw [noteAll_true]
  errors_lax := by rw [errors_noteAll]; exact List.append_nil _
  errors_strict := by rw [noteAll_true]

end Report

/-- Strict mode only adds errors, to a comparison and to the listing of a subtree, with whatever
report they begin. What is listed is the same in both modes. -/
theorem Store.strict_gains_errors (s : Store) (u : User) (h : HashAlgorithm)
    (a b d : DirectoryId) (path : String) (r : Report) :
    r.Gains (s.diff u ⟨h, false⟩ a b r) (s.diff u ⟨h, true⟩ a b r)
        ((s.compare u h a b).filterMap Finding.skip?) ∧
      (s.listSubtree u ⟨h, true⟩ d path r).1 = (s.listSubtree u ⟨h, false⟩ d path r).1 ∧
      r.Gains (s.listSubtree u ⟨h, false⟩ d path r).2 (s.listSubtree u ⟨h, true⟩ d path r).2
        (((Walk.subtree u s.levels d path).findings s).filterMap Finding.skip?) := by
  rw [diff_eq_noteAll, diff_eq_noteAll, listSubtree_eq_noteAll, listSubtree_eq_noteAll]
  exact ⟨Report.gains_noteAll, rfl, Report.gains_noteAll⟩

end TreeComparison

import TreeComparison.Proofs.OneSided
import TreeComparison.Proofs.Recording
import TreeComparison.Proofs.Threading

/-!
Several comparisons into one report. A recorder carries the report along, but it is a walk with its
findings written down, so what is recorded does not depend on what the report has already; and
recording erases no more than the pair of one attribute of one path. So a comparison
into a report leaves it with what it had and then, after or over that, all that the same comparison
records in an empty one; and any number of comparisons are put together in this way, the last one
on top.
-/

namespace TreeComparison

namespace SortedMap

variable {κ ν : Type} [LT κ] [DecidableLT κ] [DecidableEq κ]
  [Trans (α := κ) (· < ·) (· < ·) (· < ·)] [Std.Trichotomous (α := κ) (· < ·)]
  {join : Option ν → ν → ν} {m m' : SortedMap κ ν} {l : List (κ × ν)} {i j : κ} {v : ν}

/-- A map with the entries of a second one put into it. The new value of a key is made of the value
that the key had, if it had one, and that in the second map. -/
def putAll (join : Option ν → ν → ν) (m m' : SortedMap κ ν) : SortedMap κ ν :=
  m'.entries.foldl (fun m e => m.insert e.1 (join (m.get? e.1) e.2)) m

/-- A map with the entries of a second one laid over it. -/
def overlay (m m' : SortedMap κ ν) : SortedMap κ ν := m.putAll (fun _ new => new) m'

/-- Putting entries into a map changes each of their keys once, and no other key. -/
theorem get?_foldl_insert (hnodup : (l.map (·.1)).Nodup) :
    (l.foldl (fun m e => m.insert e.1 (join (m.get? e.1) e.2)) m).get? j =
      ((l.find? fun e => e.1 = j).map fun e => join (m.get? j) e.2).or (m.get? j) := by
  induction l generalizing m with
  | nil => rfl
  | cons e l ih =>
    obtain ⟨he, hnodup⟩ := List.nodup_cons.1 hnodup
    rw [List.foldl_cons, ih hnodup]
    by_cases hj : e.1 = j
    · -- the key does not come again
      subst hj
      have hnone : (l.find? fun e' => e'.1 = e.1) = none := by
        refine List.find?_eq_none.2 fun e' he' heq => he ?_
        exact List.mem_map.2 ⟨e', he', of_decide_eq_true heq⟩
      rw [hnone, List.find?_cons_of_pos (by simp), get?_insert_self]
      rfl
    · rw [List.find?_cons_of_neg (by simpa using hj), get?_insert_of_ne (Ne.symm hj)]

variable [Std.Asymm (α := κ) (· < ·)]

theorem get?_putAll : (m.putAll join m').get? j =
    ((m'.get? j).map (join (m.get? j))).or (m.get? j) := by
  rw [putAll, get?_foldl_insert m'.nodup_keys]
  exact congrArg (Option.or · (m.get? j)) (Option.map_map _ _ _).symm

theorem mem_keys_putAll : j ∈ (m.putAll join m').keys ↔ j ∈ m.keys ∨ j ∈ m'.keys := by
  rw [mem_keys_iff, mem_keys_iff, mem_keys_iff, get?_putAll]
  cases m'.get? j <;> simp

@[simp] theorem get?_overlay : (m.overlay m').get? j = (m'.get? j).or (m.get? j) := by
  rw [overlay, get?_putAll]
  cases m'.get? j <;> rfl

theorem overlay_insert : m.overlay (m'.insert i v) = (m.overlay m').insert i v := by
  refine ext_get? fun j => ?_
  by_cases hj : j = i
  · subst hj
    rw [get?_overlay, get?_insert_self, get?_insert_self]
    rfl
  · rw [get?_overlay, get?_insert_of_ne hj, get?_insert_of_ne hj, get?_overlay]

end SortedMap

namespace Report

variable {r x : Report} {strict : Bool} {f : Finding} {fs : List Finding} {p path : String}
  {q : Property} {v w : PropertyValue}

/-- A report with what a second one says: its lists after those of the first, and its pairs over
those of the first. -/
def followedBy (r x : Report) : Report where
  added := r.added ++ x.added
  deleted := r.deleted ++ x.deleted
  differences := r.differences.putAll (fun old new => (old.getD ∅).overlay new) x.differences
  errors := r.errors ++ x.errors

/-- Whether a report says what a first one says followed by what a second one says: of an attribute
of a path it has the pair of the second report if that has one, and else the pair of the first. -/
structure Joins (r x y : Report) : Prop where
  added : y.added = r.added ++ x.added
  deleted : y.deleted = r.deleted ++ x.deleted
  errors : y.errors = r.errors ++ x.errors
  difference : ∀ p q, y.difference? p q = (x.difference? p q).or (r.difference? p q)
  mem_keys : ∀ p, p ∈ y.differences.keys ↔ p ∈ r.differences.keys ∨ p ∈ x.differences.keys

theorem properties?_followedBy : (r.followedBy x).properties? p =
    ((x.properties? p).map ((r.properties? p).getD ∅).overlay).or (r.properties? p) :=
  SortedMap.get?_putAll

theorem difference?_followedBy :
    (r.followedBy x).difference? p q = (x.difference? p q).or (r.difference? p q) := by
  rw [difference?, properties?_followedBy, difference?, difference?]
  cases x.properties? p with
  | none => rfl
  | some m =>
    rw [Option.map_some, Option.some_or, Option.bind_some, Option.bind_some,
      SortedMap.get?_overlay]
    cases r.properties? p <;> rfl

theorem joins_followedBy : r.Joins x (r.followedBy x) where
  added := rfl
  deleted := rfl
  errors := rfl
  difference := fun _ _ => difference?_followedBy
  mem_keys := fun _ => SortedMap.mem_keys_putAll

/-! ### One finding after another -/

theorem properties?_recordDifference_self : (r.recordDifference path q v w).properties? path =
    some (((r.properties? path).getD ∅).insert q (v, w)) := SortedMap.get?_insert_self

theorem properties?_recordDifference_of_ne (hp : p ≠ path) :
    (r.recordDifference path q v w).properties? p = r.properties? p :=
  SortedMap.get?_insert_of_ne hp

theorem properties?_recordDifference_followedBy :
    ((r.followedBy x).recordDifference path q v w).properties? p =
      (r.followedBy (x.recordDifference path q v w)).properties? p := by
  rw [properties?_followedBy]
  by_cases hp : p = path
  · subst hp
    rw [properties?_recordDifference_self, properties?_recordDifference_self,
      properties?_followedBy, Option.map_some, SortedMap.overlay_insert, Option.some_or]
    cases x.properties? p <;> rfl
  · rw [properties?_recordDifference_of_ne hp, properties?_recordDifference_of_ne hp,
      properties?_followedBy]

theorem recordDifference_followedBy : (r.followedBy x).recordDifference path q v w =
    r.followedBy (x.recordDifference path q v w) := by
  have hdifferences : ((r.followedBy x).recordDifference path q v w).differences =
      (r.followedBy (x.recordDifference path q v w)).differences :=
    SortedMap.ext_get? fun _ => properties?_recordDifference_followedBy
  exact congrArg (fun d => { r.followedBy x with differences := d }) hdifferences

/-- What is written after a second report is written into the second report. -/
theorem note_followedBy :
    (r.followedBy x).note strict f = r.followedBy (x.note strict f) := by
  cases f with
  | only side path =>
    cases side <;> simp [note, recordDeleted, recordAdded, followedBy]
  | skipped path operation fault =>
    cases strict <;> simp [note, recordSkipped, followedBy]
  | differs path q v w => exact recordDifference_followedBy
  | _ => rfl

/-- Findings are written into a report as after an empty one. -/
theorem noteAll_eq_followedBy :
    r.noteAll strict fs = r.followedBy ((∅ : Report).noteAll strict fs) := by
  induction fs using List.reverseRecOn with
  | nil =>
    change r = ⟨r.added ++ [], r.deleted ++ [], r.differences, r.errors ++ []⟩
    simp only [List.append_nil]
  | append_singleton fs f ih =>
    rw [noteAll_append_singleton, ih, note_followedBy, noteAll_append_singleton]

/-- Looks and refusals leave all of a report but its errors as it was. -/
theorem noteAll_of_silent (hfs : ∀ f ∈ fs, (∃ p, f = .enumerated p) ∨
      ∃ p operation, f = .skipped p operation denied) :
    r.noteAll strict fs = { r with errors := (r.noteAll strict fs).errors } := by
  induction fs using List.reverseRecOn with
  | nil => rfl
  | append_singleton fs f ih =>
    rw [noteAll_append_singleton, ih fun g hg => hfs g (List.mem_append_left _ hg)]
    rcases hfs f (by simp) with ⟨p, rfl⟩ | ⟨p, operation, rfl⟩
    · rfl
    · cases strict <;> rfl

end Report

namespace Store

variable {s : Store} {u : User} {k : Nat} {d : DirectoryId} {path : String} {f : Finding}

/-- While a directory is listed, only looks and refusals are noted down. -/
theorem silent_of_mem_subtree (hf : f ∈ (Walk.subtree u k d path).findings s) :
    (∃ p, f = .enumerated p) ∨ ∃ p operation, f = .skipped p operation denied := by
  rcases mem_notesUnder_or_of_mem_subtree hf with hnotes | rfl
  · obtain ⟨ns, ⟨-, rfl⟩ | ⟨operation, rfl⟩⟩ := exists_of_mem_notesUnder hnotes
    · exact .inl ⟨_, rfl⟩
    · exact .inr ⟨_, operation, rfl⟩
  · exact .inr ⟨path, .readDir, rfl⟩

end Store

/-- A comparison to be made: in what state of the file system, for whom, how, and of which open
directories. -/
structure Comparison where
  store : Store
  user : User
  options : Options
  a : DirectoryId
  b : DirectoryId

/-- Makes a comparison into a report. -/
def Comparison.into (c : Comparison) (r : Report) : Report :=
  c.store.diff c.user c.options c.a c.b r

/-- What a comparison does to a report is to add what it records in an empty one. -/
theorem Store.diff_eq_followedBy {s : Store} {u : User} {o : Options} {a b : DirectoryId}
    {r : Report} : s.diff u o a b r = r.followedBy (s.diff u o a b ∅) := by
  rw [diff_eq_noteAll, diff_eq_noteAll, Report.noteAll_eq_followedBy]

theorem Comparison.into_eq_followedBy (c : Comparison) (r : Report) :
    c.into r = r.followedBy (c.into ∅) := Store.diff_eq_followedBy

theorem Comparison.foldl_into (cs : List Comparison) (r : Report) :
    cs.foldl (fun r c => c.into r) r = (cs.map fun c => c.into ∅).foldl Report.followedBy r := by
  induction cs generalizing r with
  | nil => rfl
  | cons c cs ih => rw [List.foldl_cons, ih, List.map_cons, List.foldl_cons, ← into_eq_followedBy]

/-- Comparisons accumulate. One that is made into a report leaves it followed by what the comparison
records in an empty one, so any number of them are put together from left to right. To list a
subtree into a report gives the same paths as into an empty one, and changes nothing but the errors.
-/
theorem Store.diff_accumulates (s : Store) (u : User) (o : Options) (a b d : DirectoryId)
    (path : String) (r : Report) :
    (∀ x, r.Joins x (r.followedBy x)) ∧
    s.diff u o a b r = r.followedBy (s.diff u o a b ∅) ∧
    (s.listSubtree u o d path r).1 = (s.listSubtree u o d path ∅).1 ∧
    (s.listSubtree u o d path r).2 = r.followedBy (s.listSubtree u o d path ∅).2 ∧
    (s.listSubtree u o d path r).2 =
      { r with errors := r.errors ++ (s.listSubtree u o d path ∅).2.errors } ∧
    ∀ cs : List Comparison, cs.foldl (fun r c => c.into r) r =
      (cs.map fun c => c.into ∅).foldl Report.followedBy r := by
  have hlist : (s.listSubtree u o d path r).2 = r.followedBy (s.listSubtree u o d path ∅).2 := by
    rw [listSubtree_eq_noteAll, listSubtree_eq_noteAll]
    exact Report.noteAll_eq_followedBy
  have hpaths : (s.listSubtree u o d path r).1 = (s.listSubtree u o d path ∅).1 := by
    rw [listSubtree_eq_noteAll, listSubtree_eq_noteAll]
  have hsilent : (s.listSubtree u o d path r).2 =
      { r with errors := (s.listSubtree u o d path r).2.errors } := by
    rw [listSubtree_eq_noteAll]
    exact Report.noteAll_of_silent fun f => silent_of_mem_subtree
  refine ⟨fun x => Report.joins_followedBy, diff_eq_followedBy, hpaths, hlist, ?_,
    fun cs => Comparison.foldl_into cs r⟩
  rw [hsilent, hlist]
  rfl

end TreeComparison

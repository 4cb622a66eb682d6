import Mathlib.Data.List.Dedup
import Mathlib.Data.List.DropRight
import TreeComparison.Proofs.ByteOrder
import TreeComparison.Proofs.SortedText

/-!
A report as a record of its history: what is recorded, and when its lists are sorted. Each act adds
to one part of the report and leaves the others, so what a report holds can be read off the acts: of
the differences the last one of each attribute of each path, of the skipped operations all in their
order, and of the paths of either side all of them, those up to the last sorting in order and the
later ones as they came.
-/

namespace TreeComparison

/-- The attributes are declared in the order of their names. -/
theorem Property.lt_iff_ctorIdx_lt {q q' : Property} : q < q' ↔ q.ctorIdx < q'.ctorIdx := by
  cases q <;> cases q' <;> decide

namespace Report

/-- What can be done to a report. -/
inductive Act where
  | added (path : String)
  | deleted (path : String)
  | difference (path : String) (property : Property) (a b : PropertyValue)
  | skipped (path : String) (operation : Operation) (fault : Fault)
  | sort

/-- The report after an act. -/
def act (r : Report) : Act → Report
  | .added path => r.recordAdded path
  | .deleted path => r.recordDeleted path
  | .difference path property a b => r.recordDifference path property a b
  | .skipped path operation fault => r.recordSkipped path operation fault
  | .sort => r.sort

/-- The report that a history of acts makes of a fresh one. -/
def ofHistory (acts : List Act) : Report := acts.foldl act ∅

namespace Act

/-- The act that records a path for a side. -/
def only : Side → String → Act
  | .added => .added
  | .deleted => .deleted

/-- The path that an act records for a side. -/
def path? : Side → Act → Option String
  | .added, .added path => some path
  | .deleted, .deleted path => some path
  | _, _ => none

/-- The values that an act records for an attribute of a path. -/
def pair? (p : String) (q : Property) : Act → Option (PropertyValue × PropertyValue)
  | .difference path property a b => if p = path ∧ q = property then some (a, b) else none
  | _ => none

/-- The path of a difference that an act records. -/
def differing? : Act → Option String
  | .difference path _ _ _ => some path
  | _ => none

/-- The skipped operation that an act records. -/
def skip? : Act → Option Skip
  | .skipped path operation fault => some ⟨path, operation, fault.message⟩
  | _ => none

/-- Whether an act records something: all do but the sorting of what is recorded. -/
def isRecord : Act → Bool
  | .sort => false
  | _ => true

variable {a : Act} {p : String} {q : Property} {v w : PropertyValue}

theorem isRecord_eq_false_iff : a.isRecord = false ↔ a = .sort := by
  cases a <;> simp [isRecord]

theorem path?_eq_some_iff {side : Side} : a.path? side = some p ↔ a = .only side p := by
  cases side <;> cases a <;> simp [path?, only]

theorem pair?_eq_some_iff : a.pair? p q = some (v, w) ↔ a = .difference p q v w := by
  cases a with
  | difference path property v' w' =>
    rw [pair?]
    split
    · rename_i hsame
      obtain ⟨rfl, rfl⟩ := hsame
      simp
    · rename_i hother
      refine iff_of_false nofun fun heq => hother ?_
      obtain ⟨rfl, rfl, -⟩ := difference.inj heq
      exact ⟨rfl, rfl⟩
  | _ => simp [pair?]

theorem differing?_eq_some_iff : a.differing? = some p ↔ ∃ q v w, a = .difference p q v w := by
  cases a <;> simp [differing?]

end Act

/-- The acts up to the last sorting. -/
def upToSort (acts : List Act) : List Act := acts.rdropWhile Act.isRecord

/-- The acts since the last sorting. -/
def sinceSort (acts : List Act) : List Act := acts.rtakeWhile Act.isRecord

variable {r : Report} {a : Act} {acts : List Act} {side : Side} {p p' : String}
  {q q' : Property} {v w v' w' : PropertyValue}

/-! ### One act -/

theorem paths_sort :
    r.sort.paths side = (r.paths side).mergeSort fun x y => decide (x ≤ y) := by
  cases side <;> rfl

theorem paths_act (ha : a.isRecord = true) :
    (r.act a).paths side = r.paths side ++ (a.path? side).toList := by
  cases a with
  | sort => cases ha
  | _ => cases side <;> simp [act, paths, Act.path?, recordAdded, recordDeleted, recordDifference,
      recordSkipped]

theorem errors_act : (r.act a).errors = r.errors ++ a.skip?.toList := by
  cases a <;> simp [act, Act.skip?, recordAdded, recordDeleted, recordDifference, recordSkipped]

theorem difference?_act : (r.act a).difference? p q = (a.pair? p q).or (r.difference? p q) := by
  cases a with
  | difference path property v w =>
    rw [act, difference?_recordDifference, Act.pair?]
    split <;> rfl
  | _ => rfl

theorem isMeaningful_act (hr : r.IsMeaningful) : (r.act a).IsMeaningful := by
  cases a with
  | difference path property v w =>
    change (r.note false (.differs path property v w)).IsMeaningful
    exact isMeaningful_note hr
  | _ => exact hr

/-- Two differences may be recorded in either order, if they are not of one attribute of one path.
-/
theorem recordDifference_comm (hne : (p, q) ≠ (p', q')) :
    (r.recordDifference p q v w).recordDifference p' q' v' w'
      = (r.recordDifference p' q' v' w').recordDifference p q v w := by
  simp only [recordDifference, properties?]
  refine congrArg (fun differences => { r with differences }) ?_
  by_cases hp : p = p'
  · subst hp
    have hq : q ≠ q' := fun heq => hne (heq ▸ rfl)
    rw [SortedMap.get?_insert_self, SortedMap.get?_insert_self, Option.getD_some, Option.getD_some,
      SortedMap.insert_insert_self, SortedMap.insert_insert_self, SortedMap.insert_comm hq]
  · rw [SortedMap.get?_insert_of_ne hp, SortedMap.get?_insert_of_ne (Ne.symm hp),
      SortedMap.insert_comm hp]

/-! ### A history -/

theorem ofHistory_append_singleton : ofHistory (acts ++ [a]) = (ofHistory acts).act a := by
  rw [ofHistory, List.foldl_append]; rfl

theorem filterMap_append_singleton {β : Type} {f : Act → Option β} :
    (acts ++ [a]).filterMap f = acts.filterMap f ++ (f a).toList := by
  rw [List.filterMap_append]
  cases hf : f a <;> simp [hf]

theorem errors_ofHistory : (ofHistory acts).errors = acts.filterMap Act.skip? := by
  induction acts using List.reverseRecOn with
  | nil => rfl
  | append_singleton acts a ih =>
    rw [ofHistory_append_singleton, errors_act, ih, filterMap_append_singleton]

theorem difference?_ofHistory :
    (ofHistory acts).difference? p q = (acts.filterMap (Act.pair? p q)).getLast? := by
  induction acts using List.reverseRecOn with
  | nil => rfl
  | append_singleton acts a ih =>
    rw [ofHistory_append_singleton, difference?_act, ih, filterMap_append_singleton,
      List.getLast?_append]
    cases a.pair? p q <;> rfl

theorem isMeaningful_ofHistory : (ofHistory acts).IsMeaningful := by
  induction acts using List.reverseRecOn with
  | nil => exact fun p m hm => nomatch hm
  | append_singleton acts a ih =>
    rw [ofHistory_append_singleton]
    exact isMeaningful_act ih

/-- A pair of values was recorded for an attribute just if there is a last one. -/
theorem exists_difference?_ofHistory :
    (∃ vw, (ofHistory acts).difference? p q = some vw) ↔ ∃ v w, .difference p q v w ∈ acts := by
  rw [difference?_ofHistory]
  constructor
  · rintro ⟨⟨v, w⟩, hlast⟩
    obtain ⟨a, ha, hpair⟩ := List.mem_filterMap.1 (List.mem_of_getLast? hlast)
    exact ⟨v, w, Act.pair?_eq_some_iff.1 hpair ▸ ha⟩
  · rintro ⟨v, w, hmem⟩
    have hpair : (v, w) ∈ acts.filterMap (Act.pair? p q) :=
      List.mem_filterMap.2 ⟨_, hmem, Act.pair?_eq_some_iff.2 rfl⟩
    exact Option.ne_none_iff_exists'.1 (mt List.getLast?_eq_none_iff.1 (List.ne_nil_of_mem hpair))

theorem mem_keys_ofHistory :
    p ∈ (ofHistory acts).differences.keys ↔ ∃ q v w, .difference p q v w ∈ acts := by
  rw [mem_keys_differences_iff isMeaningful_ofHistory]
  exact exists_congr fun q => exists_difference?_ofHistory

/-- The paths of a side are those that were recorded, each as often as it was. -/
theorem paths_ofHistory_perm :
    ((ofHistory acts).paths side).Perm (acts.filterMap (Act.path? side)) := by
  induction acts using List.reverseRecOn with
  | nil => cases side <;> exact .refl _
  | append_singleton acts a ih =>
    rw [ofHistory_append_singleton, filterMap_append_singleton]
    cases ha : a.isRecord with
    | true =>
      rw [paths_act ha]
      exact ih.append_right _
    | false =>
      obtain rfl := Act.isRecord_eq_false_iff.1 ha
      have hnone : (Act.path? side .sort).toList = [] := by cases side <;> rfl
      rw [act, paths_sort, hnone, List.append_nil]
      exact (List.mergeSort_perm _ _).trans ih

/-- The paths of a side come in order up to the last sorting, and then as they were recorded. -/
theorem paths_ofHistory (acts : List Act) (side : Side) : ∃ sorted : List String,
    sorted.Perm ((upToSort acts).filterMap (Act.path? side)) ∧ sorted.Pairwise (· ≤ ·) ∧
    (ofHistory acts).paths side = sorted ++ (sinceSort acts).filterMap (Act.path? side) := by
  induction acts using List.reverseRecOn with
  | nil => exact ⟨[], .refl _, .nil, by cases side <;> rfl⟩
  | append_singleton acts a ih =>
    rw [upToSort, sinceSort, List.rdropWhile_concat, List.rtakeWhile_concat]
    cases ha : a.isRecord with
    | true =>
      obtain ⟨sorted, hperm, horder, hpaths⟩ := ih
      refine ⟨sorted, hperm, horder, ?_⟩
      rw [ofHistory_append_singleton, paths_act ha, hpaths, if_pos rfl, filterMap_append_singleton,
        List.append_assoc]
      rfl
    | false =>
      -- all that was recorded is sorted, and nothing has been recorded since
      rw [if_neg Bool.false_ne_true, if_neg Bool.false_ne_true]
      refine ⟨_, paths_ofHistory_perm, ?_, (List.append_nil _).symm⟩
      rw [ofHistory_append_singleton, Act.isRecord_eq_false_iff.1 ha, act, paths_sort]
      exact pairwise_mergeSort_paths

theorem mem_paths_ofHistory : p ∈ (ofHistory acts).paths side ↔ .only side p ∈ acts := by
  rw [paths_ofHistory_perm.mem_iff, List.mem_filterMap]
  simp only [Act.path?_eq_some_iff, exists_eq_right]

/-! ### What is counted -/

theorem size_differences_ofHistory :
    (ofHistory acts).differences.size = (acts.filterMap Act.differing?).dedup.length := by
  have hperm : (ofHistory acts).differences.keys.Perm (acts.filterMap Act.differing?).dedup := by
    refine (List.perm_ext_iff_of_nodup SortedMap.nodup_keys (List.nodup_dedup _)).2 fun p => ?_
    rw [mem_keys_ofHistory, List.mem_dedup, List.mem_filterMap]
    simp only [Act.differing?_eq_some_iff]
    constructor
    · rintro ⟨q, v, w, hmem⟩
      exact ⟨_, hmem, q, v, w, rfl⟩
    · rintro ⟨a, ha, q, v, w, rfl⟩
      exact ⟨q, v, w, ha⟩
  rw [← hperm.length_eq, SortedMap.keys, List.length_map, SortedMap.size]

theorem summary_ofHistory : (ofHistory acts).summary =
    { added := (acts.filterMap (Act.path? .added)).length
      deleted := (acts.filterMap (Act.path? .deleted)).length
      changed := (acts.filterMap Act.differing?).dedup.length
      skipped := (acts.filterMap Act.skip?).length } := by
  rw [summary, ← paths_ofHistory_perm.length_eq, ← paths_ofHistory_perm.length_eq,
    size_differences_ofHistory, errors_ofHistory]
  rfl

theorem isEmpty_ofHistory : (ofHistory acts).isEmpty = true ↔
    (∀ path, .added path ∉ acts) ∧ (∀ path, .deleted path ∉ acts) ∧
      ∀ path property a b, .difference path property a b ∉ acts := by
  have hpaths : ∀ side, ((ofHistory acts).paths side).isEmpty = true ↔
      ∀ path, .only side path ∉ acts := by
    intro side
    rw [List.isEmpty_iff, List.eq_nil_iff_forall_not_mem]
    exact forall_congr' fun path => not_congr mem_paths_ofHistory
  have hkeys : (ofHistory acts).differences.isEmpty = true ↔
      ∀ path property a b, .difference path property a b ∉ acts := by
    rw [SortedMap.isEmpty, List.isEmpty_iff, ← List.map_eq_nil_iff, ← SortedMap.keys,
      List.eq_nil_iff_forall_not_mem]
    simp only [mem_keys_ofHistory, not_exists]
  rw [isEmpty, Bool.and_eq_true, Bool.and_eq_true, and_assoc]
  exact and_congr (hpaths .added) (and_congr (hpaths .deleted) hkeys)

/-! ### The whole report -/

/-- What a history of acts on a fresh report makes of it, and what the next acts do. -/
structure Tells (acts : List Act) (r : Report) : Prop where
  /-- Each attribute of each path has the last values that were recorded for it. -/
  difference : ∀ p q, r.difference? p q = (acts.filterMap (Act.pair? p q)).getLast?
  /-- There is an entry for the paths of the differences, and for no others. -/
  differing : ∀ p, p ∈ r.differences.keys ↔ ∃ q v w, .difference p q v w ∈ acts
  /-- The paths come in the order of their bytes. -/
  pathsIncrease : r.differences.keys.Pairwise fun p p' => Utf8.encode p < Utf8.encode p'
  /-- The attributes of each path come in the order of their names, in which they are declared. -/
  namesIncrease : ∀ e ∈ r.differences.entries, e.2.keys.Pairwise fun q q' =>
    Utf8.encode q.name < Utf8.encode q'.name ∧ q.ctorIdx < q'.ctorIdx
  errors : r.errors = acts.filterMap Act.skip?
  /-- The paths of a side are those that were recorded for it, each as often as it was. -/
  recorded : ∀ side, (r.paths side).Perm (acts.filterMap (Act.path? side))
  /-- Those up to the last sorting come first, in the order of their bytes, and then the later ones
  as they were recorded. -/
  paths : ∀ side, ∃ sorted : List String,
    sorted.Perm ((upToSort acts).filterMap (Act.path? side)) ∧
    (sorted.Pairwise fun p p' => Utf8.encode p ≤ Utf8.encode p') ∧
    r.paths side = sorted ++ (sinceSort acts).filterMap (Act.path? side)
  summary : r.summary =
    { added := (acts.filterMap (Act.path? .added)).length
      deleted := (acts.filterMap (Act.path? .deleted)).length
      changed := (acts.filterMap Act.differing?).dedup.length
      skipped := (acts.filterMap Act.skip?).length }
  isEmpty : r.isEmpty = true ↔
    (∀ path, .added path ∉ acts) ∧ (∀ path, .deleted path ∉ acts) ∧
      ∀ path property a b, .difference path property a b ∉ acts
  /-- Differences of two attributes, or of two paths, may come in either order. -/
  commute : ∀ p q v w p' q' v' w', (p, q) ≠ (p', q') →
    (r.act (.difference p q v w)).act (.difference p' q' v' w')
      = (r.act (.difference p' q' v' w')).act (.difference p q v w)
  /-- Sorting changes the lists of paths alone. -/
  sortKeeps : ∃ added deleted, r.act .sort = { r with added, deleted }
  sortTwice : (r.act .sort).act .sort = r.act .sort

/-- A report is what its history tells. -/
theorem tells_ofHistory (acts : List Act) : Tells acts (ofHistory acts) where
  difference := fun _ _ => difference?_ofHistory
  differing := fun _ => mem_keys_ofHistory
  pathsIncrease := (ofHistory acts).differences.increasing.map _ fun _ _ hlt =>
    Utf8.encode_lt_encode_iff.2 hlt
  namesIncrease := fun e _ => e.2.increasing.map _ fun _ _ hlt =>
    ⟨Utf8.encode_lt_encode_iff.2 hlt, Property.lt_iff_ctorIdx_lt.1 hlt⟩
  errors := errors_ofHistory
  recorded := fun _ => paths_ofHistory_perm
  paths := by
    intro side
    obtain ⟨sorted, hperm, horder, hpaths⟩ := paths_ofHistory acts side
    exact ⟨sorted, hperm, horder.imp Utf8.encode_le_encode_iff.2, hpaths⟩
  summary := summary_ofHistory
  isEmpty := isEmpty_ofHistory
  commute := fun _ _ _ _ _ _ _ _ hne => recordDifference_comm hne
  sortKeeps := ⟨_, _, rfl⟩
  sortTwice := sort_sort

/-- The later of two values counts, and the path that comes first is met first. -/
example : (ofHistory [.difference "/b" .uid (.id 0) (.id 1), .difference "/a" .gid (.id 2) (.id 3),
    .difference "/b" .uid (.id 0) (.id 4)]).differences.entries.map (fun e => (e.1, e.2.entries))
      = [("/a", [(.gid, .id 2, .id 3)]), ("/b", [(.uid, .id 0, .id 4)])] := by decide

end Report

end TreeComparison

import Mathlib.Data.List.Basic
import TreeComparison.FileSystem.Basic
import TreeComparison.Proofs.StepPath

/-!
Logical paths tell places apart. A place is a list of names, which are steps of a path, so the names
can be read off a path again.
-/

namespace TreeComparison

/-- The logical path of what some names lead to from a directory with the logical path `parent`. -/
def pathBelow (parent : String) (ns : List Name) : String :=
  ns.foldl (fun path n => joinPath path n.bytes) parent

/-- The logical path of what some names lead to from the root of a tree. -/
def logicalPath (ns : List Name) : String := pathBelow "/" ns

@[simp] theorem pathBelow_nil (parent : String) : pathBelow parent [] = parent := rfl

@[simp] theorem pathBelow_cons (parent : String) (n : Name) (ns : List Name) :
    pathBelow parent (n :: ns) = pathBelow (joinPath parent n.bytes) ns := rfl

theorem pathBelow_append (parent : String) (ms ns : List Name) :
    pathBelow parent (ms ++ ns) = pathBelow (pathBelow parent ms) ns := List.foldl_append

theorem logicalPath_append (ms ns : List Name) :
    logicalPath (ms ++ ns) = pathBelow (logicalPath ms) ns := pathBelow_append _ ms ns

theorem joinPath_logicalPath (ms : List Name) (n : Name) :
    joinPath (logicalPath ms) n.bytes = logicalPath (ms ++ [n]) := by
  rw [logicalPath_append]; rfl

/-- A name is a step of a path. -/
def Name.toStep (n : Name) : Step := ⟨n.bytes, n.proper.1, n.proper.2.1, n.proper.2.2.1⟩

theorem Name.toStep_injective : Function.Injective Name.toStep :=
  fun _ _ h => Name.ext (congrArg Step.bytes h)

theorem logicalPath_eq_path (ns : List Name) :
    logicalPath ns = Step.path (ns.map Name.toStep) := by
  rw [Step.path, List.foldl_map]; rfl

theorem logicalPath_ne_root {ns : List Name} (h : ns ≠ []) : logicalPath ns ≠ "/" := by
  obtain ⟨n, ns, rfl⟩ := List.exists_cons_of_ne_nil h
  rw [logicalPath_eq_path, List.map_cons]
  exact Step.path_cons_ne_root

theorem getLast?_logicalPath {ns : List Name} (h : ns ≠ []) :
    (logicalPath ns).toList.getLast? ≠ some '/' := by
  obtain ⟨n, ns, rfl⟩ := List.exists_cons_of_ne_nil h
  rw [logicalPath_eq_path, List.map_cons]
  exact Step.getLast?_path_cons

/-- A logical path leads to one place only. -/
theorem logicalPath_injective : Function.Injective logicalPath := by
  intro ms ns h
  rw [logicalPath_eq_path, logicalPath_eq_path] at h
  exact List.map_injective_iff.2 Name.toStep_injective (Step.path_injective h)

/-! ### Below any parent -/

/-- The characters of a path without a slash at its end. -/
def stem (parent : String) : List Char :=
  if parent.toList.getLast? = some '/' then parent.toList.dropLast else parent.toList

theorem toList_eq_stem (parent : String) :
    parent.toList = stem parent ∨ parent.toList = stem parent ++ ['/'] := by
  by_cases hslash : parent.toList.getLast? = some '/'
  · rw [stem, if_pos hslash]
    exact .inr (List.dropLast_append_getLast? _ hslash).symm
  · rw [stem, if_neg hslash]
    exact .inl rfl

theorem toList_joinPath_stem (parent : String) (n : Name) :
    (joinPath parent n.bytes).toList = stem parent ++ n.toStep.text := by
  by_cases hslash : parent.toList.getLast? = some '/'
  · have hparent : parent.toList = stem parent ++ ['/'] := by
      rw [stem, if_pos hslash]
      exact (List.dropLast_append_getLast? _ hslash).symm
    rw [joinPath, if_pos hslash, String.toList_append, hparent, List.append_assoc]
    rfl
  · rw [stem, if_neg hslash]
    exact Step.toList_joinPath (n := n.toStep) hslash

theorem toList_pathBelow (parent : String) (ns : List Name)
    (h : parent.toList.getLast? ≠ some '/') :
    (pathBelow parent ns).toList = parent.toList ++ ns.flatMap fun n => n.toStep.text := by
  have hsteps : ((ns.map Name.toStep).foldl _ parent).toList = _ := Step.toList_foldl_joinPath h
  rwa [List.foldl_map, List.flatMap_map] at hsteps

/-- Whatever a path starts with, the text of its names stands behind it. -/
theorem toList_pathBelow_cons (parent : String) (n : Name) (ns : List Name) :
    (pathBelow parent (n :: ns)).toList
      = stem parent ++ (n :: ns).flatMap fun n => n.toStep.text := by
  have hjoin := toList_joinPath_stem parent n
  rw [pathBelow_cons, toList_pathBelow _ ns (by rw [hjoin]; exact Step.getLast?_text _ _), hjoin,
    List.flatMap_cons, List.append_assoc]

/-- Names lead away from where they start. -/
theorem pathBelow_cons_ne (parent : String) (n : Name) (ns : List Name) :
    pathBelow parent (n :: ns) ≠ parent := by
  intro heq
  have hlist := congrArg String.toList heq
  rw [toList_pathBelow_cons, List.flatMap_cons, Step.text, List.cons_append] at hlist
  rcases toList_eq_stem parent with hparent | hparent
  · rw [hparent] at hlist
    cases List.append_right_eq_self.1 hlist
  · rw [hparent, List.append_cancel_left_eq, List.cons.injEq] at hlist
    exact n.toStep.toList_escape_ne_nil (List.append_eq_nil_iff.1 hlist.2).1

/-- A path below another one leads to one place only. -/
theorem pathBelow_injective (parent : String) : Function.Injective (pathBelow parent) := by
  intro ms ns h
  rcases ms with _ | ⟨m, ms⟩ <;> rcases ns with _ | ⟨n, ns⟩
  · rfl
  · exact absurd h.symm (pathBelow_cons_ne parent n ns)
  · exact absurd h (pathBelow_cons_ne parent m ms)
  · have hlist := congrArg String.toList h
    rw [toList_pathBelow_cons, toList_pathBelow_cons, List.append_cancel_left_eq,
      ← List.flatMap_map Name.toStep, ← List.flatMap_map Name.toStep] at hlist
    exact List.map_injective_iff.2 Name.toStep_injective (Step.flatMap_text_inj hlist)

/-! ### Below a path -/

/-- Whether a path goes on from another one by a slash and whatever comes after it. -/
def IsBelow (p p' : String) : Prop := ∃ rest, p' = p ++ "/" ++ rest

instance {p p' : String} : Decidable (IsBelow p p') :=
  decidable_of_iff ((p ++ "/").toList <+: p'.toList)
    ⟨fun ⟨rest, h⟩ => ⟨String.ofList rest, String.toList_inj.1 (by simp [← h])⟩,
      fun ⟨rest, h⟩ => ⟨rest.toList, by simp [h]⟩⟩

theorem toList_logicalPath {ns : List Name} (h : ns ≠ []) :
    (logicalPath ns).toList = ns.flatMap fun n => n.toStep.text := by
  obtain ⟨n, ns, rfl⟩ := List.exists_cons_of_ne_nil h
  rw [logicalPath_eq_path, List.map_cons, Step.toList_path_cons, ← List.map_cons, List.flatMap_map]

/-- Below the path of an entry are the paths of what further names lead to, and no others: a name
shows no slash of its own. -/
theorem isBelow_logicalPath_iff {ms ns : List Name} (h : ms ≠ []) :
    IsBelow (logicalPath ms) (logicalPath ns) ↔ ∃ n r, ns = ms ++ n :: r := by
  constructor
  · rintro ⟨rest, hrest⟩
    have hlist := congrArg String.toList hrest
    simp only [String.toList_append, toList_logicalPath h] at hlist
    have hne : ns ≠ [] := by
      rintro rfl
      obtain ⟨m, ms, rfl⟩ := List.exists_cons_of_ne_nil h
      simp [logicalPath, Step.text] at hlist
    rw [toList_logicalPath hne, List.append_assoc] at hlist
    have hsteps : (ns.map Name.toStep).flatMap Step.text
        = (ms.map Name.toStep).flatMap Step.text ++ '/' :: rest.toList := by
      rw [List.flatMap_map, List.flatMap_map, hlist]
      rfl
    obtain ⟨k, ks, hks⟩ := Step.exists_append_of_flatMap_text_slash hsteps
    obtain ⟨ms', r, rfl, hms, hr⟩ := List.map_eq_append_iff.1 hks
    obtain rfl := List.map_injective_iff.2 Name.toStep_injective hms
    obtain ⟨n, r, rfl, -, -⟩ := List.map_eq_cons_iff.1 hr
    exact ⟨n, r, rfl⟩
  · rintro ⟨n, r, rfl⟩
    refine ⟨String.ofList ((escape n.bytes).toList ++ r.flatMap fun n => n.toStep.text), ?_⟩
    apply String.toList_inj.1
    rw [toList_logicalPath (by simp), String.toList_append, String.toList_append,
      toList_logicalPath h, List.flatMap_append, List.flatMap_cons, String.toList_ofList]
    simp [Step.text, Name.toStep]

/-- Nothing is below a path that is not deeper. -/
theorem not_isBelow_of_length_le {ms ns : List Name} (hlen : ns.length ≤ ms.length)
    (hms : ms ≠ []) : ¬ IsBelow (logicalPath ms) (logicalPath ns) := by
  intro hbelow
  obtain ⟨n, r, rfl⟩ := (isBelow_logicalPath_iff hms).1 hbelow
  simp only [List.length_append, List.length_cons] at hlen
  omega

/-- What further names lead to is below a path, unless there are none. -/
theorem isBelow_append_iff {ms ns : List Name} (hms : ms ≠ []) :
    IsBelow (logicalPath ms) (logicalPath (ms ++ ns)) ↔ logicalPath ns ≠ "/" := by
  rw [isBelow_logicalPath_iff hms]
  cases ns with
  | nil => simp [logicalPath]
  | cons n ns => exact iff_of_true ⟨n, ns, rfl⟩ (logicalPath_ne_root (List.cons_ne_nil n ns))

end TreeComparison

import TreeComparison.Proofs.Escape

/-!
Paths as texts. A path is a list of steps, each a byte string that could be the name of an entry;
its text is the text of its raw bytes, with a slash in front of each step. A slash is never part of
a character that was begun before it, so a step is shown in the same way wherever it stands, and as
no step shows a slash of its own, the steps can be read off the text again.
-/

namespace TreeComparison

/-- A step of a path: a byte string that is not empty and has no slash and no NUL byte. -/
@[ext] structure Step where
  bytes : Bytes
  ne_nil : bytes ≠ []
  slash_not_mem : 0x2F ∉ bytes
  nul_not_mem : 0x00 ∉ bytes
  deriving DecidableEq

namespace Step

/-- The logical path that some steps lead to from the root. -/
def path (ns : List Step) : String := ns.foldl (fun parent n => joinPath parent n.bytes) "/"

/-- The raw bytes of the path of some steps. -/
def rawPath (ns : List Step) : Bytes := ns.flatMap fun n => 0x2F :: n.bytes

/-- The characters that a step adds to a path. -/
def text (n : Step) : List Char := '/' :: (escape n.bytes).toList

variable {parent : String} {m n : Step} {ms ns : List Step}

/-! ### One step after the other -/

/-- A step shows something behind its slash. -/
theorem toList_escape_ne_nil (n : Step) : (escape n.bytes).toList ≠ [] := fun h =>
  n.ne_nil (escape_eq_empty_iff.1 (String.toList_eq_nil_iff.1 h))

theorem getLast?_text (n : Step) (l : List Char) : (l ++ n.text).getLast? ≠ some '/' := by
  have hne := n.toList_escape_ne_nil
  rw [text, List.getLast?_append, List.getLast?_cons_of_ne_nil hne,
    List.getLast?_eq_some_getLast hne]
  simp only [Option.some_or, ne_eq, Option.some.injEq]
  exact fun h => slash_not_mem_escape n.slash_not_mem (h ▸ List.getLast_mem hne)

theorem toList_joinPath (h : parent.toList.getLast? ≠ some '/') :
    (joinPath parent n.bytes).toList = parent.toList ++ n.text := by
  simp [joinPath, if_neg h, text]

theorem toList_joinPath_root : (joinPath "/" n.bytes).toList = n.text := by
  rw [joinPath, if_pos (by decide)]
  simp [text]

theorem toList_foldl_joinPath (h : parent.toList.getLast? ≠ some '/') :
    (ns.foldl (fun parent n => joinPath parent n.bytes) parent).toList
      = parent.toList ++ ns.flatMap text := by
  induction ns generalizing parent with
  | nil => simp
  | cons n ns ih =>
    have hjoin := toList_joinPath (n := n) h
    rw [List.foldl_cons, ih (by rw [hjoin]; exact getLast?_text n _), hjoin, List.flatMap_cons,
      List.append_assoc]

/-- The text of a path is the text of its steps, one after the other. -/
theorem toList_path_cons : (path (n :: ns)).toList = (n :: ns).flatMap text := by
  have hjoin := toList_joinPath_root (n := n)
  rw [path, List.foldl_cons, toList_foldl_joinPath (by rw [hjoin]; exact getLast?_text n []), hjoin,
    List.flatMap_cons]

/-- A path that has steps does not end in a slash. -/
theorem getLast?_path_cons : (path (n :: ns)).toList.getLast? ≠ some '/' := by
  rw [toList_path_cons]
  rcases List.eq_nil_or_concat (n :: ns) with hnil | ⟨init, last, hlast⟩
  · cases hnil
  · rw [hlast, List.concat_eq_append, List.flatMap_append, List.flatMap_singleton]
    exact getLast?_text last _

theorem path_cons_ne_root : path (n :: ns) ≠ "/" := by
  intro h
  have hlast : (path (n :: ns)).toList.getLast? ≠ some '/' := getLast?_path_cons
  rw [h] at hlast
  exact hlast rfl

/-! ### Reading the steps off a path -/

/-- The text of some steps is empty or starts with a slash. -/
theorem head?_flatMap_text {c : Char} (hc : c ∈ (ns.flatMap text).head?) : c = '/' := by
  cases ns with
  | nil => cases hc
  | cons n ns => exact (Option.some.inj hc).symm

/-- Up to the next slash, a step is known by its bytes. -/
theorem text_append_inj {l l' : List Char} (hl : ∀ c ∈ l.head?, c = '/')
    (hl' : ∀ c ∈ l'.head?, c = '/') (h : m.text ++ l = n.text ++ l') : m = n ∧ l = l' := by
  -- what stands before the next slash is the text of one step
  have cut : ∀ (k : Step) {l : List Char}, (∀ c ∈ l.head?, c = '/') →
      ((escape k.bytes).toList ++ l).takeWhile (· ≠ '/') = (escape k.bytes).toList := by
    intro k l hl
    rw [List.takeWhile_append_of_pos]
    · cases l with
      | nil => simp
      | cons c l => simp [hl c rfl]
    · intro c hc
      simp only [ne_eq, decide_not, Bool.not_eq_eq_eq_not, Bool.not_true, decide_eq_false_iff_not]
      exact fun hcs => slash_not_mem_escape k.slash_not_mem (hcs ▸ hc)
  simp only [text, List.cons_append, List.cons.injEq, true_and] at h
  have hmn : (escape m.bytes).toList = (escape n.bytes).toList := by
    rw [← cut m hl, h, cut n hl']
  refine ⟨Step.ext (escape_injective (String.toList_inj.1 hmn)), ?_⟩
  rw [hmn] at h
  exact List.append_cancel_left h

theorem flatMap_text_inj : ∀ {ms ns : List Step}, ms.flatMap text = ns.flatMap text → ms = ns
  | [], [], _ => rfl
  | [], n :: ns, h => by simp [text] at h
  | m :: ms, [], h => by simp [text] at h
  | m :: ms, n :: ns, h => by
    obtain ⟨hmn, hrest⟩ :=
      text_append_inj (fun _ => head?_flatMap_text) (fun _ => head?_flatMap_text) h
    rw [hmn, flatMap_text_inj hrest]

/-- What goes on with a slash after the text of some steps goes on with a further step. -/
theorem exists_append_of_flatMap_text_slash {l : List Char} : ∀ {ms ns : List Step},
    ns.flatMap text = ms.flatMap text ++ '/' :: l → ∃ k ks, ns = ms ++ k :: ks
  | [], [], h => by cases h
  | [], n :: ns, _ => ⟨n, ns, rfl⟩
  | m :: ms, [], h => by simp [text] at h
  | m :: ms, n :: ns, h => by
    have hslash : ∀ c ∈ (ms.flatMap text ++ '/' :: l).head?, c = '/' := by
      intro c hc
      cases ms with
      | nil => exact (Option.some.inj hc).symm
      | cons m ms => exact (Option.some.inj hc).symm
    rw [List.flatMap_cons, List.flatMap_cons, List.append_assoc] at h
    obtain ⟨rfl, hrest⟩ := text_append_inj (fun _ => head?_flatMap_text) hslash h
    obtain ⟨k, ks, rfl⟩ := exists_append_of_flatMap_text_slash hrest
    exact ⟨k, ks, rfl⟩

/-- A path leads to one place only. -/
theorem path_injective : Function.Injective path := by
  intro ms ns h
  rcases ms with _ | ⟨m, ms⟩ <;> rcases ns with _ | ⟨n, ns⟩
  · rfl
  · exact absurd h.symm path_cons_ne_root
  · exact absurd h path_cons_ne_root
  · have hlist := congrArg String.toList h
    rw [toList_path_cons, toList_path_cons] at hlist
    exact flatMap_text_inj hlist

/-! ### The text of the raw bytes -/

theorem startsPiece_rawPath : ∀ ns : List Step, Utf8.StartsPiece (rawPath ns)
  | [] => trivial
  | _ :: _ => rfl

theorem tokens_slash_cons (bytes : Bytes) :
    Escape.tokens (0x2F :: bytes) = .plain '/' :: Escape.tokens bytes := by
  rw [Escape.tokens, Utf8.pieces.eq_def]
  rfl

/-- No character and no stray part reaches from one step into the next. -/
theorem toList_escape_rawPath : (escape (rawPath ns)).toList = ns.flatMap text := by
  induction ns with
  | nil => rfl
  | cons n ns ih =>
    -- the slash of the next step begins a piece, so the tokens of the parts are put together
    rw [toList_escape] at ih
    rw [rawPath, List.flatMap_cons, ← rawPath, toList_escape,
      Escape.tokens_append (startsPiece_rawPath ns), tokens_slash_cons, List.flatMap_append, ih,
      List.flatMap_cons, List.flatMap_cons, ← toList_escape]
    rfl

/-- Logical paths are faithful. The path of one step or more is the text of its raw bytes, and also
the texts of its steps put together; it is not the root and does not end in a slash; and no other
list of steps has the same path. -/
theorem path_isFaithful (n : Step) (ns ms : List Step) :
    path (n :: ns) = escape (rawPath (n :: ns)) ∧
      (path (n :: ns)).toList = (n :: ns).flatMap (fun k => '/' :: (escape k.bytes).toList) ∧
      path (n :: ns) ≠ "/" ∧ (path (n :: ns)).toList.getLast? ≠ some '/' ∧
      (path ms = path (n :: ns) ↔ ms = n :: ns) := by
  refine ⟨String.toList_inj.1 ?_, toList_path_cons, path_cons_ne_root, getLast?_path_cons,
    path_injective.eq_iff⟩
  rw [toList_path_cons, toList_escape_rawPath]

/-- The last byte of the first step begins a character that the second one seems to go on with. -/
example : path [⟨[0x63, 0xC3], by decide, by decide, by decide⟩,
    ⟨[0xA9, 0x5C], by decide, by decide, by decide⟩] = "/c\\xc3/\\xa9\\\\" := by decide

end Step

end TreeComparison

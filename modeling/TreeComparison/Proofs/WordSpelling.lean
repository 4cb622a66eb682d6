import TreeComparison.CommandLine.Arguments
import TreeComparison.Proofs.Utf8
import Mathlib.Data.List.TakeWhile

/-!
How the words of a command line are spelled. An option is known by its name after two dashes or by
its letter after one, and may have its value in the same word; a flag is known by its name. A word
is taken for an option, for a flag or for itself just if it is spelled like one, so no word is taken
for two things.
-/

namespace TreeComparison

/-! ### Spelling -/

/-- The name of an option. Paths have none, they are known by their order. -/
def Slot.name? : Slot → Option String
  | .config => some "config"
  | .hash => some "hash"
  | .timeout => some "timeout"
  | .logLevel => some "log-level"
  | .dir1 => none
  | .dir2 => none

/-- The letter of an option. -/
def Slot.letter? : Slot → Option Char
  | .config => some 'c'
  | .logLevel => some 'l'
  | _ => none

/-- The name of a flag. -/
def Flag.name : Flag → String
  | .strict => "strict"
  | .sorted => "sorted"
  | .pretty => "pretty"
  | .exitCode => "exit-code"
  | .logJson => "log-json"

/-- A name after two dashes. -/
def dashed (name : String) : Bytes := 0x2D :: 0x2D :: Utf8.encode name

/-- Whether a word stands for itself: it is a single dash, or does not begin with a dash. -/
def IsPlainWord (w : Bytes) : Prop := w = [0x2D] ∨ w.head? ≠ some 0x2D

namespace Slot

/-- Whether a word names an option and leaves its value to the next word. -/
inductive Begins (slot : Slot) : Bytes → Prop where
  | name (name : String) (h : slot.name? = some name) : Begins slot (dashed name)
  | letter (c : Char) (h : slot.letter? = some c) : Begins slot (0x2D :: String.utf8EncodeChar c)

/-- Whether a word names an option and has its value in it. -/
inductive Holds (slot : Slot) (value : Bytes) : Bytes → Prop where
  | name (name : String) (h : slot.name? = some name) :
      Holds slot value (dashed name ++ 0x3D :: value)
  | letter (c : Char) (h : slot.letter? = some c) (hne : value ≠ [])
      (hequals : value.head? ≠ some 0x3D) :
      Holds slot value (0x2D :: (String.utf8EncodeChar c ++ value))
  | letterEquals (c : Char) (h : slot.letter? = some c) :
      Holds slot value (0x2D :: (String.utf8EncodeChar c ++ 0x3D :: value))

variable {slot : Slot} {w value : Bytes} {c : Char}

/-- What has a letter has a name. -/
theorem name?_isSome_of_letter (h : slot.letter? = some c) : slot.name?.isSome := by
  cases slot <;> first | rfl | cases h

theorem Begins.name?_isSome (h : slot.Begins w) : slot.name?.isSome := by
  cases h with
  | name name h => rw [h]; rfl
  | letter c h => exact name?_isSome_of_letter h

theorem Holds.name?_isSome (h : slot.Holds value w) : slot.name?.isSome := by
  cases h with
  | name name h => rw [h]; rfl
  | letter c h => exact name?_isSome_of_letter h
  | letterEquals c h => exact name?_isSome_of_letter h

end Slot

/-! ### What a word looks like -/

/-- How a word is written that looks like something. -/
inductive Word.Looks : Bytes → Word → Prop where
  | separator : Looks [0x2D, 0x2D] .separator
  | long (name : Bytes) (value : Option Bytes) (hname : 0x3D ∉ name)
      (hne : name ≠ [] ∨ value ≠ none) :
      Looks (0x2D :: 0x2D :: (name ++ value.elim [] (0x3D :: ·))) (.long name value)
  | short (letters : Bytes) (hne : letters ≠ []) (hhead : letters.head? ≠ some 0x2D) :
      Looks (0x2D :: letters) (.short letters)
  | plain (w : Bytes) (hw : IsPlainWord w) : Looks w .plain

theorem Word.of_long (rest : Bytes) (hne : rest ≠ []) : Word.of (0x2D :: 0x2D :: rest) =
    .long (rest.takeWhile (· ≠ 0x3D)) (rest.dropWhile (· ≠ 0x3D)).tail? := by
  cases rest with
  | nil => exact absurd rfl hne
  | cons => rfl

theorem Word.of_short (rest : Bytes) (hne : rest ≠ []) (hhead : rest.head? ≠ some 0x2D) :
    Word.of (0x2D :: rest) = .short rest := by
  rw [Word.of.eq_def]
  split <;> simp_all

theorem Word.of_plain {w : Bytes} (hw : IsPlainWord w) : Word.of w = .plain := by
  rw [Word.of.eq_def]
  rcases hw with rfl | hw
  · rfl
  · split <;> simp_all

theorem Word.of_looks {w : Bytes} {x : Word} (h : Word.Looks w x) : Word.of w = x := by
  cases h with
  | separator => rfl
  | long name value hname hne =>
    have hall : ∀ b ∈ name, decide (b ≠ 0x3D) = true := by
      intro b hb
      refine decide_eq_true fun heq => ?_
      exact hname (heq ▸ hb)
    rw [Word.of_long _ (by cases value <;> simp_all), List.takeWhile_append_of_pos hall,
      List.dropWhile_append_of_pos hall]
    cases value <;> simp
  | short letters hne hhead => exact Word.of_short letters hne hhead
  | plain w hw => exact Word.of_plain hw

/-- What comes before the first equals sign, and what comes after it if there is one. -/
theorem takeWhile_append_equals (rest : Bytes) : rest.takeWhile (· ≠ 0x3D) ++
    (rest.dropWhile (· ≠ 0x3D)).tail?.elim [] (0x3D :: ·) = rest := by
  have hhead := List.head?_dropWhile_not (fun b : UInt8 => decide (b ≠ 0x3D)) rest
  refine Eq.trans (congrArg _ ?_) List.takeWhile_append_dropWhile
  cases hdrop : rest.dropWhile fun b => decide (b ≠ 0x3D) with
  | nil => rfl
  | cons b tail =>
    rw [hdrop] at hhead
    obtain rfl : b = 0x3D := by simpa using hhead
    rfl

/-- What follows two dashes is cut at its first equals sign. -/
theorem Word.looks_of_long {rest : Bytes} (hne : rest ≠ []) :
    Word.Looks (0x2D :: 0x2D :: rest) (Word.of (0x2D :: 0x2D :: rest)) := by
  have hcut := takeWhile_append_equals rest
  have hname : 0x3D ∉ rest.takeWhile (· ≠ 0x3D) := fun hmem => by
    simpa using List.mem_takeWhile_imp hmem
  have hlong := Word.Looks.long _ (rest.dropWhile (· ≠ 0x3D)).tail? hname
    (Classical.not_and_iff_not_or_not.1 fun ⟨hname, hvalue⟩ => by
      rw [hname, hvalue] at hcut
      exact hne hcut.symm)
  rwa [hcut, ← Word.of_long rest hne] at hlong

theorem Word.looks_of (w : Bytes) : Word.Looks w (Word.of w) := by
  have hplain : ∀ {w}, IsPlainWord w → Word.Looks w (Word.of w) := by
    intro w hw
    rw [Word.of_plain hw]
    exact .plain w hw
  rcases w with - | ⟨a, rest⟩
  · exact hplain (.inr nofun)
  by_cases ha : a = 0x2D
  · subst ha
    rcases rest with - | ⟨b, rest⟩
    · exact hplain (.inl rfl)
    by_cases hb : b = 0x2D
    · subst hb
      rcases rest with - | ⟨c, rest⟩
      · exact .separator
      · exact Word.looks_of_long (List.cons_ne_nil c rest)
    · rw [Word.of_short _ (List.cons_ne_nil _ _) (by simpa using hb)]
      exact .short _ (List.cons_ne_nil _ _) (by simpa using hb)
  · exact hplain (.inr (by simpa using ha))

/-! ### Names and letters -/

section Names

variable {slot : Slot} {flag : Flag} {text : String} {c : Char} {bytes rest : Bytes} {s : Switch}

theorem Switch.mem_names_of_ofName? (h : ofName? text = some s) : (text, s) ∈ names := by
  obtain ⟨before, after, hnames, -⟩ := List.lookup_eq_some_iff.1 h
  rw [hnames]
  exact List.mem_append_right _ List.mem_cons_self

theorem Switch.ofName?_eq_option_iff :
    ofName? text = some (.option slot) ↔ slot.name? = some text := by
  constructor
  · intro h
    have hmem := mem_names_of_ofName? h
    simp only [names, List.mem_cons, Prod.mk.injEq, Switch.option.injEq, reduceCtorEq, and_false,
      List.not_mem_nil, or_false, false_or] at hmem
    rcases hmem with ⟨rfl, rfl⟩ | ⟨rfl, rfl⟩ | ⟨rfl, rfl⟩ | ⟨rfl, rfl⟩ <;> rfl
  · intro h
    cases slot <;> cases h <;> rfl

theorem Switch.ofName?_eq_flag_iff : ofName? text = some (.flag flag) ↔ text = flag.name := by
  constructor
  · intro h
    have hmem := mem_names_of_ofName? h
    simp only [names, List.mem_cons, Prod.mk.injEq, Switch.flag.injEq, reduceCtorEq, and_false,
      List.not_mem_nil, or_false, false_or] at hmem
    rcases hmem with ⟨rfl, rfl⟩ | ⟨rfl, rfl⟩ | ⟨rfl, rfl⟩ | ⟨rfl, rfl⟩ | ⟨rfl, rfl⟩ <;> rfl
  · rintro rfl
    cases flag <;> rfl

theorem Switch.ofLetter?_eq_option_iff :
    ofLetter? c = some (.option slot) ↔ slot.letter? = some c := by
  constructor
  · intro h
    rw [ofLetter?.eq_def] at h
    split at h <;> cases h <;> rfl
  · intro h
    cases slot <;> cases h <;> rfl

theorem firstLetter?_eq_some_iff :
    firstLetter? bytes = some (c, rest) ↔ bytes = String.utf8EncodeChar c ++ rest := by
  have hdrop : ∀ (c : Char) (rest : Bytes),
      (String.utf8EncodeChar c ++ rest).drop c.utf8Size = rest := by
    intro c rest
    rw [← String.length_utf8EncodeChar c, List.drop_left]
  rw [firstLetter?.eq_def]
  constructor
  · intro h
    split at h
    · rename_i c' ps hpieces
      have hbytes : bytes = String.utf8EncodeChar c' ++ ps.flatMap Utf8.Piece.bytes := by
        rw [← Utf8.flatMap_bytes_pieces bytes, hpieces, List.flatMap_cons, Utf8.Piece.bytes]
      obtain ⟨rfl, rfl⟩ := Prod.mk.inj (Option.some.inj h)
      rw [hbytes, hdrop]
    · cases h
  · rintro rfl
    simp only [Utf8.pieces_utf8EncodeChar_append, hdrop]

/-- An equals sign ends the name of an option. -/
theorem equals_not_mem_name (h : slot.name? = some text) :
    0x3D ∉ Utf8.encode text ∧ Utf8.encode text ≠ [] := by
  cases slot <;> cases h <;> decide

theorem Flag.equals_not_mem_name : 0x3D ∉ Utf8.encode flag.name ∧ Utf8.encode flag.name ≠ [] := by
  cases flag <;> decide

end Names

/-! ### What a word is taken for -/

/-- What a word is taken for that does not come after two dashes. -/
inductive Sight where
  | separator
  | plain
  | flag (flag : Flag)
  | held (slot : Slot) (value : Bytes)
  | begins (slot : Slot)
  | other

namespace Sight

/-- What a switch is taken for, with the value that stands in the same word. -/
def ofSwitch : Switch → Option Bytes → Sight
  | .option slot, some value => .held slot value
  | .option slot, none => .begins slot
  | .flag f, none => .flag f
  | _, _ => .other

/-- What a word of some looks is taken for. -/
def ofWord : Word → Sight
  | .separator => .separator
  | .long name value => ((Utf8.decode? name).bind Switch.ofName?).elim .other (ofSwitch · value)
  | .short letters => (firstLetter? letters).elim .other fun (c, rest) =>
    match Switch.ofLetter? c with
    | some (.option slot) => ofSwitch (.option slot) (Progress.attached rest)
    | _ => .other
  | .plain => .plain

/-- What a word is taken for. -/
def of (w : Bytes) : Sight := ofWord (Word.of w)

variable {w value : Bytes} {slot : Slot} {flag : Flag}

theorem of_separator : of [0x2D, 0x2D] = .separator := rfl

theorem of_plain (hw : IsPlainWord w) : of w = .plain := by
  rw [of, Word.of_plain hw, ofWord]

theorem of_long {text : String} {s : Switch} (value : Option Bytes)
    (hs : Switch.ofName? text = some s)
    (htext : 0x3D ∉ Utf8.encode text ∧ Utf8.encode text ≠ []) :
    of (dashed text ++ value.elim [] (0x3D :: ·)) = ofSwitch s value := by
  rw [of, dashed, List.cons_append, List.cons_append,
    Word.of_looks (.long _ value htext.1 (.inl htext.2)), ofWord]
  simp only [Utf8.decode?_eq_some_iff.2 rfl, Option.bind_some, hs, Option.elim_some]

theorem of_short {c : Char} (rest : Bytes) (hc : slot.letter? = some c) :
    of (0x2D :: (String.utf8EncodeChar c ++ rest)) =
      ofSwitch (.option slot) (Progress.attached rest) := by
  have hletters : String.utf8EncodeChar c ++ rest ≠ [] ∧
      (String.utf8EncodeChar c ++ rest).head? ≠ some 0x2D := by
    cases slot <;> cases hc <;> simp [String.utf8EncodeChar]
  rw [of, Word.of_looks (.short _ hletters.1 hletters.2), ofWord]
  simp only [firstLetter?_eq_some_iff.2 rfl, Option.elim_some, Switch.ofLetter?_eq_option_iff.2 hc]

theorem of_flag : of (dashed flag.name) = .flag flag := by
  have hlong := of_long none (Switch.ofName?_eq_flag_iff.2 rfl) flag.equals_not_mem_name
  rwa [Option.elim_none, List.append_nil] at hlong

theorem of_held (h : slot.Holds value w) : of w = .held slot value := by
  cases h with
  | name name h =>
    exact of_long (some value) (Switch.ofName?_eq_option_iff.2 h) (equals_not_mem_name h)
  | letter c h hne hequals =>
    have hattached : Progress.attached value = some value := by
      rw [Progress.attached.eq_def]
      split <;> simp_all
    rw [of_short value h, hattached]
    rfl
  | letterEquals c h => exact of_short (0x3D :: value) h

theorem of_begins (h : slot.Begins w) : of w = .begins slot := by
  cases h with
  | name name h =>
    have hlong := of_long none (Switch.ofName?_eq_option_iff.2 h) (equals_not_mem_name h)
    rwa [Option.elim_none, List.append_nil] at hlong
  | letter c h =>
    have hshort := of_short [] h
    rwa [List.append_nil] at hshort

/-- How a word is spelled that is taken for something. -/
def IsSpelled (w : Bytes) : Sight → Prop
  | .separator => w = [0x2D, 0x2D]
  | .plain => IsPlainWord w
  | .flag f => w = dashed f.name
  | .held slot value => slot.Holds value w
  | .begins slot => slot.Begins w
  | .other => True

theorem isSpelled_ofSwitch_name {text : String} {s : Switch} (hs : Switch.ofName? text = some s)
    (value : Option Bytes) :
    IsSpelled (dashed text ++ value.elim [] (0x3D :: ·)) (ofSwitch s value) := by
  cases s with
  | option slot =>
    have hslot := Switch.ofName?_eq_option_iff.1 hs
    cases value with
    | some value => exact .name text hslot
    | none =>
      rw [Option.elim_none, List.append_nil]
      exact .name text hslot
  | flag flag =>
    cases value with
    | some value => trivial
    | none => simp [ofSwitch, IsSpelled, Switch.ofName?_eq_flag_iff.1 hs]
  | inquiry i => cases value <;> trivial

theorem isSpelled_ofSwitch_letter {c : Char} (hc : slot.letter? = some c) (rest : Bytes) :
    IsSpelled (0x2D :: (String.utf8EncodeChar c ++ rest))
      (ofSwitch (.option slot) (Progress.attached rest)) := by
  rw [Progress.attached.eq_def]
  split
  · rw [List.append_nil]
    exact .letter c hc
  · exact .letterEquals c hc
  · rename_i hempty hequals
    refine .letter c hc hempty fun hhead => ?_
    obtain ⟨tail, rfl⟩ := List.head?_eq_some_iff.1 hhead
    exact hequals tail rfl

theorem isSpelled_of (w : Bytes) : IsSpelled w (of w) := by
  have hlooks := Word.looks_of w
  rw [of]
  generalize Word.of w = x at hlooks
  cases hlooks with
  | separator => rfl
  | plain w hw => exact hw
  | long name value hname hne =>
    rw [ofWord]
    cases hs : (Utf8.decode? name).bind Switch.ofName? with
    | none => trivial
    | some s =>
      obtain ⟨text, htext, hswitch⟩ := Option.bind_eq_some_iff.1 hs
      obtain rfl := Utf8.decode?_eq_some_iff.1 htext
      exact isSpelled_ofSwitch_name hswitch value
  | short letters hne hhead =>
    rw [ofWord]
    cases hletter : firstLetter? letters with
    | none => trivial
    | some cr =>
      obtain ⟨c, rest⟩ := cr
      obtain rfl := firstLetter?_eq_some_iff.1 hletter
      dsimp only [Option.elim_some]
      split
      · rename_i slot hslot
        exact isSpelled_ofSwitch_letter (Switch.ofLetter?_eq_option_iff.1 hslot) rest
      · trivial

end Sight

end TreeComparison

import TreeComparison.Proofs.OptionsText
import TreeComparison.Proofs.WordSpelling

/-!
How the words of a command line are read: in one way only, as a list of paths, values and flags. The
words are gone through one after the other, and a value is looked at only when the next word has
been understood. That decides which fault is complained of, and never whether there is one: what is
given in the end is what the things in the list give, each of them taken at once.
-/

namespace TreeComparison

/-! ### Readings -/

/-- One thing that is given on a command line. -/
inductive Item where
  | path (path : Bytes)
  | value (slot : Slot) (value : Bytes)
  | flag (flag : Flag)
  deriving DecidableEq, Repr

/-- What words give, one thing after the other. After two dashes all words are paths. -/
inductive Reads : List Bytes → List Item → Prop where
  | done : Reads [] []
  | path {words : List Bytes} {items : List Item} (w : Bytes) (hw : IsPlainWord w)
      (h : Reads words items) : Reads (w :: words) (.path w :: items)
  | flag {words : List Bytes} {items : List Item} (flag : Flag) (h : Reads words items) :
      Reads (dashed flag.name :: words) (.flag flag :: items)
  | held {words : List Bytes} {items : List Item} (slot : Slot) (w value : Bytes)
      (hw : slot.Holds value w) (h : Reads words items) :
      Reads (w :: words) (.value slot value :: items)
  | apart {words : List Bytes} {items : List Item} (slot : Slot) (w value : Bytes)
      (hw : slot.Begins w) (hvalue : IsPlainWord value) (h : Reads words items) :
      Reads (w :: value :: words) (.value slot value :: items)
  | onlyPaths (paths : List Bytes) : Reads ([0x2D, 0x2D] :: paths) (paths.map .path)

variable {w : Bytes} {words : List Bytes} {items items' : List Item}

theorem reads_nil_iff : Reads [] items ↔ items = [] := by
  constructor
  · rintro ⟨⟩
    rfl
  · rintro rfl
    exact .done

/-- How words are read is told by what the first of them is taken for. -/
theorem reads_cons_iff : Reads (w :: words) items ↔
    match Sight.of w with
    | .separator => items = words.map .path
    | .plain => ∃ rest, items = .path w :: rest ∧ Reads words rest
    | .flag flag => ∃ rest, items = .flag flag :: rest ∧ Reads words rest
    | .held slot value => ∃ rest, items = .value slot value :: rest ∧ Reads words rest
    | .begins slot => ∃ value words' rest, words = value :: words' ∧ IsPlainWord value ∧
        items = .value slot value :: rest ∧ Reads words' rest
    | .other => False := by
  constructor
  · intro h
    cases h with
    | path w hw h => simpa [Sight.of_plain hw] using h
    | flag flag h => simpa [Sight.of_flag] using h
    | held slot w value hw h => simpa [Sight.of_held hw] using h
    | apart slot w value hw hvalue h =>
      rw [Sight.of_begins hw]
      exact ⟨value, _, _, rfl, hvalue, rfl, h⟩
    | onlyPaths paths => rw [Sight.of_separator]
  · intro h
    have hw := Sight.isSpelled_of w
    split at h <;> rename_i hs <;> rw [hs] at hw
    · rw [h, show w = [0x2D, 0x2D] from hw]
      exact .onlyPaths words
    · obtain ⟨rest, rfl, h⟩ := h
      exact .path w hw h
    · obtain ⟨rest, rfl, h⟩ := h
      rw [show w = dashed _ from hw]
      exact .flag _ h
    · obtain ⟨rest, rfl, h⟩ := h
      exact .held _ w _ hw h
    · obtain ⟨value, words, rest, rfl, hvalue, rfl, h⟩ := h
      exact .apart _ w value hw hvalue h
    · exact h.elim

/-- Words are read in one way only. -/
theorem Reads.unique (h : Reads words items) (h' : Reads words items') : items' = items := by
  induction h generalizing items' with
  | done => exact reads_nil_iff.1 h'
  | path w hw h ih =>
    rw [reads_cons_iff, Sight.of_plain hw] at h'
    obtain ⟨rest, rfl, h'⟩ := h'
    rw [ih h']
  | flag flag h ih =>
    rw [reads_cons_iff, Sight.of_flag] at h'
    obtain ⟨rest, rfl, h'⟩ := h'
    rw [ih h']
  | held slot w value hw h ih =>
    rw [reads_cons_iff, Sight.of_held hw] at h'
    obtain ⟨rest, rfl, h'⟩ := h'
    rw [ih h']
  | apart slot w value hw hvalue h ih =>
    rw [reads_cons_iff, Sight.of_begins hw] at h'
    obtain ⟨value', words', rest, heq, -, rfl, h'⟩ := h'
    obtain ⟨rfl, rfl⟩ := List.cons.inj heq
    rw [ih h']
  | onlyPaths paths =>
    rw [reads_cons_iff, Sight.of_separator] at h'
    exact h'

/-! ### What is given -/

section Results

variable {α β ε ε' : Type} {x : Except ε α}

theorem toOption_bind {f : α → Except ε β} :
    (x >>= f).toOption = x.toOption.bind fun a => (f a).toOption := by
  cases x <;> rfl

theorem toOption_map {f : α → β} : (x.map f).toOption = x.toOption.map f := by
  cases x <;> rfl

theorem toOption_mapError {f : ε → ε'} : (x.mapError f).toOption = x.toOption := by
  cases x <;> rfl

theorem toOption_eq_some_iff {a : α} : x.toOption = some a ↔ x = .ok a := by
  cases x <;> simp [Except.toOption]

end Results

/-- Whether a value is the name of a digest, in letters of any case. -/
def HashAlgorithm.IsNamedBy (a : HashAlgorithm) (value : Bytes) : Prop :=
  ∃ text, value = Utf8.encode text ∧ LowerCase.lowerAscii text = a.tag

theorem ofOption_eq_ok_iff {text : String} {a : HashAlgorithm} :
    HashAlgorithm.ofOption text = .ok a ↔ LowerCase.lowerAscii text = a.tag := by
  rw [HashAlgorithm.ofOption, ← HashAlgorithm.ofTag?_eq_some_iff]
  cases HashAlgorithm.ofTag? (LowerCase.lowerAscii text) <;> simp

section Seconds

variable {m n : Nat} {cs : List Char}

theorem le_of_foldlM_digits
    (h : cs.foldlM (fun n c => (Digits.valueIn? 10 c).map (n * 10 + ·)) m = some n) : m ≤ n := by
  induction cs generalizing m with
  | nil => exact Nat.le_of_eq (Option.some.inj h)
  | cons c cs ih =>
    obtain ⟨m', hm', h⟩ := Option.bind_eq_some_iff.1 h
    obtain ⟨d, -, rfl⟩ := Option.map_eq_some_iff.1 hm'
    exact Nat.le_trans (by omega) (ih h)

/-- It is the same to look at the size after each digit and in the end. -/
theorem foldlM_addDigit_iff : (cs.foldlM addDigit m).toOption = some n ↔
    cs.foldlM (fun n c => (Digits.valueIn? 10 c).map (n * 10 + ·)) m = some n ∧
      (cs = [] ∨ n < UInt64.size) := by
  induction cs generalizing m with
  | nil => simp [pure, Except.pure, Except.toOption]
  | cons c cs ih =>
    rw [List.foldlM_cons, List.foldlM_cons, toOption_bind, addDigit]
    cases Digits.valueIn? 10 c with
    | none => simp [Except.toOption]
    | some d =>
      simp only [Option.map_some, Option.bind_eq_bind, Option.bind_some, reduceCtorEq, false_or]
      by_cases hfits : m * 10 + d < UInt64.size
      · rw [if_pos hfits]
        refine ih.trans (and_congr_right fun hfold => ?_)
        cases cs with
        | nil => simp [← Option.some.inj hfold, hfits]
        | cons c cs => simp
      · rw [if_neg hfits]
        refine iff_of_false nofun fun ⟨hfold, hn⟩ => hfits ?_
        exact Nat.lt_of_le_of_lt (le_of_foldlM_digits hfold) hn

/-- A number of seconds is one in decimal digits that fits in 64 bits; a plus sign may stand in
front. -/
theorem seconds_eq_ok_iff : seconds cs = .ok n ↔ ∃ digits, (cs = digits ∨ cs = '+' :: digits) ∧
    Digits.read? 10 digits = some n ∧ n < UInt64.size := by
  have hdigits : ∀ ds : List Char, ds ≠ [] → ((ds.foldlM addDigit 0).toOption = some n ↔
      Digits.read? 10 ds = some n ∧ n < UInt64.size) := by
    intro ds hds
    rw [foldlM_addDigit_iff, Digits.read?, if_neg (by simpa using hds)]
    simp [hds]
  rw [← toOption_eq_some_iff, seconds.eq_def]
  split
  · refine iff_of_false (Option.some_ne_none _).symm ?_
    rintro ⟨digits, rfl | hcs, hread, -⟩
    · cases hread
    · cases hcs
  · refine iff_of_false (Option.some_ne_none _).symm ?_
    rintro ⟨digits, rfl | hcs, hread, -⟩
    · cases hread
    · obtain rfl := (List.cons.inj hcs).2.symm
      cases hread
  · rename_i digits hne
    rw [hdigits digits (by rintro rfl; exact hne rfl)]
    constructor
    · exact fun h => ⟨digits, .inr rfl, h⟩
    · rintro ⟨digits', rfl | hcs, h⟩
      · cases h.1
      · exact (List.cons.inj hcs).2 ▸ h
  · rename_i hempty _ hplus
    rw [hdigits cs hempty]
    constructor
    · exact fun h => ⟨cs, .inl rfl, h⟩
    · rintro ⟨digits, rfl | rfl, h⟩
      · exact h
      · exact (hplus digits rfl).elim

end Seconds

/-- Whether a value is a number of seconds: one in decimal digits that fits in 64 bits, and a plus
sign may stand in front. -/
def IsSeconds (value : Bytes) (n : Nat) : Prop :=
  ∃ digits, (value = Utf8.encode (String.ofList digits) ∨
    value = Utf8.encode (String.ofList ('+' :: digits))) ∧
    Digits.read? 10 digits = some n ∧ n < UInt64.size

theorem isSeconds_iff {value : Bytes} {n : Nat} :
    IsSeconds value n ↔ ∃ text, value = Utf8.encode text ∧ seconds text.toList = .ok n := by
  simp only [seconds_eq_ok_iff]
  constructor
  · rintro ⟨digits, rfl | rfl, h⟩
    · exact ⟨_, rfl, digits, .inl String.toList_ofList, h⟩
    · exact ⟨_, rfl, digits, .inr String.toList_ofList, h⟩
  · rintro ⟨text, rfl, digits, hcs | hcs, h⟩
    · exact ⟨digits, .inl (by rw [← hcs, String.ofList_toList]), h⟩
    · exact ⟨digits, .inr (by rw [← hcs, String.ofList_toList]), h⟩

namespace Given

/-- What may become of what is given when a value is taken. -/
inductive Takes (g : Given) (value : Bytes) : Slot → Given → Prop where
  | dir1 (h : g.dir1 = none) (hvalue : value ≠ []) :
      Takes g value .dir1 { g with dir1 := some value }
  | dir2 (h : g.dir2 = none) (hvalue : value ≠ []) :
      Takes g value .dir2 { g with dir2 := some value }
  | config (h : g.config = none) (hvalue : value ≠ []) :
      Takes g value .config { g with config := some value }
  | hash (a : HashAlgorithm) (h : g.hash = none) (hvalue : a.IsNamedBy value) :
      Takes g value .hash { g with hash := some a }
  | timeout (n : Nat) (h : g.timeout = none) (hvalue : IsSeconds value n) :
      Takes g value .timeout { g with timeout := some n }
  | logLevel (text : String) (h : g.logLevel = none) (hvalue : value = Utf8.encode text) :
      Takes g value .logLevel { g with logLevel := some text }

variable {g g' : Given} {slot : Slot} {value : Bytes}

theorem toOption_pathValue_iff {p : Bytes} :
    (pathValue slot value).toOption = some p ↔ value ≠ [] ∧ p = value := by
  rw [pathValue]
  split <;> simp_all [Except.toOption, eq_comm]

theorem toOption_textValue_iff {text : String} :
    (textValue value).toOption = some text ↔ value = Utf8.encode text := by
  rw [← Utf8.decode?_eq_some_iff, textValue]
  cases Utf8.decode? value <;> rfl

theorem toOption_path_iff {change : Bytes → Given} :
    ((pathValue slot value).map change).toOption = some g' ↔ value ≠ [] ∧ change value = g' := by
  rw [toOption_map, Option.map_eq_some_iff]
  simp only [toOption_pathValue_iff, and_assoc, exists_and_left, exists_eq_left]

theorem toOption_text_iff {change : String → Except UsageError Given} :
    (textValue value >>= change).toOption = some g' ↔
      ∃ text, value = Utf8.encode text ∧ (change text).toOption = some g' := by
  rw [toOption_bind, Option.bind_eq_some_iff]
  simp only [toOption_textValue_iff]

theorem Takes.has_eq_false (h : g.Takes value slot g') : g.has slot = false := by
  cases h with
  | _ => rename_i h _; rw [has, h, Option.isSome_none]

theorem Takes.toOption_set (h : g.Takes value slot g') :
    (g.set slot value).toOption = some g' := by
  rw [Given.set.eq_def, if_neg (by rw [h.has_eq_false]; exact Bool.false_ne_true)]
  cases h with
  | hash a h hvalue =>
    obtain ⟨text, htext, ha⟩ := hvalue
    refine toOption_text_iff.2 ⟨text, htext, ?_⟩
    rw [ofOption_eq_ok_iff.2 ha]
    rfl
  | timeout n h hvalue =>
    obtain ⟨text, htext, hn⟩ := isSeconds_iff.1 hvalue
    refine toOption_text_iff.2 ⟨text, htext, ?_⟩
    rw [hn]
    rfl
  | logLevel text h hvalue => exact toOption_text_iff.2 ⟨text, hvalue, rfl⟩
  | _ h hvalue => exact toOption_path_iff.2 ⟨hvalue, rfl⟩

theorem takes_of_toOption_set (h : (g.set slot value).toOption = some g') :
    g.Takes value slot g' := by
  rw [Given.set.eq_def] at h
  split at h
  · cases h
  rename_i hhas
  cases slot with
  | dir1 =>
    obtain ⟨hvalue, rfl⟩ := toOption_path_iff.1 h
    exact .dir1 (Option.not_isSome_iff_eq_none.1 hhas) hvalue
  | dir2 =>
    obtain ⟨hvalue, rfl⟩ := toOption_path_iff.1 h
    exact .dir2 (Option.not_isSome_iff_eq_none.1 hhas) hvalue
  | config =>
    obtain ⟨hvalue, rfl⟩ := toOption_path_iff.1 h
    exact .config (Option.not_isSome_iff_eq_none.1 hhas) hvalue
  | hash =>
    obtain ⟨text, htext, h⟩ := toOption_text_iff.1 h
    split at h
    · rename_i a ha
      obtain rfl := Option.some.inj h
      exact .hash a (Option.not_isSome_iff_eq_none.1 hhas) ⟨text, htext, ofOption_eq_ok_iff.1 ha⟩
    · cases h
  | timeout =>
    obtain ⟨text, htext, h⟩ := toOption_text_iff.1 h
    split at h
    · rename_i n hn
      obtain rfl := Option.some.inj h
      exact .timeout n (Option.not_isSome_iff_eq_none.1 hhas) (isSeconds_iff.2 ⟨text, htext, hn⟩)
    · cases h
  | logLevel =>
    obtain ⟨text, htext, h⟩ := toOption_text_iff.1 h
    obtain rfl := Option.some.inj h
    exact .logLevel text (Option.not_isSome_iff_eq_none.1 hhas) htext

/-- What comes of a value is told by its slot, and no slot takes two. -/
theorem toOption_set_iff : (g.set slot value).toOption = some g' ↔ g.Takes value slot g' :=
  ⟨takes_of_toOption_set, Takes.toOption_set⟩

/-- How many paths are given. -/
def count (g : Given) : Nat := g.dir1.toList.length + g.dir2.toList.length

/-- What the next path is, after so many. -/
def nextPath? : Nat → Option Slot
  | 0 => some .dir1
  | 1 => some .dir2
  | _ => none

/-- Takes one more thing, if it can be taken. -/
def put (g : Given) : Item → Option Given
  | .path w => (nextPath? g.count).bind fun slot => (g.set slot w).toOption
  | .value slot value => (g.set slot value).toOption
  | .flag flag => (g.raise flag).toOption

theorem toOption_raise_iff {flag : Flag} : (g.raise flag).toOption = some g' ↔
    flag ∉ g.flags ∧ g' = { g with flags := flag :: g.flags } := by
  rw [raise]
  split <;> simp_all [Except.toOption, eq_comm]

theorem Takes.count_of_path {n : Nat} (h : g.Takes value slot g')
    (hslot : nextPath? n = some slot) : g'.count = g.count + 1 := by
  rw [nextPath?.eq_def] at hslot
  split at hslot <;> cases hslot <;> cases h <;> simp_all [count, Nat.add_comm]

theorem Takes.count_of_name (h : g.Takes value slot g') (hslot : slot.name?.isSome) :
    g'.count = g.count := by
  cases h <;> first | rfl | cases hslot

end Given

namespace Progress

variable {p : Progress} {g g' : Given} {n : Nat} {slot : Slot} {value : Bytes} {b : Bool}

/-- What is given once the words have been read to their end, if none of them is refused. -/
def rest? (p : Progress) : List Bytes → Option Given
  | [] => p.settle.toOption.map (·.given)
  | w :: words => (p.step w).toOption.bind (·.rest? words)

/-- How far the words are read after one more of them, if it is not refused for what it is taken
for. -/
def after? (p : Progress) (w : Bytes) : Sight → Option Progress
  | .separator => some { p with onlyPaths := true }
  | .plain =>
    match p.pending with
    | some (slot, none) => some { p with pending := some (slot, some w) }
    | _ => (p.path w).toOption
  | .flag flag => p.settle.toOption.bind fun p =>
    (p.given.raise flag).toOption.map fun g => { p with given := g }
  | .held slot value => p.settle.toOption.bind fun p =>
    (p.given.set slot value).toOption.map fun g => { p with given := g }
  | .begins slot => p.settle.toOption.map fun p => { p with pending := some (slot, none) }
  | .other => none

theorem toOption_switch (s : Switch) (value : Option Bytes) :
    (p.switch s value).toOption = p.after? w (Sight.ofSwitch s value) := by
  cases s with
  | inquiry i =>
    cases value with
    | some value => rfl
    | none =>
      rw [switch, toOption_bind]
      exact Option.bind_fun_none _
  | flag flag =>
    cases value with
    | some value => rfl
    | none =>
      simp only [switch, toOption_bind, toOption_mapError, Sight.ofSwitch, after?,
        Option.map_eq_bind]
      rfl
  | option slot =>
    cases value with
    | some value =>
      simp only [switch, toOption_bind, toOption_mapError, Sight.ofSwitch, after?,
        Option.map_eq_bind]
      rfl
    | none =>
      simp only [switch, toOption_map, toOption_mapError, Sight.ofSwitch, after?]

/-- A step that is not refused does what the word is taken for. -/
theorem toOption_step (hp : p.onlyPaths = false) :
    (p.step w).toOption = p.after? w (Sight.of w) := by
  rw [step, if_neg (by simp [hp]), Sight.of]
  cases Word.of w with
  | separator => rfl
  | long name value =>
    dsimp only [Sight.ofWord]
    cases (Utf8.decode? name).bind Switch.ofName? with
    | none => rfl
    | some s => exact toOption_switch s value
  | short letters =>
    dsimp only [Sight.ofWord]
    cases firstLetter? letters with
    | none => rfl
    | some cr =>
      obtain ⟨c, rest⟩ := cr
      dsimp only [Option.elim_some]
      cases hs : Switch.ofLetter? c with
      | none => rfl
      | some s =>
        cases s with
        | option slot => exact toOption_switch (.option slot) (attached rest)
        | flag flag => rw [Switch.ofLetter?.eq_def] at hs; split at hs <;> cases hs
        | inquiry i => exact toOption_switch (.inquiry i) none
  | plain =>
    dsimp only [Sight.ofWord, after?]
    rcases p.pending with - | ⟨slot, - | value⟩
    · exact toOption_mapError
    · rfl
    · exact toOption_mapError

theorem settle_of_value : (⟨g, some (slot, some value), n, b⟩ : Progress).settle.toOption =
    (g.set slot value).toOption.map fun g => ⟨g, none, n, b⟩ := toOption_map

theorem toOption_step_of_onlyPaths (hp : p.onlyPaths = true) :
    (p.step w).toOption = (p.path w).toOption := by
  rw [step, if_pos hp, toOption_mapError]

theorem toOption_path : (p.path w).toOption = (Given.nextPath? p.paths).bind fun slot =>
    p.settle.toOption.map fun p =>
      { p with pending := some (slot, some w), paths := p.paths + 1 } := by
  rw [path]
  rcases p.paths with - | - | n
  · cases p.settle <;> rfl
  · cases p.settle <;> rfl
  · rfl

/-- A value that is still to be looked at may as well be taken before the next word is read. -/
theorem after?_of_value {sight : Sight} (hsight : sight ≠ .separator) :
    (⟨g, some (slot, some value), n, b⟩ : Progress).after? w sight =
      (g.set slot value).toOption.bind fun g => (⟨g, none, n, b⟩ : Progress).after? w sight := by
  cases sight with
  | separator => exact absurd rfl hsight
  | _ =>
    simp only [after?, toOption_path, settle_of_value]
    cases hset : g.set slot value <;> cases Given.nextPath? n <;> rfl

/-- So it may before all words that follow. -/
theorem rest?_of_value : (⟨g, some (slot, some value), n, b⟩ : Progress).rest? words =
    (g.set slot value).toOption.bind fun g => (⟨g, none, n, b⟩ : Progress).rest? words := by
  induction words generalizing b with
  | nil =>
    rw [rest?, settle_of_value]
    cases g.set slot value <;> rfl
  | cons w words ih =>
    cases b with
    | true =>
      have hplain : Sight.plain ≠ .separator := nofun
      have hpath : ((⟨g, some (slot, some value), n, true⟩ : Progress).path w).toOption =
          (g.set slot value).toOption.bind fun g =>
            ((⟨g, none, n, true⟩ : Progress).path w).toOption := after?_of_value hplain
      simp only [rest?, toOption_step_of_onlyPaths, hpath, Option.bind_assoc]
    | false =>
      simp only [rest?, toOption_step]
      by_cases hsight : Sight.of w = .separator
      · simp only [hsight, after?, Option.bind_some, ih]
      · rw [after?_of_value hsight, Option.bind_assoc]

/-- A value that does not come is missing. -/
theorem rest?_of_missing :
    (⟨g, some (slot, none), n, true⟩ : Progress).rest? words = none := by
  cases words with
  | nil => rfl
  | cons w words =>
    have hsettle : (⟨g, some (slot, none), n, true⟩ : Progress).settle.toOption = none := rfl
    simp only [rest?, toOption_step_of_onlyPaths, toOption_path, hsettle, Option.map_none,
      Option.bind_fun_none, Option.bind_none]

/-- A value comes in the next word, and this word must stand for itself. -/
theorem rest?_of_awaited : (⟨g, some (slot, none), n, false⟩ : Progress).rest? words = some g' ↔
    ∃ value words', words = value :: words' ∧ IsPlainWord value ∧
      (⟨g, some (slot, some value), n, false⟩ : Progress).rest? words' = some g' := by
  have hsettle : (⟨g, some (slot, none), n, false⟩ : Progress).settle.toOption = none := rfl
  cases words with
  | nil => simp [rest?, hsettle]
  | cons w words =>
    simp only [rest?, toOption_step]
    by_cases hw : IsPlainWord w
    · simp [Sight.of_plain hw, after?, hw, and_assoc]
    · have hsight : Sight.of w ≠ .plain := by
        intro hs
        have hspelled := Sight.isSpelled_of w
        rw [hs] at hspelled
        exact hw hspelled
      cases hs : Sight.of w with
      | plain => exact absurd hs hsight
      | separator => simp [after?, rest?_of_missing, hw]
      | _ => simp [after?, hsettle, hw]

/-- A path is taken at once, as far as what follows is concerned. -/
theorem bind_path {n : Nat} (hn : n = g.count) :
    ((⟨g, none, n, b⟩ : Progress).path w).toOption.bind (·.rest? words) =
      (g.put (.path w)).bind fun g => (⟨g, none, g.count, b⟩ : Progress).rest? words := by
  subst hn
  rw [toOption_path, Given.put, Option.bind_assoc, Option.bind_assoc]
  cases hslot : Given.nextPath? g.count with
  | none => rfl
  | some slot =>
    change (⟨g, some (slot, some w), g.count + 1, b⟩ : Progress).rest? words = _
    rw [rest?_of_value, Option.bind_some]
    refine Option.bind_congr fun g' hg' => ?_
    rw [(Given.toOption_set_iff.1 hg').count_of_path hslot]

theorem rest?_of_onlyPaths {n : Nat} (hn : n = g.count) :
    (⟨g, none, n, true⟩ : Progress).rest? words = (words.map .path).foldlM Given.put g := by
  induction words generalizing g n with
  | nil => rfl
  | cons w words ih =>
    simp only [rest?, toOption_step_of_onlyPaths, List.map_cons, List.foldlM_cons]
    rw [bind_path hn]
    exact Option.bind_congr fun g _ => ih rfl

/-- A value is taken at once, as far as what follows is concerned. -/
theorem bind_value {n : Nat} (hn : n = g.count) (hslot : slot.name?.isSome) :
    ((g.set slot value).toOption.bind fun g => (⟨g, none, n, b⟩ : Progress).rest? words) =
      (g.put (.value slot value)).bind fun g => (⟨g, none, g.count, b⟩ : Progress).rest? words := by
  subst hn
  refine Option.bind_congr fun g' hg' => ?_
  rw [(Given.toOption_set_iff.1 hg').count_of_name hslot]

/-- What comes first can be taken before the rest. -/
theorem exists_foldlM_cons_iff {i : Item} :
    (∃ items, (∃ rest, items = i :: rest ∧ Reads words rest) ∧
      items.foldlM Given.put g = some g') ↔
    ∃ g₁, g.put i = some g₁ ∧ ∃ rest, Reads words rest ∧ rest.foldlM Given.put g₁ = some g' := by
  constructor
  · rintro ⟨_, ⟨rest, rfl, hrest⟩, h⟩
    obtain ⟨g₁, hg₁, h⟩ := Option.bind_eq_some_iff.1 h
    exact ⟨g₁, hg₁, rest, hrest, h⟩
  · rintro ⟨g₁, hg₁, rest, hrest, h⟩
    exact ⟨i :: rest, ⟨rest, rfl, hrest⟩, Option.bind_eq_some_iff.2 ⟨g₁, hg₁, h⟩⟩

/-- What is given in the end is what the words give, one thing after the other. -/
theorem rest?_eq_some_iff (words : List Bytes) (g : Given) :
    (⟨g, none, g.count, false⟩ : Progress).rest? words = some g' ↔
      ∃ items, Reads words items ∧ items.foldlM Given.put g = some g' := by
  match words with
  | [] => simp [rest?, reads_nil_iff, settle, Except.toOption]
  | w :: words =>
    have ih := rest?_eq_some_iff words
    have hw := Sight.isSpelled_of w
    simp only [rest?, toOption_step, reads_cons_iff]
    cases hs : Sight.of w with
    | separator => simp [after?, rest?_of_onlyPaths]
    | plain =>
      change ((⟨g, none, g.count, false⟩ : Progress).path w).toOption.bind _ = _ ↔ _
      simp only [bind_path rfl, Option.bind_eq_some_iff, ih, exists_foldlM_cons_iff]
    | flag flag =>
      have hafter : ((⟨g, none, g.count, false⟩ : Progress).after? w (.flag flag)).bind
          (·.rest? words) = (g.put (.flag flag)).bind fun g =>
            (⟨g, none, g.count, false⟩ : Progress).rest? words := by
        refine Option.bind_map.trans (Option.bind_congr fun g' hg' => ?_)
        obtain ⟨-, rfl⟩ := Given.toOption_raise_iff.1 hg'
        rfl
      simp only [hafter, Option.bind_eq_some_iff, ih, exists_foldlM_cons_iff]
    | held slot value =>
      rw [hs] at hw
      replace hw : slot.Holds value w := hw
      have hafter : ((⟨g, none, g.count, false⟩ : Progress).after? w (.held slot value)).bind
          (·.rest? words) = (g.set slot value).toOption.bind fun g' =>
            (⟨g', none, g.count, false⟩ : Progress).rest? words := Option.bind_map
      simp only [hafter, bind_value rfl hw.name?_isSome, Option.bind_eq_some_iff, ih,
        exists_foldlM_cons_iff]
    | begins slot =>
      rw [hs] at hw
      replace hw : slot.Begins w := hw
      change (⟨g, some (slot, none), g.count, false⟩ : Progress).rest? words = some g' ↔ _
      rw [rest?_of_awaited]
      simp only [rest?_of_value, bind_value rfl hw.name?_isSome, Option.bind_eq_some_iff]
      constructor
      · rintro ⟨value, words', rfl, hvalue, g₁, hg₁, hrest⟩
        obtain ⟨rest, hreads, hfold⟩ := (rest?_eq_some_iff words' g₁).1 hrest
        exact ⟨.value slot value :: rest, ⟨value, words', rest, rfl, hvalue, rfl, hreads⟩,
          Option.bind_eq_some_iff.2 ⟨g₁, hg₁, hfold⟩⟩
      · rintro ⟨_, ⟨value, words', rest, rfl, hvalue, rfl, hreads⟩, h⟩
        obtain ⟨g₁, hg₁, hfold⟩ := Option.bind_eq_some_iff.1 h
        exact ⟨value, words', rfl, hvalue, g₁, hg₁,
          (rest?_eq_some_iff words' g₁).2 ⟨rest, hreads, hfold⟩⟩
    | other => simp [after?]
termination_by words.length

end Progress

end TreeComparison

import Mathlib.Data.List.TakeWhile
import TreeComparison.Json.Parser

/-!
The grammar of JSON, and that texts are read by it. What spells a string, a number or a value is
said without regard to how it is read. Each reader takes from the front of a text what spells its
result, and finds it wherever it stands: a string by its quote, an array or object by its bracket,
and a number by what comes after it, which never goes on with a number. So a text is read as a value
just if it spells this value with blanks around it.
-/

namespace TreeComparison.Json

variable {bound n : Nat} {bs cs cs' ds es rest w : List Char} {c : Char} {v v' : Json}
  {vs : List Json} {ps : List Piece} {t : JsonText} {ms : List (JsonText × Json)}

/-! ### What spells a value -/

/-- Whether all of some characters are blanks. -/
def AreBlanks (bs : List Char) : Prop := ∀ c ∈ bs, isBlank c = true

/-- The pieces that are spelled between the quotes of a string. A character that is no quote, no
backslash and no control character spells itself; after a backslash comes a letter, or a `u` and the
four digits of a code unit. -/
inductive SpellsPieces : List Piece → List Char → Prop
  | nil : SpellsPieces [] []
  | plain {c : Char} {ps : List Piece} {cs : List Char} (hquote : c ≠ '"') (hbackslash : c ≠ '\\')
      (hcontrol : 0x20 ≤ c.toNat) (hps : SpellsPieces ps cs) :
      SpellsPieces (.char c :: ps) (c :: cs)
  | short {e c : Char} {ps : List Piece} {cs : List Char} (hc : shortEscape? e = some c)
      (hps : SpellsPieces ps cs) : SpellsPieces (.char c :: ps) ('\\' :: e :: cs)
  | unit {c₁ c₂ c₃ c₄ : Char} {n : Nat} {ps : List Piece} {cs : List Char}
      (hn : Digits.read? 16 [c₁, c₂, c₃, c₄] = some n) (hps : SpellsPieces ps cs) :
      SpellsPieces (.unit n :: ps) ('\\' :: 'u' :: c₁ :: c₂ :: c₃ :: c₄ :: cs)

/-- The characters that pieces stand for. The two halves of a surrogate pair stand for one character
together, and for none apart. -/
inductive StandsFor : List Piece → List Char → Prop
  | nil : StandsFor [] []
  | char {c : Char} {ps : List Piece} {cs : List Char} (hps : StandsFor ps cs) :
      StandsFor (.char c :: ps) (c :: cs)
  | unit {n : Nat} {ps : List Piece} {cs : List Char} (hn : n < 0xD800 ∨ 0xE000 ≤ n)
      (hps : StandsFor ps cs) : StandsFor (.unit n :: ps) (Char.ofNat n :: cs)
  | pair {m n : Nat} {ps : List Piece} {cs : List Char} (hm : 0xD800 ≤ m ∧ m < 0xDC00)
      (hn : 0xDC00 ≤ n ∧ n < 0xE000) (hps : StandsFor ps cs) :
      StandsFor (.unit m :: .unit n :: ps)
        (Char.ofNat (0x10000 + (m - 0xD800) * 0x400 + (n - 0xDC00)) :: cs)

/-- What is spelled between the quotes of a string: a text, or none if the pieces stand for none. -/
def SpellsText (t : JsonText) (cs : List Char) : Prop :=
  ∃ ps, SpellsPieces ps cs ∧ ∀ s, t = some s ↔ StandsFor ps s.toList

/-- Whether some characters are one digit or more. -/
def AreDigits (ds : List Char) : Prop := ds ≠ [] ∧ ∀ d ∈ ds, d.isDigit = true

/-- The part of a number before its point: a lone zero, or digits that begin with none. -/
inductive IsWhole : List Char → Prop
  | zero : IsWhole ['0']
  | other {d : Char} {ds : List Char} (hd : d ≠ '0') (hds : AreDigits (d :: ds)) : IsWhole (d :: ds)

/-- The part of a number from its point on, which may be absent. -/
inductive IsFraction : List Char → Prop
  | absent : IsFraction []
  | present {ds : List Char} (hds : AreDigits ds) : IsFraction ('.' :: ds)

/-- The exponent of a number, which may be absent. -/
inductive IsExponent : List Char → Prop
  | absent : IsExponent []
  | present {e : Char} {mark ds : List Char} (he : e = 'e' ∨ e = 'E')
      (hmark : mark = [] ∨ mark = ['+'] ∨ mark = ['-']) (hds : AreDigits ds) :
      IsExponent (e :: (mark ++ ds))

/-- What spells a number without sign. -/
inductive IsUnsigned : List Char → Prop
  | mk {w f e : List Char} (hw : IsWhole w) (hf : IsFraction f) (he : IsExponent e) :
      IsUnsigned (w ++ f ++ e)

/-- What spells a number. -/
inductive IsNumber : List Char → Prop
  | plain {cs : List Char} (hcs : IsUnsigned cs) : IsNumber cs
  | negative {cs : List Char} (hcs : IsUnsigned cs) : IsNumber ('-' :: cs)

mutual

/-- The value that is spelled without blanks around it. -/
inductive Spells : Json → List Char → Prop
  | null : Spells .null ['n', 'u', 'l', 'l']
  | yes : Spells (.bool true) ['t', 'r', 'u', 'e']
  | no : Spells (.bool false) ['f', 'a', 'l', 's', 'e']
  | number {cs : List Char} (hcs : IsNumber cs) : Spells (.number (String.ofList cs)) cs
  | string {t : JsonText} {cs : List Char} (ht : SpellsText t cs) :
      Spells (.string t) ('"' :: (cs ++ ['"']))
  | emptyArray {bs : List Char} (hbs : AreBlanks bs) : Spells (.array []) ('[' :: (bs ++ [']']))
  | array {vs : List Json} {cs : List Char} (hvs : SpellsItems vs cs) :
      Spells (.array vs) ('[' :: (cs ++ [']']))
  | emptyObject {bs : List Char} (hbs : AreBlanks bs) :
      Spells (.object []) ('\x7b' :: (bs ++ ['\x7d']))
  | object {ms : List (JsonText × Json)} {cs : List Char} (hms : SpellsMembers ms cs) :
      Spells (.object ms) ('\x7b' :: (cs ++ ['\x7d']))

/-- The value that is spelled with blanks around it. -/
inductive SpellsPadded : Json → List Char → Prop
  | mk {v : Json} {bs cs bs' : List Char} (hbs : AreBlanks bs) (hv : Spells v cs)
      (hbs' : AreBlanks bs') : SpellsPadded v (bs ++ (cs ++ bs'))

/-- One item or more, with commas between them. -/
inductive SpellsItems : List Json → List Char → Prop
  | last {v : Json} {cs : List Char} (hv : SpellsPadded v cs) : SpellsItems [v] cs
  | more {v : Json} {vs : List Json} {cs ds : List Char} (hv : SpellsPadded v cs)
      (hvs : SpellsItems vs ds) : SpellsItems (v :: vs) (cs ++ ',' :: ds)

/-- A name in quotes, a colon and a value. -/
inductive SpellsMember : JsonText × Json → List Char → Prop
  | mk {t : JsonText} {v : Json} {bs ns bs' cs : List Char} (hbs : AreBlanks bs)
      (ht : SpellsText t ns) (hbs' : AreBlanks bs') (hv : SpellsPadded v cs) :
      SpellsMember (t, v) (bs ++ '"' :: (ns ++ '"' :: (bs' ++ ':' :: cs)))

/-- One member or more, with commas between them. -/
inductive SpellsMembers : List (JsonText × Json) → List Char → Prop
  | last {m : JsonText × Json} {cs : List Char} (hm : SpellsMember m cs) : SpellsMembers [m] cs
  | more {m : JsonText × Json} {ms : List (JsonText × Json)} {cs ds : List Char}
      (hm : SpellsMember m cs) (hms : SpellsMembers ms ds) :
      SpellsMembers (m :: ms) (cs ++ ',' :: ds)

end

/-- The value that a text is. -/
def IsText (text : String) (v : Json) : Prop := SpellsPadded v text.toList

/-! ### Blanks -/

theorem skipBlanks_cons (h : isBlank c = false) : skipBlanks (c :: cs) = c :: cs := by
  rw [skipBlanks, List.dropWhile_cons, if_neg (by rw [h]; decide)]

theorem skipBlanks_append (hbs : AreBlanks bs) : skipBlanks (bs ++ cs) = skipBlanks cs :=
  List.dropWhile_append_of_pos hbs

theorem skipBlanks_append_cons (hbs : AreBlanks bs) (hc : isBlank c = false) :
    skipBlanks (bs ++ c :: cs) = c :: cs := by
  rw [skipBlanks_append hbs, skipBlanks_cons hc]

theorem exists_blanks (cs : List Char) : ∃ bs, AreBlanks bs ∧ cs = bs ++ skipBlanks cs := by
  refine ⟨cs.takeWhile isBlank, fun c hc => List.mem_takeWhile_imp hc, ?_⟩
  exact List.takeWhile_append_dropWhile.symm

theorem AreBlanks.append (hbs : AreBlanks bs) (hcs : AreBlanks cs) : AreBlanks (bs ++ cs) :=
  fun c hc => (List.mem_append.1 hc).elim (hbs c) (hcs c)

theorem value?_congr (h : skipBlanks cs = skipBlanks cs') : value? bound cs = value? bound cs' := by
  cases bound with
  | zero => rw [value?, value?]
  | succ bound => rw [value?, value?, h]

/-! ### Strings -/

theorem stringPieces?_short {e : Char} (hc : shortEscape? e = some c) :
    stringPieces? ('\\' :: e :: cs)
      = (stringPieces? cs).bind fun (ps, rest) => some (.char c :: ps, rest) := by
  rw [stringPieces?.eq_def]
  split
  · contradiction
  · rename_i heq
    cases heq
  · rename_i heq
    cases heq
    cases hc
  · rename_i heq
    cases heq
    rw [hc]
    rfl
  · rename_i hshort heq
    cases heq
    exact absurd rfl (hshort e cs rfl)

theorem stringPieces?_unit {c₁ c₂ c₃ c₄ : Char}
    (hn : Digits.read? 16 [c₁, c₂, c₃, c₄] = some n) :
    stringPieces? ('\\' :: 'u' :: c₁ :: c₂ :: c₃ :: c₄ :: cs)
      = (stringPieces? cs).bind fun (ps, rest) => some (.unit n :: ps, rest) := by
  rw [stringPieces?, hn]
  rfl

theorem stringPieces?_plain (hquote : c ≠ '"') (hbackslash : c ≠ '\\')
    (hcontrol : 0x20 ≤ c.toNat) : stringPieces? (c :: cs)
      = (stringPieces? cs).bind fun (ps, rest) => some (.char c :: ps, rest) := by
  rw [stringPieces?.eq_def]
  split
  · contradiction
  · rename_i heq
    cases heq
    contradiction
  · rename_i heq
    cases heq
    contradiction
  · rename_i heq
    cases heq
    contradiction
  · rename_i heq
    cases heq
    rw [if_neg fun h => h.elim hbackslash (Nat.not_lt.2 hcontrol)]
    rfl

/-- What spells pieces is read up to the closing quote. -/
theorem SpellsPieces.stringPieces?_eq (h : SpellsPieces ps w) :
    stringPieces? (w ++ '"' :: rest) = some (ps, rest) := by
  induction h with
  | nil => rfl
  | plain hquote hbackslash hcontrol _ ih =>
    rw [List.cons_append, stringPieces?_plain hquote hbackslash hcontrol, ih, Option.bind_some]
  | short hc _ ih =>
    rw [List.cons_append, List.cons_append, stringPieces?_short hc, ih, Option.bind_some]
  | unit hn _ ih =>
    simp only [List.cons_append]
    rw [stringPieces?_unit hn, ih, Option.bind_some]

/-- Pieces are read from what spells them. -/
theorem exists_of_stringPieces? (h : stringPieces? cs = some (ps, rest)) :
    ∃ w, cs = w ++ '"' :: rest ∧ SpellsPieces ps w := by
  fun_induction stringPieces? cs generalizing ps with
  | case1 => cases h
  | case2 rest' =>
    cases h
    exact ⟨[], rfl, .nil⟩
  | case3 c₁ c₂ c₃ c₄ cs ih =>
    simp only [Option.bind_eq_bind, Option.bind_eq_some_iff] at h
    obtain ⟨n, hn, ⟨ps', rest'⟩, hps, heq⟩ := h
    cases heq
    obtain ⟨w, rfl, hw⟩ := ih hps
    exact ⟨_, rfl, .unit hn hw⟩
  | case4 e cs _ ih =>
    simp only [Option.bind_eq_bind, Option.bind_eq_some_iff] at h
    obtain ⟨c, hc, ⟨ps', rest'⟩, hps, heq⟩ := h
    cases heq
    obtain ⟨w, rfl, hw⟩ := ih hps
    exact ⟨_, rfl, .short hc hw⟩
  | case5 => cases h
  | case6 c cs hquote _ _ hplain ih =>
    simp only [Option.bind_eq_bind, Option.bind_eq_some_iff] at h
    obtain ⟨⟨ps', rest'⟩, hps, heq⟩ := h
    cases heq
    obtain ⟨w, rfl, hw⟩ := ih hps
    rw [not_or, Nat.not_lt] at hplain
    exact ⟨_, rfl, .plain hquote hplain.1 hplain.2 hw⟩

theorem isHigh_iff : isHigh n = true ↔ 0xD800 ≤ n ∧ n < 0xDC00 := by simp [isHigh]

theorem isLow_iff : isLow n = true ↔ 0xDC00 ≤ n ∧ n < 0xE000 := by simp [isLow]

theorem StandsFor.joinPieces?_eq (h : StandsFor ps cs) : joinPieces? ps = some cs := by
  induction h with
  | nil => rfl
  | char _ ih => rw [joinPieces?, ih, Option.map_some]
  | @unit n ps cs hn _ ih =>
    have hhigh : ¬ isHigh n = true := fun h => by have := isHigh_iff.1 h; omega
    have hlow : ¬ isLow n = true := fun h => by have := isLow_iff.1 h; omega
    rw [joinPieces?.eq_def]
    simp only [hhigh, hlow, ih, Option.map_some, Bool.false_eq_true, if_false]
  | pair hm hn _ ih =>
    rw [joinPieces?.eq_def]
    simp only [isHigh_iff.2 hm, isLow_iff.2 hn, ih, Option.map_some, if_true]

theorem standsFor_of_joinPieces? (h : joinPieces? ps = some cs) : StandsFor ps cs := by
  fun_induction joinPieces? ps generalizing cs with
  | case1 =>
    cases h
    exact .nil
  | case2 c ps ih =>
    obtain ⟨ds, hds, rfl⟩ := Option.map_eq_some_iff.1 h
    exact .char (ih hds)
  | case3 m hm n ps hn ih =>
    obtain ⟨ds, hds, rfl⟩ := Option.map_eq_some_iff.1 h
    exact .pair (isHigh_iff.1 hm) (isLow_iff.1 hn) (ih hds)
  | case4 => cases h
  | case5 => cases h
  | case6 => cases h
  | case7 n ps hhigh hlow ih =>
    obtain ⟨ds, hds, rfl⟩ := Option.map_eq_some_iff.1 h
    rw [isHigh_iff] at hhigh
    rw [isLow_iff] at hlow
    exact .unit (by omega) (ih hds)

theorem joinPieces?_eq_some_iff : joinPieces? ps = some cs ↔ StandsFor ps cs :=
  ⟨standsFor_of_joinPieces?, StandsFor.joinPieces?_eq⟩

theorem map_joinPieces?_eq_some_iff {text : String} :
    (joinPieces? ps).map String.ofList = some text ↔ StandsFor ps text.toList := by
  rw [← joinPieces?_eq_some_iff, Option.map_eq_some_iff]
  constructor
  · rintro ⟨cs, hcs, rfl⟩
    rw [hcs, String.toList_ofList]
  · intro hcs
    exact ⟨_, hcs, String.ofList_toList⟩

/-- A string is read just from what spells it, up to its closing quote. -/
theorem string?_eq_some_iff :
    string? cs = some (t, rest) ↔ ∃ w, cs = w ++ '"' :: rest ∧ SpellsText t w := by
  constructor
  · intro h
    simp only [string?, Option.bind_eq_bind, Option.bind_eq_some_iff] at h
    obtain ⟨⟨ps, rest'⟩, hps, heq⟩ := h
    cases heq
    obtain ⟨w, rfl, hw⟩ := exists_of_stringPieces? hps
    exact ⟨w, rfl, ps, hw, fun text => map_joinPieces?_eq_some_iff⟩
  · rintro ⟨w, rfl, ps, hw, ht⟩
    have htext : (joinPieces? ps).map String.ofList = t := by
      refine Option.ext fun text => ?_
      rw [map_joinPieces?_eq_some_iff, ht]
    simp only [string?, hw.stringPieces?_eq, htext, Option.bind_eq_bind, Option.bind_some]

/-! ### Numbers -/

/-- Whether a run of digits ends before some characters. -/
def StopsDigits (cs : List Char) : Prop := ∀ c ∈ cs.head?, c.isDigit = false

/-- Whether a number ends before some characters: the first of them is no part of one. -/
def Stops (cs : List Char) : Prop :=
  ∀ c ∈ cs.head?, c.isDigit = false ∧ c ≠ '.' ∧ c ≠ 'e' ∧ c ≠ 'E'

theorem stops_cons (h : c.isDigit = false ∧ c ≠ '.' ∧ c ≠ 'e' ∧ c ≠ 'E') : Stops (c :: cs) := by
  intro c' hc'
  obtain rfl := Option.some.inj hc'
  exact h

theorem Stops.stopsDigits (h : Stops cs) : StopsDigits cs := fun c hc => (h c hc).1

theorem stopsDigits_cons (h : c.isDigit = false) : StopsDigits (c :: cs) := by
  intro c' hc'
  obtain rfl := Option.some.inj hc'
  exact h

theorem AreDigits.digits?_eq (hds : AreDigits ds) (h : StopsDigits rest) :
    digits? (ds ++ rest) = some (ds, rest) := by
  have hnone : rest.takeWhile Char.isDigit = [] ∧ rest.dropWhile Char.isDigit = rest := by
    cases rest with
    | nil => exact ⟨rfl, rfl⟩
    | cons c rest => simp [h c rfl]
  rw [digits?, List.takeWhile_append_of_pos hds.2, List.dropWhile_append_of_pos hds.2, hnone.1,
    hnone.2, List.append_nil, if_neg (by simpa using hds.1)]

theorem areDigits_of_digits? (h : digits? cs = some (ds, rest)) :
    cs = ds ++ rest ∧ AreDigits ds := by
  rw [digits?] at h
  split at h
  · cases h
  · rename_i hne
    cases h
    exact ⟨List.takeWhile_append_dropWhile.symm, by simpa using hne,
      fun d hd => List.mem_takeWhile_imp hd⟩

theorem IsWhole.whole?_eq (hw : IsWhole w) (h : StopsDigits rest) :
    whole? (w ++ rest) = some (w, rest) := by
  cases hw with
  | zero => rfl
  | other hd hds =>
    rw [List.cons_append, whole?.eq_def]
    split
    · rename_i heq
      cases heq
      contradiction
    · exact hds.digits?_eq h

theorem isWhole_of_whole? (h : whole? cs = some (w, rest)) : cs = w ++ rest ∧ IsWhole w := by
  rw [whole?.eq_def] at h
  split at h
  · cases h
    exact ⟨rfl, .zero⟩
  · rename_i hzero
    obtain ⟨rfl, hds⟩ := areDigits_of_digits? h
    refine ⟨rfl, ?_⟩
    cases w with
    | nil => exact absurd rfl hds.1
    | cons d ds =>
      refine .other ?_ hds
      rintro rfl
      exact hzero _ rfl

theorem IsFraction.fraction?_eq (hw : IsFraction w) (h : StopsDigits rest)
    (hpoint : ∀ c ∈ rest.head?, c ≠ '.') : fraction? (w ++ rest) = some (w, rest) := by
  cases hw with
  | absent =>
    rw [List.nil_append, fraction?.eq_def]
    split
    · exact absurd rfl (hpoint '.' rfl)
    · rfl
  | present hds => rw [List.cons_append, fraction?, hds.digits?_eq h, Option.map_some]

theorem isFraction_of_fraction? (h : fraction? cs = some (w, rest)) :
    cs = w ++ rest ∧ IsFraction w := by
  rw [fraction?.eq_def] at h
  split at h
  · obtain ⟨⟨ds, rest'⟩, hread, heq⟩ := Option.map_eq_some_iff.1 h
    cases heq
    obtain ⟨rfl, hds⟩ := areDigits_of_digits? hread
    exact ⟨rfl, .present hds⟩
  · cases h
    exact ⟨rfl, .absent⟩

/-- A sign is read apart from the digits after it. -/
theorem sign_append {mark : List Char} (hmark : mark = [] ∨ mark = ['+'] ∨ mark = ['-'])
    (hds : AreDigits ds) : sign (mark ++ (ds ++ rest)) = (mark, ds ++ rest) := by
  rcases hmark with rfl | rfl | rfl
  · cases ds with
    | nil => exact absurd rfl hds.1
    | cons d ds =>
      have hd := hds.2 d List.mem_cons_self
      rw [List.nil_append, List.cons_append, sign.eq_def]
      split
      · rename_i heq
        cases heq
        contradiction
      · rename_i heq
        cases heq
        contradiction
      · rfl
  · rfl
  · rfl

theorem sign_cases (cs : List Char) : cs = (sign cs).1 ++ (sign cs).2 ∧
    ((sign cs).1 = [] ∨ (sign cs).1 = ['+'] ∨ (sign cs).1 = ['-']) := by
  rw [sign.eq_def]
  split
  · exact ⟨rfl, .inr (.inl rfl)⟩
  · exact ⟨rfl, .inr (.inr rfl)⟩
  · exact ⟨rfl, .inl rfl⟩

theorem IsExponent.exponent?_eq (hw : IsExponent w) (h : Stops rest) :
    exponent? (w ++ rest) = some (w, rest) := by
  cases hw with
  | absent =>
    cases rest with
    | nil => rfl
    | cons c rest =>
      obtain ⟨-, -, he, hE⟩ := h c rfl
      rw [List.nil_append, exponent?, if_neg fun h => h.elim he hE]
  | present he hmark hds =>
    rw [List.cons_append, List.append_assoc, exponent?, if_pos he, sign_append hmark hds,
      hds.digits?_eq h.stopsDigits, Option.map_some]
    rfl

theorem isExponent_of_exponent? (h : exponent? cs = some (w, rest)) :
    cs = w ++ rest ∧ IsExponent w := by
  cases cs with
  | nil =>
    cases h
    exact ⟨rfl, .absent⟩
  | cons c cs =>
    rw [exponent?] at h
    split at h
    · rename_i he
      obtain ⟨⟨ds, rest'⟩, hread, heq⟩ := Option.map_eq_some_iff.1 h
      cases heq
      obtain ⟨hsplit, hmark⟩ := sign_cases cs
      obtain ⟨hrest, hds⟩ := areDigits_of_digits? hread
      refine ⟨?_, .present he hmark hds⟩
      rw [List.cons_append, List.cons_append, List.append_assoc, ← hrest, ← hsplit]
    · cases h
      exact ⟨rfl, .absent⟩

theorem IsExponent.stopsDigits_append (hw : IsExponent w) (h : Stops rest) :
    StopsDigits (w ++ rest) ∧ ∀ c ∈ (w ++ rest).head?, c ≠ '.' := by
  cases hw with
  | absent => exact ⟨h.stopsDigits, fun c hc => (h c hc).2.1⟩
  | present he hmark hds =>
    rw [List.cons_append]
    refine ⟨stopsDigits_cons ?_, fun c hc => ?_⟩
    · rcases he with rfl | rfl <;> rfl
    · obtain rfl := Option.some.inj hc
      rcases he with rfl | rfl <;> decide

theorem IsUnsigned.unsigned?_eq (hw : IsUnsigned w) (h : Stops rest) :
    unsigned? (w ++ rest) = some (w, rest) := by
  obtain ⟨hw, hf, he⟩ := hw
  rename_i w f e
  -- each part ends where the next one, or what comes after the number, begins
  obtain ⟨hdigits, hpoint⟩ := he.stopsDigits_append h
  have hrest : StopsDigits (f ++ (e ++ rest)) := by
    cases hf with
    | absent => exact hdigits
    | present => exact stopsDigits_cons rfl
  simp only [unsigned?, List.append_assoc, hw.whole?_eq hrest, hf.fraction?_eq hdigits hpoint,
    he.exponent?_eq h, Option.bind_eq_bind, Option.bind_some]

theorem isUnsigned_of_unsigned? (h : unsigned? cs = some (w, rest)) :
    cs = w ++ rest ∧ IsUnsigned w := by
  simp only [unsigned?, Option.bind_eq_bind, Option.bind_eq_some_iff] at h
  obtain ⟨⟨w, cs₁⟩, hwhole, ⟨f, cs₂⟩, hfraction, ⟨e, cs₃⟩, hexponent, heq⟩ := h
  cases heq
  obtain ⟨rfl, hw⟩ := isWhole_of_whole? hwhole
  obtain ⟨rfl, hf⟩ := isFraction_of_fraction? hfraction
  obtain ⟨rfl, he⟩ := isExponent_of_exponent? hexponent
  exact ⟨by simp only [List.append_assoc], .mk hw hf he⟩

/-- What spells a number without sign begins with a digit. -/
theorem IsUnsigned.exists_digit (hw : IsUnsigned w) : ∃ d ds, w = d :: ds ∧ d.isDigit = true := by
  obtain ⟨hw, hf, he⟩ := hw
  cases hw with
  | zero => exact ⟨_, _, rfl, rfl⟩
  | other hd hds => exact ⟨_, _, rfl, hds.2 _ List.mem_cons_self⟩

theorem number?_of_isDigit (h : c.isDigit = true) : number? (c :: cs)
    = (unsigned? (c :: cs)).map fun (n, rest) => (.number (String.ofList n), rest) := by
  rw [number?.eq_def]
  split
  · rename_i heq
    cases heq
    contradiction
  · rfl

theorem isBlank_of_isDigit (h : c.isDigit = true) : isBlank c = false := by
  by_contra hc
  simp only [isBlank, Bool.not_eq_false, Bool.or_eq_true, decide_eq_true_eq] at hc
  obtain ((rfl | rfl) | rfl) | rfl := hc <;> contradiction

/-- What spells a number is read as one that ends before what comes after it. -/
theorem IsNumber.number?_eq (hw : IsNumber w) (h : Stops rest) :
    number? (w ++ rest) = some (.number (String.ofList w), rest) := by
  cases hw with
  | plain hw =>
    have hread := hw.unsigned?_eq h
    obtain ⟨d, ds, rfl, hd⟩ := hw.exists_digit
    rw [List.cons_append] at hread ⊢
    rw [number?_of_isDigit hd, hread, Option.map_some]
  | negative hw => rw [List.cons_append, number?, hw.unsigned?_eq h, Option.map_some]

theorem exists_of_number? (h : number? cs = some (v, rest)) :
    ∃ w, cs = w ++ rest ∧ IsNumber w ∧ v = .number (String.ofList w) := by
  rw [number?.eq_def] at h
  split at h
  · obtain ⟨⟨w, rest'⟩, hread, heq⟩ := Option.map_eq_some_iff.1 h
    cases heq
    obtain ⟨rfl, hw⟩ := isUnsigned_of_unsigned? hread
    exact ⟨_, rfl, .negative hw, rfl⟩
  · obtain ⟨⟨w, rest'⟩, hread, heq⟩ := Option.map_eq_some_iff.1 h
    cases heq
    obtain ⟨rfl, hw⟩ := isUnsigned_of_unsigned? hread
    exact ⟨_, rfl, .plain hw, rfl⟩

/-! ### Values are read from what spells them -/

theorem exists_of_word? {word : List Char} (h : word? word v' cs = some (v, rest)) :
    cs = word ++ rest ∧ v = v' := by
  rw [word?] at h
  split at h
  · rename_i hword
    cases h
    obtain ⟨tail, rfl⟩ := List.isPrefixOf_iff_prefix.1 hword
    exact ⟨by rw [List.drop_left], rfl⟩
  · cases h

theorem SpellsPadded.append_blanks (hbs : AreBlanks bs) (h : SpellsPadded v w) :
    SpellsPadded v (bs ++ w) := by
  obtain ⟨hbs', hv, hcs⟩ := h
  rw [← List.append_assoc]
  exact .mk (hbs.append hbs') hv hcs

theorem SpellsItems.append_blanks (hbs : AreBlanks bs) (h : SpellsItems vs w) :
    SpellsItems vs (bs ++ w) := by
  cases h with
  | last hv => exact .last (hv.append_blanks hbs)
  | more hv hvs =>
    rw [← List.append_assoc]
    exact .more (hv.append_blanks hbs) hvs

theorem SpellsMember.append_blanks {m : JsonText × Json} (hbs : AreBlanks bs)
    (h : SpellsMember m w) : SpellsMember m (bs ++ w) := by
  obtain ⟨hbs', ht, hbs'', hv⟩ := h
  rw [← List.append_assoc]
  exact .mk (hbs.append hbs') ht hbs'' hv

theorem SpellsMembers.append_blanks (hbs : AreBlanks bs) (h : SpellsMembers ms w) :
    SpellsMembers ms (bs ++ w) := by
  cases h with
  | last hm => exact .last (hm.append_blanks hbs)
  | more hm hms =>
    rw [← List.append_assoc]
    exact .more (hm.append_blanks hbs) hms

/-- Whether all that is read with a bound is read from what spells it. -/
structure ReadsSpelled (bound : Nat) : Prop where
  value : ∀ {cs v rest}, value? bound cs = some (v, rest) →
    ∃ bs w, cs = bs ++ (w ++ rest) ∧ AreBlanks bs ∧ Spells v w
  items : ∀ {cs vs rest}, items? bound cs = some (vs, rest) →
    ∃ w, cs = w ++ ']' :: rest ∧ SpellsItems vs w
  members : ∀ {cs ms rest}, objectMembers? bound cs = some (ms, rest) →
    ∃ w, cs = w ++ '\x7d' :: rest ∧ SpellsMembers ms w

theorem ReadsSpelled.succ_value (h : ReadsSpelled bound)
    (hv : value? (bound + 1) cs = some (v, rest)) :
    ∃ bs w, cs = bs ++ (w ++ rest) ∧ AreBlanks bs ∧ Spells v w := by
  obtain ⟨bs, hbs, hcs⟩ := exists_blanks cs
  suffices hw : ∃ w, skipBlanks cs = w ++ rest ∧ Spells v w by
    obtain ⟨w, hskip, hw⟩ := hw
    exact ⟨bs, w, hskip ▸ hcs, hbs, hw⟩
  rw [value?] at hv
  split at hv
  · -- a string
    rename_i cs' heq
    obtain ⟨⟨t, rest'⟩, ht, hpair⟩ := Option.map_eq_some_iff.1 hv
    cases hpair
    obtain ⟨w, rfl, hw⟩ := string?_eq_some_iff.1 ht
    exact ⟨_, by rw [heq]; simp, .string hw⟩
  · -- an array
    rename_i cs' heq
    obtain ⟨bs', hbs', hcs'⟩ := exists_blanks cs'
    split at hv
    · rename_i rest' hend
      cases hv
      exact ⟨_, by rw [heq, hcs', hend]; simp, .emptyArray hbs'⟩
    · obtain ⟨⟨vs, rest'⟩, hvs, hpair⟩ := Option.map_eq_some_iff.1 hv
      cases hpair
      obtain ⟨w, hskip, hw⟩ := h.items hvs
      exact ⟨_, by rw [heq, hcs', hskip]; simp, .array (hw.append_blanks hbs')⟩
  · -- an object
    rename_i cs' heq
    obtain ⟨bs', hbs', hcs'⟩ := exists_blanks cs'
    split at hv
    · rename_i rest' hend
      cases hv
      exact ⟨_, by rw [heq, hcs', hend]; simp, .emptyObject hbs'⟩
    · obtain ⟨⟨ms, rest'⟩, hms, hpair⟩ := Option.map_eq_some_iff.1 hv
      cases hpair
      obtain ⟨w, hskip, hw⟩ := h.members hms
      exact ⟨_, by rw [heq, hcs', hskip]; simp, .object (hw.append_blanks hbs')⟩
  · rename_i cs' heq
    obtain ⟨rfl, rfl⟩ := exists_of_word? hv
    exact ⟨_, heq, .null⟩
  · rename_i cs' heq
    obtain ⟨rfl, rfl⟩ := exists_of_word? hv
    exact ⟨_, heq, .yes⟩
  · rename_i cs' heq
    obtain ⟨rfl, rfl⟩ := exists_of_word? hv
    exact ⟨_, heq, .no⟩
  · obtain ⟨w, hskip, hw, rfl⟩ := exists_of_number? hv
    exact ⟨w, hskip, .number hw⟩

/-- A value that is read with what comes after it up to the next character that is no blank. -/
theorem ReadsSpelled.padded (h : ReadsSpelled bound) (hv : value? bound cs = some (v, rest)) :
    ∃ w, cs = w ++ skipBlanks rest ∧ SpellsPadded v w := by
  obtain ⟨bs, w, hcs, hbs, hw⟩ := h.value hv
  obtain ⟨bs', hbs', hrest⟩ := exists_blanks rest
  refine ⟨bs ++ (w ++ bs'), ?_, .mk hbs hw hbs'⟩
  rw [hcs, List.append_assoc, List.append_assoc, ← hrest]

theorem ReadsSpelled.succ_items (h : ReadsSpelled bound)
    (hvs : items? (bound + 1) cs = some (vs, rest)) :
    ∃ w, cs = w ++ ']' :: rest ∧ SpellsItems vs w := by
  simp only [items?, Option.bind_eq_bind, Option.bind_eq_some_iff] at hvs
  obtain ⟨⟨v, cs₁⟩, hv, hvs⟩ := hvs
  obtain ⟨w, rfl, hw⟩ := h.padded hv
  split at hvs
  · rename_i cs₂ hcomma
    obtain ⟨⟨vs', cs₃⟩, hvs', heq⟩ := Option.bind_eq_some_iff.1 hvs
    cases heq
    obtain ⟨w', rfl, hw'⟩ := h.items hvs'
    exact ⟨_, by rw [hcomma]; simp, .more hw hw'⟩
  · rename_i cs₂ hend
    cases hvs
    exact ⟨_, by rw [hend], .last hw⟩
  · cases hvs

theorem ReadsSpelled.succ_members (h : ReadsSpelled bound)
    (hms : objectMembers? (bound + 1) cs = some (ms, rest)) :
    ∃ w, cs = w ++ '\x7d' :: rest ∧ SpellsMembers ms w := by
  rw [objectMembers?] at hms
  obtain ⟨bs, hbs, hcs⟩ := exists_blanks cs
  split at hms
  · rename_i cs₁ hquote
    obtain ⟨⟨t, cs₂⟩, hname, hcolon⟩ := Option.bind_eq_some_iff.1 hms
    obtain ⟨ns, rfl, ht⟩ := string?_eq_some_iff.1 hname
    obtain ⟨bs', hbs', hcs₂⟩ := exists_blanks cs₂
    dsimp only at hcolon
    split at hcolon
    · rename_i cs₃ hcs₃
      obtain ⟨⟨v, cs₄⟩, hv, hafter⟩ := Option.bind_eq_some_iff.1 hcolon
      obtain ⟨w, rfl, hw⟩ := h.padded hv
      rw [hcs, hquote, hcs₂, hcs₃]
      dsimp only at hafter
      split at hafter
      · rename_i cs₅ hcomma
        obtain ⟨⟨ms', cs₆⟩, hms', heq⟩ := Option.bind_eq_some_iff.1 hafter
        cases heq
        obtain ⟨w', rfl, hw'⟩ := h.members hms'
        exact ⟨_, by rw [hcomma]; simp, .more (.mk hbs ht hbs' hw) hw'⟩
      · rename_i cs₅ hend
        cases hafter
        exact ⟨_, by rw [hend]; simp, .last (.mk hbs ht hbs' hw)⟩
      · cases hafter
    · cases hcolon
  · cases hms

theorem readsSpelled (bound : Nat) : ReadsSpelled bound := by
  induction bound with
  | zero =>
    refine ⟨fun h => ?_, fun h => ?_, fun h => ?_⟩
    · rw [value?] at h
      cases h
    · rw [items?] at h
      cases h
    · rw [objectMembers?] at h
      cases h
  | succ bound ih => exact ⟨ih.succ_value, ih.succ_items, ih.succ_members⟩

/-! ### What spells a value is read -/

/-- What spells a value begins with a character that is no blank and does not close an array. -/
theorem Spells.exists_first (h : Spells v w) :
    ∃ c cs, w = c :: cs ∧ isBlank c = false ∧ c ≠ ']' := by
  cases h with
  | number hw =>
    cases hw with
    | plain hw =>
      obtain ⟨d, ds, hds, hd⟩ := hw.exists_digit
      refine ⟨d, ds, hds, isBlank_of_isDigit hd, ?_⟩
      rintro rfl
      contradiction
    | negative => exact ⟨_, _, rfl, rfl, by decide⟩
  | _ => exact ⟨_, _, rfl, rfl, by decide⟩

theorem SpellsItems.exists_first (h : SpellsItems vs w) :
    ∃ c cs, skipBlanks (w ++ rest) = c :: cs ∧ c ≠ ']' := by
  obtain ⟨v, w', cs, hpadded, hw⟩ : ∃ v w' cs, SpellsPadded v w' ∧ w ++ rest = w' ++ cs := by
    cases h with
    | last hv => exact ⟨_, _, _, hv, rfl⟩
    | more hv hvs => exact ⟨_, _, _, hv, List.append_assoc ..⟩
  obtain ⟨hbs, hv, hbs'⟩ := hpadded
  obtain ⟨c, cs', rfl, hblank, hc⟩ := hv.exists_first
  rw [hw, List.append_assoc, skipBlanks_append hbs, List.cons_append, List.cons_append,
    skipBlanks_cons hblank]
  exact ⟨c, _, rfl, hc⟩

theorem SpellsMembers.exists_first (h : SpellsMembers ms w) :
    ∃ cs, skipBlanks (w ++ rest) = '"' :: cs := by
  obtain ⟨m, w', cs, hm, hw⟩ : ∃ m w' cs, SpellsMember m w' ∧ w ++ rest = w' ++ cs := by
    cases h with
    | last hm => exact ⟨_, _, _, hm, rfl⟩
    | more hm hms => exact ⟨_, _, _, hm, List.append_assoc ..⟩
  obtain ⟨hbs, -, -, -⟩ := hm
  rw [hw, List.append_assoc, List.cons_append, skipBlanks_append_cons hbs rfl]
  exact ⟨_, rfl⟩

theorem items?_congr (h : skipBlanks cs = skipBlanks cs') : items? bound cs = items? bound cs' := by
  cases bound with
  | zero => rw [items?, items?]
  | succ bound => simp only [items?, value?_congr h]

theorem objectMembers?_congr (h : skipBlanks cs = skipBlanks cs') :
    objectMembers? bound cs = objectMembers? bound cs' := by
  cases bound with
  | zero => rw [objectMembers?, objectMembers?]
  | succ bound => rw [objectMembers?, objectMembers?, h]

theorem skipBlanks_skipBlanks : skipBlanks (skipBlanks cs) = skipBlanks cs := by
  obtain ⟨bs, hbs, hcs⟩ := exists_blanks cs
  exact (skipBlanks_append hbs).symm.trans (congrArg skipBlanks hcs.symm)

theorem value?_array (hskip : skipBlanks cs = c :: cs') (hc : c ≠ ']')
    (hvs : items? bound cs = some (vs, rest)) :
    value? (bound + 1) ('[' :: cs) = some (.array vs, rest) := by
  have hfirst : items? bound (c :: cs') = some (vs, rest) := by
    rw [← hvs, ← hskip]
    exact items?_congr skipBlanks_skipBlanks
  rw [value?, skipBlanks_cons rfl]
  simp only [hskip]
  split
  · rename_i heq
    cases heq
    contradiction
  · rw [hfirst, Option.map_some]

theorem value?_object (hskip : skipBlanks cs = '"' :: cs')
    (hms : objectMembers? bound cs = some (ms, rest)) :
    value? (bound + 1) ('\x7b' :: cs) = some (.object ms, rest) := by
  have hfirst : objectMembers? bound ('"' :: cs') = some (ms, rest) := by
    rw [← hms, ← hskip]
    exact objectMembers?_congr skipBlanks_skipBlanks
  rw [value?, skipBlanks_cons rfl]
  simp only [hskip]
  split
  · rename_i heq
    cases heq
  · rw [hfirst, Option.map_some]

theorem value?_numeral (hc : c.isDigit = true ∨ c = '-') :
    value? (bound + 1) (c :: cs) = number? (c :: cs) := by
  have hblank : isBlank c = false := by
    rcases hc with hc | rfl
    · exact isBlank_of_isDigit hc
    · rfl
  rw [value?, skipBlanks_cons hblank]
  split <;> first | rfl | (rename_i heq; cases heq; simp at hc)

theorem value?_number (hw : IsNumber w) (h : Stops rest) :
    value? (bound + 1) (w ++ rest) = some (.number (String.ofList w), rest) := by
  have hread := hw.number?_eq h
  obtain ⟨c, cs, rfl, hc⟩ : ∃ c cs, w = c :: cs ∧ (c.isDigit = true ∨ c = '-') := by
    cases hw with
    | plain hw =>
      obtain ⟨d, ds, hds, hd⟩ := hw.exists_digit
      exact ⟨d, ds, hds, .inl hd⟩
    | negative => exact ⟨_, _, rfl, .inr rfl⟩
  rw [← hread]
  exact value?_numeral hc

theorem items?_last (hv : value? bound cs = some (v, bs ++ ']' :: rest)) (hbs : AreBlanks bs) :
    items? (bound + 1) cs = some ([v], rest) := by
  have hskip : skipBlanks (bs ++ ']' :: rest) = ']' :: rest := skipBlanks_append_cons hbs rfl
  simp only [items?, hv, hskip, Option.bind_eq_bind, Option.bind_some]

theorem items?_comma (hv : value? bound cs = some (v, bs ++ ',' :: cs')) (hbs : AreBlanks bs)
    (hvs : items? bound cs' = some (vs, rest)) : items? (bound + 1) cs = some (v :: vs, rest) := by
  have hskip : skipBlanks (bs ++ ',' :: cs') = ',' :: cs' := skipBlanks_append_cons hbs rfl
  simp only [items?, hv, hskip, hvs, Option.bind_eq_bind, Option.bind_some]

theorem stops_append_blanks (hbs : AreBlanks bs) (h : Stops cs) : Stops (bs ++ cs) := by
  cases bs with
  | nil => exact h
  | cons c bs =>
    have hc := hbs c List.mem_cons_self
    refine stops_cons ⟨?_, ?_, ?_, ?_⟩
    · by_contra hdigit
      rw [isBlank_of_isDigit (Bool.not_eq_false _ ▸ hdigit)] at hc
      cases hc
    all_goals
      rintro rfl
      cases hc

/-- A member in which a value is read is read up to the end of this value. -/
theorem objectMembers?_last {bs' bs'' ns : List Char} (hbs : AreBlanks bs) (ht : SpellsText t ns)
    (hbs' : AreBlanks bs') (hv : value? bound cs = some (v, bs'' ++ '\x7d' :: rest))
    (hbs'' : AreBlanks bs'') :
    objectMembers? (bound + 1) (bs ++ '"' :: (ns ++ '"' :: (bs' ++ ':' :: cs)))
      = some ([(t, v)], rest) := by
  have hname : string? (ns ++ '"' :: (bs' ++ ':' :: cs)) = some (t, bs' ++ ':' :: cs) :=
    string?_eq_some_iff.2 ⟨ns, rfl, ht⟩
  have hcolon : skipBlanks (bs' ++ ':' :: cs) = ':' :: cs := skipBlanks_append_cons hbs' rfl
  have hend : skipBlanks (bs'' ++ '\x7d' :: rest) = '\x7d' :: rest :=
    skipBlanks_append_cons hbs'' rfl
  rw [objectMembers?, skipBlanks_append_cons hbs rfl]
  simp only [hname, hcolon, hv, hend, Option.bind_eq_bind, Option.bind_some]

theorem objectMembers?_comma {bs' bs'' ns : List Char} (hbs : AreBlanks bs) (ht : SpellsText t ns)
    (hbs' : AreBlanks bs') (hv : value? bound cs = some (v, bs'' ++ ',' :: cs'))
    (hbs'' : AreBlanks bs'') (hms : objectMembers? bound cs' = some (ms, rest)) :
    objectMembers? (bound + 1) (bs ++ '"' :: (ns ++ '"' :: (bs' ++ ':' :: cs)))
      = some ((t, v) :: ms, rest) := by
  have hname : string? (ns ++ '"' :: (bs' ++ ':' :: cs)) = some (t, bs' ++ ':' :: cs) :=
    string?_eq_some_iff.2 ⟨ns, rfl, ht⟩
  have hcolon : skipBlanks (bs' ++ ':' :: cs) = ':' :: cs := skipBlanks_append_cons hbs' rfl
  have hend : skipBlanks (bs'' ++ ',' :: cs') = ',' :: cs' := skipBlanks_append_cons hbs'' rfl
  rw [objectMembers?, skipBlanks_append_cons hbs rfl]
  simp only [hname, hcolon, hv, hend, hms, Option.bind_eq_bind, Option.bind_some]

/-- Whether all that is spelled in no more characters than a bound is read with this bound. -/
structure FindsSpelled (bound : Nat) : Prop where
  value : ∀ {v w rest}, Spells v w → w.length ≤ bound → Stops rest →
    value? bound (w ++ rest) = some (v, rest)
  items : ∀ {vs w rest}, SpellsItems vs w → w.length < bound →
    items? bound (w ++ ']' :: rest) = some (vs, rest)
  members : ∀ {ms w rest}, SpellsMembers ms w → w.length < bound →
    objectMembers? bound (w ++ '\x7d' :: rest) = some (ms, rest)

theorem FindsSpelled.padded (h : FindsSpelled bound) (hw : SpellsPadded v w)
    (hbound : w.length ≤ bound) (hrest : Stops rest) :
    ∃ bs, value? bound (w ++ rest) = some (v, bs ++ rest) ∧ AreBlanks bs := by
  obtain ⟨hbs, hv, hbs'⟩ := hw
  rename_i bs cs bs'
  simp only [List.length_append] at hbound
  refine ⟨bs', ?_, hbs'⟩
  have hskip : skipBlanks (bs ++ (cs ++ bs') ++ rest) = skipBlanks (cs ++ (bs' ++ rest)) := by
    rw [List.append_assoc, skipBlanks_append hbs, List.append_assoc]
  rw [value?_congr hskip]
  exact h.value hv (by omega) (stops_append_blanks hbs' hrest)

theorem FindsSpelled.succ_value (h : FindsSpelled bound) (hw : Spells v w)
    (hbound : w.length ≤ bound + 1) (hrest : Stops rest) :
    value? (bound + 1) (w ++ rest) = some (v, rest) := by
  cases hw with
  | null => rw [value?]; rfl
  | yes => rw [value?]; rfl
  | no => rw [value?]; rfl
  | number hcs => exact value?_number hcs hrest
  | @string t cs ht =>
    have hread : string? (cs ++ '"' :: rest) = some (t, rest) :=
      string?_eq_some_iff.2 ⟨cs, rfl, ht⟩
    rw [List.cons_append, List.append_assoc, List.singleton_append, value?, skipBlanks_cons rfl]
    simp only [hread, Option.map_some]
  | @emptyArray bs hbs =>
    have hskip : skipBlanks (bs ++ ']' :: rest) = ']' :: rest := skipBlanks_append_cons hbs rfl
    rw [List.cons_append, List.append_assoc, List.singleton_append, value?, skipBlanks_cons rfl]
    simp only [hskip]
  | array hvs =>
    simp only [List.length_cons, List.length_append, List.length_nil] at hbound
    rw [List.cons_append, List.append_assoc, List.singleton_append]
    obtain ⟨c, cs, hskip, hc⟩ := hvs.exists_first
    exact value?_array hskip hc (h.items hvs (by omega))
  | @emptyObject bs hbs =>
    have hskip : skipBlanks (bs ++ '\x7d' :: rest) = '\x7d' :: rest :=
      skipBlanks_append_cons hbs rfl
    rw [List.cons_append, List.append_assoc, List.singleton_append, value?, skipBlanks_cons rfl]
    simp only [hskip]
  | object hms =>
    simp only [List.length_cons, List.length_append, List.length_nil] at hbound
    rw [List.cons_append, List.append_assoc, List.singleton_append]
    obtain ⟨cs, hskip⟩ := hms.exists_first
    exact value?_object hskip (h.members hms (by omega))

theorem FindsSpelled.succ_items (h : FindsSpelled bound) (hw : SpellsItems vs w)
    (hbound : w.length < bound + 1) :
    items? (bound + 1) (w ++ ']' :: rest) = some (vs, rest) := by
  cases hw with
  | last hv =>
    have hrest : Stops (']' :: rest) := stops_cons (by decide)
    obtain ⟨bs, hread, hbs⟩ := h.padded hv (by omega) hrest
    exact items?_last hread hbs
  | @more v vs cs ds hv hvs =>
    simp only [List.length_cons, List.length_append] at hbound
    have hrest : Stops (',' :: (ds ++ ']' :: rest)) := stops_cons (by decide)
    obtain ⟨bs, hread, hbs⟩ := h.padded hv (by omega) hrest
    rw [List.append_assoc, List.cons_append]
    exact items?_comma hread hbs (h.items hvs (by omega))

theorem FindsSpelled.succ_members (h : FindsSpelled bound) (hw : SpellsMembers ms w)
    (hbound : w.length < bound + 1) :
    objectMembers? (bound + 1) (w ++ '\x7d' :: rest) = some (ms, rest) := by
  cases hw with
  | last hm =>
    obtain ⟨hbs, ht, hbs', hv⟩ := hm
    simp only [List.length_cons, List.length_append] at hbound
    have hrest : Stops ('\x7d' :: rest) := stops_cons (by decide)
    obtain ⟨bs, hread, hbs''⟩ := h.padded hv (by omega) hrest
    simp only [List.cons_append, List.append_assoc]
    exact objectMembers?_last hbs ht hbs' hread hbs''
  | @more m ms cs ds hm hms =>
    obtain ⟨hbs, ht, hbs', hv⟩ := hm
    simp only [List.length_cons, List.length_append] at hbound
    have hrest : Stops (',' :: (ds ++ '\x7d' :: rest)) := stops_cons (by decide)
    obtain ⟨bs, hread, hbs''⟩ := h.padded hv (by omega) hrest
    simp only [List.cons_append, List.append_assoc]
    exact objectMembers?_comma hbs ht hbs' hread hbs'' (h.members hms (by omega))

theorem findsSpelled (bound : Nat) : FindsSpelled bound := by
  induction bound with
  | zero =>
    refine ⟨fun hw hbound _ => ?_, fun _ hbound => ?_, fun _ hbound => ?_⟩
    · obtain ⟨c, cs, rfl, -, -⟩ := hw.exists_first
      simp at hbound
    · exact absurd hbound (Nat.not_lt_zero _)
    · exact absurd hbound (Nat.not_lt_zero _)
  | succ bound ih => exact ⟨ih.succ_value, ih.succ_items, ih.succ_members⟩

/-! ### Texts -/

/-- A text is read as a value just if it spells this value with blanks around it. -/
theorem parse?_eq_some_iff {text : String} : parse? text = some v ↔ IsText text v := by
  have hempty : ∀ {cs : List Char}, (skipBlanks cs).isEmpty = true ↔ skipBlanks cs = [] :=
    List.isEmpty_iff
  rw [parse?, IsText]
  constructor
  · intro h
    split at h
    · rename_i v' rest hread
      split at h
      · rename_i hend
        cases h
        obtain ⟨w, hw, hpadded⟩ := (readsSpelled _).padded hread
        rw [hempty.1 hend, List.append_nil] at hw
        exact hw ▸ hpadded
      · cases h
    · cases h
  · intro h
    have hbound : text.toList.length ≤ 2 * text.toList.length + 2 := by omega
    have hrest : Stops [] := by simp [Stops]
    obtain ⟨bs, hread, hbs⟩ := (findsSpelled _).padded h hbound hrest
    have hskip : skipBlanks (bs ++ []) = [] := skipBlanks_append hbs
    rw [List.append_nil] at hread
    simp only [hread, hskip, List.isEmpty_nil, if_true]

end TreeComparison.Json

import Mathlib.Tactic.SplitIfs
import TreeComparison.Text.Utf8

/-!
Cutting a byte string into UTF-8 pieces loses nothing. The promise of a first byte bounds the bytes
that follow it, so a character that was read from two, three or four bytes is encoded by these bytes
again. Where a byte string is divided in front of a byte that is no continuation, the two parts are
cut as they were before.
-/

namespace TreeComparison.Utf8

/-- The bytes of a piece. -/
def Piece.bytes : Piece → Bytes
  | .char c => String.utf8EncodeChar c
  | .stray bytes => bytes

/-! ### First bytes -/

theorem within_iff {lo hi b : UInt8} :
    within lo hi b = true ↔ lo.toNat ≤ b.toNat ∧ b.toNat ≤ hi.toNat := by
  simp [within, UInt8.le_iff_toNat_le]

/-- The promises of first bytes: each with the bytes that make it and with the bounds that it sets
for the second byte. The bounds keep out overlong forms, surrogates and values above the last code
point. -/
inductive Promises (a : UInt8) : Lead → Prop where
  | ascii (h : a.toNat < 128) : Promises a .ascii
  | stray (h : 128 ≤ a.toNat ∧ a.toNat < 194 ∨ 245 ≤ a.toNat) : Promises a .stray
  | two (h : 194 ≤ a.toNat ∧ a.toNat < 224) : Promises a .two
  | three {lo hi : UInt8} (h : 224 ≤ a.toNat ∧ a.toNat < 240)
      (hlo : a.toNat = 224 ∧ lo.toNat = 160 ∨ a.toNat ≠ 224 ∧ lo.toNat = 128)
      (hhi : a.toNat = 237 ∧ hi.toNat = 159 ∨ a.toNat ≠ 237 ∧ hi.toNat = 191) :
      Promises a (.three lo hi)
  | four {lo hi : UInt8} (h : 240 ≤ a.toNat ∧ a.toNat < 245)
      (hlo : a.toNat = 240 ∧ lo.toNat = 144 ∨ a.toNat ≠ 240 ∧ lo.toNat = 128)
      (hhi : a.toNat = 244 ∧ hi.toNat = 143 ∨ a.toNat ≠ 244 ∧ hi.toNat = 191) :
      Promises a (.four lo hi)

theorem promises_lead (a : UInt8) : Promises a (lead a) := by
  simp only [lead, UInt8.lt_iff_toNat_lt, ← UInt8.toNat_inj, UInt8.reduceToNat]
  -- one step for each range of first bytes, in the order in which they are told apart
  refine iteInduction (fun _ => .ascii (by omega)) fun _ => ?_
  refine iteInduction (fun _ => .stray (by omega)) fun _ => ?_
  refine iteInduction (fun _ => .two (by omega)) fun _ => ?_
  refine iteInduction
    (fun ha => .three (by omega) (.inl ⟨ha, rfl⟩) (.inr ⟨by omega, rfl⟩)) fun _ => ?_
  refine iteInduction
    (fun ha => .three (by omega) (.inr ⟨by omega, rfl⟩) (.inl ⟨ha, rfl⟩)) fun _ => ?_
  refine iteInduction
    (fun _ => .three (by omega) (.inr ⟨by omega, rfl⟩) (.inr ⟨by omega, rfl⟩)) fun _ => ?_
  refine iteInduction
    (fun ha => .four (by omega) (.inl ⟨ha, rfl⟩) (.inr ⟨by omega, rfl⟩)) fun _ => ?_
  refine iteInduction
    (fun _ => .four (by omega) (.inr ⟨by omega, rfl⟩) (.inr ⟨by omega, rfl⟩)) fun _ => ?_
  refine iteInduction
    (fun ha => .four (by omega) (.inr ⟨by omega, rfl⟩) (.inl ⟨ha, rfl⟩)) fun _ => ?_
  exact .stray (by omega)

theorem promises_of_eq {a : UInt8} {promise : Lead} (h : lead a = promise) : Promises a promise :=
  h ▸ promises_lead a

theorem lead_ascii {a : UInt8} (h : lead a = .ascii) : a.toNat < 128 := by
  cases promises_of_eq h with
  | ascii ha => exact ha

theorem lead_two {a : UInt8} (h : lead a = .two) : 194 ≤ a.toNat ∧ a.toNat < 224 := by
  cases promises_of_eq h with
  | two ha => exact ha

theorem lead_three {a lo hi b : UInt8} (h : lead a = .three lo hi) (hb : within lo hi b = true) :
    224 ≤ a.toNat ∧ a.toNat < 240 ∧ 128 ≤ b.toNat ∧ b.toNat < 192 ∧
      (a.toNat = 224 → 160 ≤ b.toNat) ∧ (a.toNat = 237 → b.toNat < 160) := by
  rw [within_iff] at hb
  cases promises_of_eq h with
  | three ha hlo hhi => omega

theorem lead_four {a lo hi b : UInt8} (h : lead a = .four lo hi) (hb : within lo hi b = true) :
    240 ≤ a.toNat ∧ a.toNat < 245 ∧ 128 ≤ b.toNat ∧ b.toNat < 192 ∧
      (a.toNat = 240 → 144 ≤ b.toNat) ∧ (a.toNat = 244 → b.toNat < 144) := by
  rw [within_iff] at hb
  cases promises_of_eq h with
  | four ha hlo hhi => omega

theorem isTail_iff {b : UInt8} : isTail b = true ↔ 128 ≤ b.toNat ∧ b.toNat ≤ 191 := within_iff

/-! ### Encoding a piece gives its bytes back -/

theorem toNat_charOfNat {n : Nat} (h : n.isValidChar) : (Char.ofNat n).val.toNat = n := by
  rw [Char.ofNat, dif_pos h]
  rfl

theorem ofNat_eq_of_toNat_eq {n : Nat} {a : UInt8} (h : n = a.toNat) : UInt8.ofNat n = a := by
  rw [h, UInt8.ofNat_toNat]

theorem encode_ascii {a : UInt8} (h : lead a = .ascii) :
    String.utf8EncodeChar (charOf 128 a []) = [a] := by
  have ha := lead_ascii h
  have hv : a.toNat.isValidChar := .inl (by omega)
  simp only [charOf, List.foldl_nil, Nat.mod_eq_of_lt ha, String.utf8EncodeChar,
    toNat_charOfNat hv, if_pos (show a.toNat ≤ 127 by omega), UInt8.ofNat_toNat]

theorem encode_two {a b : UInt8} (h : lead a = .two) (hb : isTail b = true) :
    String.utf8EncodeChar (charOf 32 a [b]) = [a, b] := by
  have ha := lead_two h
  rw [isTail_iff] at hb
  have hv : (a.toNat % 32 * 64 + b.toNat % 64).isValidChar := .inl (by omega)
  simp only [charOf, List.foldl_cons, List.foldl_nil, String.utf8EncodeChar, toNat_charOfNat hv]
  rw [if_neg (by omega), if_pos (by omega)]
  rw [ofNat_eq_of_toNat_eq (a := a) (by omega), ofNat_eq_of_toNat_eq (a := b) (by omega)]

theorem encode_three {a lo hi b c : UInt8} (h : lead a = .three lo hi) (hb : within lo hi b = true)
    (hc : isTail c = true) : String.utf8EncodeChar (charOf 16 a [b, c]) = [a, b, c] := by
  have ha := lead_three h hb
  rw [isTail_iff] at hc
  have hv : ((a.toNat % 16 * 64 + b.toNat % 64) * 64 + c.toNat % 64).isValidChar := by
    unfold Nat.isValidChar; omega
  simp only [charOf, List.foldl_cons, List.foldl_nil, String.utf8EncodeChar, toNat_charOfNat hv]
  rw [if_neg (by omega), if_neg (by omega), if_pos (by omega)]
  rw [ofNat_eq_of_toNat_eq (a := a) (by omega), ofNat_eq_of_toNat_eq (a := b) (by omega),
    ofNat_eq_of_toNat_eq (a := c) (by omega)]

theorem encode_four {a lo hi b c d : UInt8} (h : lead a = .four lo hi)
    (hb : within lo hi b = true) (hc : isTail c = true) (hd : isTail d = true) :
    String.utf8EncodeChar (charOf 8 a [b, c, d]) = [a, b, c, d] := by
  have ha := lead_four h hb
  rw [isTail_iff] at hc hd
  have hv : (((a.toNat % 8 * 64 + b.toNat % 64) * 64 + c.toNat % 64) * 64
      + d.toNat % 64).isValidChar := by
    unfold Nat.isValidChar; omega
  simp only [charOf, List.foldl_cons, List.foldl_nil, String.utf8EncodeChar, toNat_charOfNat hv]
  rw [if_neg (by omega), if_neg (by omega), if_neg (by omega)]
  rw [ofNat_eq_of_toNat_eq (a := a) (by omega), ofNat_eq_of_toNat_eq (a := b) (by omega),
    ofNat_eq_of_toNat_eq (a := c) (by omega), ofNat_eq_of_toNat_eq (a := d) (by omega)]

/-- Nothing is lost by cutting. -/
theorem flatMap_bytes_pieces (bytes : Bytes) : (pieces bytes).flatMap Piece.bytes = bytes := by
  fun_induction pieces bytes with
  | case1 => rfl
  | case2 a r h ih => simp [Piece.bytes, encode_ascii h, ih]
  | case3 a r h ih => simp [Piece.bytes, ih]
  | case4 a h => rfl
  | case5 a h b s hb ih => simp [Piece.bytes, encode_two h hb, ih]
  | case6 a h b s hb ih => simp [Piece.bytes, ih]
  | case7 a lo hi h => rfl
  | case8 a lo hi h b hb => rfl
  | case9 a lo hi h b hb c t hc ih => simp [Piece.bytes, encode_three h hb hc, ih]
  | case10 a lo hi h b hb c t hc ih => simp [Piece.bytes, ih]
  | case11 a lo hi h b s hb ih => simp [Piece.bytes, ih]
  | case12 a lo hi h => rfl
  | case13 a lo hi h b hb => rfl
  | case14 a lo hi h b hb c hc => rfl
  | case15 a lo hi h b hb c hc d u hd ih => simp [Piece.bytes, encode_four h hb hc hd, ih]
  | case16 a lo hi h b hb c hc d u hd ih => simp [Piece.bytes, ih]
  | case17 a lo hi h b hb c t hc ih => simp [Piece.bytes, ih]
  | case18 a lo hi h b s hb ih => simp [Piece.bytes, ih]

/-! ### Cutting in front of a piece -/

theorem not_within_three {a lo hi b : UInt8} (h : lead a = .three lo hi) (hb : isTail b = false) :
    within lo hi b = false := by
  refine Bool.eq_false_iff.2 fun hwithin => Bool.eq_false_iff.1 hb (isTail_iff.2 ?_)
  have := lead_three h hwithin
  omega

theorem not_within_four {a lo hi b : UInt8} (h : lead a = .four lo hi) (hb : isTail b = false) :
    within lo hi b = false := by
  refine Bool.eq_false_iff.2 fun hwithin => Bool.eq_false_iff.1 hb (isTail_iff.2 ?_)
  have := lead_four h hwithin
  omega

/-- A byte that is no continuation ends what was begun before it, and starts a piece. -/
theorem pieces_append_cons {c : UInt8} (hc : isTail c = false) (u v : Bytes) :
    pieces (u ++ c :: v) = pieces u ++ pieces (c :: v) := by
  fun_induction pieces u with
  | case1 => rfl
  | case2 a r h ih => rw [List.cons_append, pieces.eq_def]; simp [h, ih]
  | case3 a r h ih => rw [List.cons_append, pieces.eq_def]; simp [h, ih]
  | case4 a h => rw [List.cons_append, pieces.eq_def]; simp [h, hc]
  | case5 a h b s hb ih => rw [List.cons_append, pieces.eq_def]; simp [h, hb, ih]
  | case6 a h b s hb ih => rw [List.cons_append, pieces.eq_def]; simp [h, hb, ← ih]
  | case7 a lo hi h => rw [List.cons_append, pieces.eq_def]; simp [h, not_within_three h hc]
  | case8 a lo hi h b hb => rw [List.cons_append, pieces.eq_def]; simp [h, hb, hc]
  | case9 a lo hi h b hb d t hd ih => rw [List.cons_append, pieces.eq_def]; simp [h, hb, hd, ih]
  | case10 a lo hi h b hb d t hd ih => rw [List.cons_append, pieces.eq_def]; simp [h, hb, hd, ← ih]
  | case11 a lo hi h b s hb ih => rw [List.cons_append, pieces.eq_def]; simp [h, hb, ← ih]
  | case12 a lo hi h => rw [List.cons_append, pieces.eq_def]; simp [h, not_within_four h hc]
  | case13 a lo hi h b hb => rw [List.cons_append, pieces.eq_def]; simp [h, hb, hc]
  | case14 a lo hi h b hb d hd => rw [List.cons_append, pieces.eq_def]; simp [h, hb, hd, hc]
  | case15 a lo hi h b hb d hd e u he ih =>
    rw [List.cons_append, pieces.eq_def]; simp [h, hb, hd, he, ih]
  | case16 a lo hi h b hb d hd e u he ih =>
    rw [List.cons_append, pieces.eq_def]; simp [h, hb, hd, he, ← ih]
  | case17 a lo hi h b hb d t hd ih => rw [List.cons_append, pieces.eq_def]; simp [h, hb, hd, ← ih]
  | case18 a lo hi h b s hb ih => rw [List.cons_append, pieces.eq_def]; simp [h, hb, ← ih]

/-- Whether a byte string goes on with no piece that was begun before it: it does not start with a
continuation byte. -/
def StartsPiece : Bytes → Prop
  | [] => True
  | b :: _ => isTail b = false

theorem startsPiece_iff {v : Bytes} : StartsPiece v ↔ ∀ b ∈ v.head?, ¬ (0x80 ≤ b ∧ b ≤ 0xBF) := by
  cases v with
  | nil => simp [StartsPiece]
  | cons b v => simp [StartsPiece, isTail, within]

/-- A byte string is cut in the same way on both sides of a place where a piece starts. -/
theorem pieces_append {u v : Bytes} (hv : StartsPiece v) :
    pieces (u ++ v) = pieces u ++ pieces v := by
  cases v with
  | nil => rw [List.append_nil, pieces, List.append_nil]
  | cons c v => exact pieces_append_cons hv u v

/-! ### Reading a character -/

theorem lead_eq_ascii {a : UInt8} (h : a.toNat < 128) : lead a = .ascii := by
  have hlead := promises_lead a
  generalize lead a = promise at hlead
  cases hlead with
  | ascii => rfl
  | _ => omega

theorem lead_eq_stray {a : UInt8} (h : isTail a = true) : lead a = .stray := by
  have htail := isTail_iff.1 h
  have hlead := promises_lead a
  generalize lead a = promise at hlead
  cases hlead with
  | stray => rfl
  | _ => omega

theorem lead_eq_two {a : UInt8} (h : 194 ≤ a.toNat) (h' : a.toNat < 224) : lead a = .two := by
  have hlead := promises_lead a
  generalize lead a = promise at hlead
  cases hlead with
  | two => rfl
  | _ => omega

theorem lead_eq_three {a b : UInt8} (h : 224 ≤ a.toNat) (h' : a.toNat < 240)
    (hb : 128 ≤ b.toNat ∧ b.toNat < 192) (hlow : a.toNat = 224 → 160 ≤ b.toNat)
    (hhigh : a.toNat = 237 → b.toNat < 160) :
    ∃ lo hi, lead a = .three lo hi ∧ within lo hi b = true := by
  have hlead := promises_lead a
  generalize lead a = promise at hlead
  cases hlead with
  | three ha hlo hhi => exact ⟨_, _, rfl, within_iff.2 (by omega)⟩
  | _ => omega

theorem lead_eq_four {a b : UInt8} (h : 240 ≤ a.toNat) (h' : a.toNat < 245)
    (hb : 128 ≤ b.toNat ∧ b.toNat < 192) (hlow : a.toNat = 240 → 144 ≤ b.toNat)
    (hhigh : a.toNat = 244 → b.toNat < 144) :
    ∃ lo hi, lead a = .four lo hi ∧ within lo hi b = true := by
  have hlead := promises_lead a
  generalize lead a = promise at hlead
  cases hlead with
  | four ha hlo hhi => exact ⟨_, _, rfl, within_iff.2 (by omega)⟩
  | _ => omega

/-- The bytes that encode a code point, by their number: its digits to the base of 64, the first one
on top of the mark of a first byte and the others on top of that of a continuation. -/
inductive Encodes (n : Nat) : Bytes → Prop where
  | one {a : UInt8} (hn : n < 0x80) (ha : a.toNat = n) : Encodes n [a]
  | two {a b : UInt8} (hlow : 0x80 ≤ n) (hn : n < 0x800) (ha : a.toNat = n / 64 + 192)
      (hb : b.toNat = n % 64 + 128) : Encodes n [a, b]
  | three {a b c : UInt8} (hlow : 0x800 ≤ n) (hn : n < 0x10000) (ha : a.toNat = n / 4096 + 224)
      (hb : b.toNat = n / 64 % 64 + 128) (hc : c.toNat = n % 64 + 128) : Encodes n [a, b, c]
  | four {a b c d : UInt8} (hlow : 0x10000 ≤ n) (hn : n < 0x110000)
      (ha : a.toNat = n / 262144 + 240) (hb : b.toNat = n / 4096 % 64 + 128)
      (hc : c.toNat = n / 64 % 64 + 128) (hd : d.toNat = n % 64 + 128) : Encodes n [a, b, c, d]

theorem toNat_ofNat_of_lt {n : Nat} (h : n < 256) : (UInt8.ofNat n).toNat = n :=
  UInt8.toNat_ofNat_of_lt' h

theorem encodes_utf8EncodeChar (c : Char) : Encodes c.toNat (String.utf8EncodeChar c) := by
  have hvalid : c.toNat < 0xD800 ∨ 0xDFFF < c.toNat ∧ c.toNat < 0x110000 := c.valid
  rw [String.utf8EncodeChar]
  simp only [Char.toNat_val]
  split_ifs
  · exact .one (by omega) (toNat_ofNat_of_lt (by omega))
  · refine .two (by omega) (by omega) ?_ ?_ <;> rw [toNat_ofNat_of_lt (by omega)]
    omega
  · refine .three (by omega) (by omega) ?_ ?_ ?_ <;> rw [toNat_ofNat_of_lt (by omega)]
    omega
  · refine .four (by omega) (by omega) ?_ ?_ ?_ ?_ <;> rw [toNat_ofNat_of_lt (by omega)]
    omega

theorem charOf_eq {modulus : Nat} {a : UInt8} {tail : Bytes} {c : Char}
    (h : tail.foldl (fun n b => n * 64 + b.toNat % 64) (a.toNat % modulus) = c.toNat) :
    charOf modulus a tail = c := by
  rw [charOf, h, Char.ofNat_toNat]

/-- A character is read off its encoding, whatever comes after it. -/
theorem pieces_utf8EncodeChar_append (c : Char) (bytes : Bytes) :
    pieces (String.utf8EncodeChar c ++ bytes) = .char c :: pieces bytes := by
  have hvalid : c.toNat < 0xD800 ∨ 0xDFFF < c.toNat ∧ c.toNat < 0x110000 := c.valid
  have hcode := encodes_utf8EncodeChar c
  generalize String.utf8EncodeChar c = code at hcode
  cases hcode with
  | @one a hn ha =>
    have hlead : lead a = .ascii := lead_eq_ascii (by omega)
    have hchar : charOf 128 a [] = c := charOf_eq (by rw [List.foldl_nil, ha]; omega)
    rw [List.cons_append, pieces.eq_def]
    simp only [hlead, hchar, List.nil_append]
  | @two a b hlow hn ha hb =>
    have hlead : lead a = .two := lead_eq_two (by omega) (by omega)
    have htail : isTail b = true := isTail_iff.2 (by omega)
    have hchar : charOf 32 a [b] = c := by
      refine charOf_eq ?_
      simp only [List.foldl_cons, List.foldl_nil, ha, hb]
      omega
    simp only [List.cons_append, List.nil_append]
    rw [pieces.eq_def]
    simp only [hlead, htail, hchar, if_true]
  | @three a b d hlow hn ha hb hd =>
    obtain ⟨lo, hi, hlead, hwithin⟩ := lead_eq_three (a := a) (b := b) (by omega) (by omega)
      (by omega) (by omega) (by omega)
    have htail : isTail d = true := isTail_iff.2 (by omega)
    have hchar : charOf 16 a [b, d] = c := by
      refine charOf_eq ?_
      simp only [List.foldl_cons, List.foldl_nil, ha, hb, hd]
      omega
    simp only [List.cons_append, List.nil_append]
    rw [pieces.eq_def]
    simp only [hlead, hwithin, htail, hchar, if_true]
  | @four a b d e hlow hn ha hb hd he =>
    obtain ⟨lo, hi, hlead, hwithin⟩ := lead_eq_four (a := a) (b := b) (by omega) (by omega)
      (by omega) (by omega) (by omega)
    have htail : isTail d = true := isTail_iff.2 (by omega)
    have htail' : isTail e = true := isTail_iff.2 (by omega)
    have hchar : charOf 8 a [b, d, e] = c := by
      refine charOf_eq ?_
      simp only [List.foldl_cons, List.foldl_nil, ha, hb, hd, he]
      omega
    simp only [List.cons_append, List.nil_append]
    rw [pieces.eq_def]
    simp only [hlead, hwithin, htail, htail', hchar, if_true]

/-- What starts with the encoding of a character starts a piece. -/
theorem startsPiece_utf8EncodeChar_append (c : Char) (bytes : Bytes) :
    StartsPiece (String.utf8EncodeChar c ++ bytes) := by
  have hcode := encodes_utf8EncodeChar c
  have hfirst : ∀ {a : UInt8}, a.toNat < 128 ∨ 192 ≤ a.toNat → isTail a = false := by
    intro a ha
    refine Bool.eq_false_iff.2 fun htail => ?_
    have := isTail_iff.1 htail
    omega
  generalize String.utf8EncodeChar c = code at hcode
  cases hcode with
  | one hn ha => exact hfirst (by omega)
  | two hlow hn ha hb => exact hfirst (by omega)
  | three hlow hn ha hb hc => exact hfirst (by omega)
  | four hlow hn ha hb hc hd => exact hfirst (by omega)

/-! ### Texts -/

theorem pieces_flatMap_utf8EncodeChar (cs : List Char) :
    pieces (cs.flatMap String.utf8EncodeChar) = cs.map .char := by
  induction cs with
  | nil => rfl
  | cons c cs ih => rw [List.flatMap_cons, pieces_utf8EncodeChar_append, ih, List.map_cons]

theorem chars?_eq_some_iff {bytes : Bytes} {cs : List Char} :
    chars? bytes = some cs ↔ pieces bytes = cs.map .char := by
  rw [chars?]
  generalize pieces bytes = ps
  induction ps generalizing cs with
  | nil => cases cs <;> simp
  | cons p ps ih =>
    cases p <;> cases cs <;> simp [List.mapM_cons, Option.bind_eq_some_iff, ih, and_left_comm]

/-- Bytes are decoded to the text that they encode, and to no other one. -/
theorem decode?_eq_some_iff {bytes : Bytes} {text : String} :
    decode? bytes = some text ↔ bytes = encode text := by
  rw [decode?, Option.map_eq_some_iff]
  constructor
  · rintro ⟨cs, hcs, rfl⟩
    rw [← flatMap_bytes_pieces bytes, chars?_eq_some_iff.1 hcs, encode, String.toList_ofList,
      List.flatMap_map]
    rfl
  · rintro rfl
    exact ⟨text.toList, chars?_eq_some_iff.2 (pieces_flatMap_utf8EncodeChar _),
      String.ofList_toList⟩

end TreeComparison.Utf8

import TreeComparison.Proofs.Escape

/-!
Which texts are escaped byte strings. A text that is made of tokens can be read back in one way
only, but not each such text is an escaped byte string: bytes that encode a character are shown as
this character and never one by one. This is the only restriction. Where no bytes that stand next to
each other encode a character, the tokens are those of the bytes that they stand for. For the same
reason the texts of two parts are not always the text of the whole: they are wherever the second
part does not go on with a character.
-/

namespace TreeComparison.Escape

variable {bytes bs : Bytes} {ts us vs ws : List Token} {t : Token} {c : Char}

/-- A token as it may be written: a backslash is never written as itself, and a byte that is an
ASCII character never as two digits. -/
def Token.IsWritten : Token → Prop
  | .plain c => c ≠ '\\'
  | .backslash => True
  | .byte b => 0x80 ≤ b

instance : DecidablePred Token.IsWritten
  | .plain c => inferInstanceAs (Decidable (c ≠ '\\'))
  | .backslash => inferInstanceAs (Decidable True)
  | .byte b => inferInstanceAs (Decidable (0x80 ≤ b))

/-- Whether some bytes that stand next to each other among the tokens encode a character. -/
def HidesChar (ts : List Token) : Prop :=
  ∃ c : Char, (String.utf8EncodeChar c).map Token.byte <:+: ts

theorem Token.IsWritten.isProper (ht : t.IsWritten) : t.IsProper := by
  cases t with
  | plain c => exact ht
  | backslash => trivial
  | byte b => trivial

/-! ### The bytes of tokens -/

theorem utf8EncodeChar_ne_nil (c : Char) : String.utf8EncodeChar c ≠ [] := by
  have hcode := Utf8.encodes_utf8EncodeChar c
  intro hnil
  rw [hnil] at hcode
  cases hcode

theorem Token.bytes_ne_nil (t : Token) : t.bytes ≠ [] := by
  cases t with
  | plain c => exact utf8EncodeChar_ne_nil c
  | backslash => exact List.cons_ne_nil _ _
  | byte b => exact List.cons_ne_nil _ _

theorem unescape_cons : unescape (t :: ts) = t.bytes ++ unescape ts := List.flatMap_cons

theorem unescape_append : unescape (ts ++ us) = unescape ts ++ unescape us := List.flatMap_append

theorem unescape_map_byte : unescape (bs.map .byte) = bs := by
  simp [unescape, List.flatMap_map, Token.bytes]

/-- Of the beginnings of a list of tokens no two stand for the same bytes. -/
theorem eq_of_unescape_eq (hlist : ts ++ vs = us ++ ws) (hbytes : unescape ts = unescape us) :
    ts = us := by
  -- the longer one stands for some more bytes, since each token stands for at least one
  have hnil : ∀ {ts : List Token}, unescape ts = [] → ts = [] := by
    intro ts hts
    cases ts with
    | nil => rfl
    | cons t ts => exact absurd (List.append_eq_nil_iff.1 hts).1 t.bytes_ne_nil
  rcases List.append_eq_append_iff.1 hlist with ⟨more, rfl, -⟩ | ⟨more, rfl, -⟩
  · rw [unescape_append, List.self_eq_append_right] at hbytes
    rw [hnil hbytes, List.append_nil]
  · rw [unescape_append, List.append_right_eq_self] at hbytes
    rw [hnil hbytes, List.append_nil]

/-! ### The tokens of bytes -/

theorem tokens_utf8EncodeChar_append :
    tokens (String.utf8EncodeChar c ++ bytes) = ofPiece (.char c) ++ tokens bytes := by
  rw [tokens, Utf8.pieces_utf8EncodeChar_append, List.flatMap_cons]; rfl

/-- Bytes of which none next to each other encode a character are shown one by one. -/
theorem tokens_eq_map_byte (hbs : ∀ c, ¬ String.utf8EncodeChar c <:+: bs) :
    tokens bs = bs.map .byte := by
  have hstray : ∀ p ∈ Utf8.pieces bs, ofPiece p = p.bytes.map .byte := by
    intro p hp
    cases p with
    | char c =>
      have hinfix : String.utf8EncodeChar c <:+: ((Utf8.pieces bs).map Utf8.Piece.bytes).flatten :=
        List.infix_of_mem_flatten (List.mem_map_of_mem hp)
      rw [← List.flatMap_def, Utf8.flatMap_bytes_pieces] at hinfix
      exact absurd hinfix (hbs c)
    | stray bytes => rfl
  rw [tokens, List.flatMap_def, List.map_congr_left hstray, ← List.flatMap_def, ← List.map_flatMap,
    Utf8.flatMap_bytes_pieces]

/-- A token that is no byte is the only one of a character. -/
theorem exists_char_of_isProper (ht : t.IsProper) :
    (∃ c, t.bytes = String.utf8EncodeChar c ∧ ofPiece (.char c) = [t]) ∨ ∃ b, t = .byte b := by
  cases t with
  | plain c => exact .inl ⟨c, rfl, if_neg ht⟩
  | backslash => exact .inl ⟨'\\', by decide, rfl⟩
  | byte b => exact .inr ⟨b, rfl⟩

/-- What stands for bytes without hiding a character is what is shown of the bytes. -/
theorem tokens_append_unescape (bs : Bytes) (hts : ∀ t ∈ ts, t.IsProper)
    (hhides : ¬ HidesChar (bs.map .byte ++ ts)) :
    tokens (bs ++ unescape ts) = bs.map .byte ++ ts := by
  -- `bs` is the run of bytes before `ts`, which a further byte makes longer and all else ends
  have hrun : ∀ {bs : Bytes} {ts : List Token}, ¬ HidesChar (bs.map .byte ++ ts) →
      tokens bs = bs.map .byte := by
    intro bs ts hhides
    refine tokens_eq_map_byte fun c hc => hhides ⟨c, ?_⟩
    exact (hc.map _).trans (List.prefix_append _ _).isInfix
  induction ts generalizing bs with
  | nil => rw [unescape, List.flatMap_nil, List.append_nil, List.append_nil, hrun hhides]
  | cons t ts ih =>
    obtain ⟨ht, hrest⟩ := List.forall_mem_cons.1 hts
    rcases exists_char_of_isProper ht with ⟨c, hbytes, hshown⟩ | ⟨b, rfl⟩
    · have hfewer : ¬ HidesChar (([] : Bytes).map .byte ++ ts) := by
        rintro ⟨c, hc⟩
        exact hhides ⟨c, hc.trans ((List.suffix_cons t ts).trans (List.suffix_append _ _)).isInfix⟩
      rw [unescape_cons, hbytes, tokens_append (Utf8.startsPiece_utf8EncodeChar_append c _),
        hrun hhides, tokens_utf8EncodeChar_append, hshown]
      exact congrArg (fun us => bs.map Token.byte ++ ([t] ++ us)) (ih [] hrest hfewer)
    · have happend : ∀ us : List Token,
          (bs ++ [b]).map Token.byte ++ us = bs.map .byte ++ .byte b :: us := by simp
      have hlonger := ih (bs ++ [b]) hrest (by rwa [happend])
      rwa [happend, List.append_assoc] at hlonger

/-- What is shown of bytes hides no character. -/
theorem not_hidesChar_tokens (bytes : Bytes) : ¬ HidesChar (tokens bytes) := by
  rintro ⟨c, ts, us, hlist⟩
  have hbytes : bytes = unescape ts ++ (String.utf8EncodeChar c ++ unescape us) := by
    rw [← unescape_tokens bytes, ← hlist, unescape_append, unescape_append, unescape_map_byte,
      List.append_assoc]
  -- the encoding starts a piece, so it is shown as a character
  rw [hbytes, tokens_append (Utf8.startsPiece_utf8EncodeChar_append c _),
    tokens_utf8EncodeChar_append, List.append_assoc] at hlist
  have hts : ts = tokens (unescape ts) := eq_of_unescape_eq hlist (unescape_tokens _).symm
  rw [← hts] at hlist
  have hshown := List.append_cancel_left hlist
  cases hcode : String.utf8EncodeChar c with
  | nil => exact utf8EncodeChar_ne_nil c hcode
  | cons b code =>
    rw [hcode, ofPiece] at hshown
    split at hshown <;> simp at hshown

theorem isWritten_of_mem_tokens (ht : t ∈ tokens bytes) : t.IsWritten := by
  have hproper := isProper_of_mem_tokens ht
  cases t with
  | plain c => exact hproper
  | backslash => trivial
  | byte b =>
    -- a byte below would be the encoding of an ASCII character
    refine UInt8.le_iff_toNat_le.2 (Nat.le_of_not_lt fun hb => ?_)
    refine not_hidesChar_tokens bytes ⟨Utf8.charOf 128 b [], ?_⟩
    rw [Utf8.encode_ascii (Utf8.lead_eq_ascii hb)]
    obtain ⟨ts, us, hlist⟩ := List.append_of_mem ht
    exact ⟨ts, us, by rw [hlist]; simp⟩

/-! ### The texts of bytes -/

theorem eq_tokens_of_spell_eq (hts : ∀ t ∈ ts, t.IsWritten) (htext : spell ts = escape bytes) :
    ts = tokens bytes :=
  spelling_inj (fun t ht => (hts t ht).isProper) (fun _ => isProper_of_mem_tokens)
    (String.ofList_injective htext)

theorem escape_unescape (hts : ∀ t ∈ ts, t.IsWritten) (hhides : ¬ HidesChar ts) :
    escape (unescape ts) = spell ts := by
  have htokens := tokens_append_unescape [] (fun t ht => (hts t ht).isProper) hhides
  exact congrArg spell htokens

/-- Escaped text is reversible and canonical. What is shown of a byte string is a list of tokens,
and whoever reads the text as tokens reads the byte string; so no two are shown alike. A text of
tokens is shown of some byte string just if the tokens hide no character, and then it is shown of
the one that they stand for. -/
theorem escape_isCanonical :
    (∀ bytes, escape bytes = spell (tokens bytes) ∧ (∀ t ∈ tokens bytes, t.IsWritten) ∧
      unescape (tokens bytes) = bytes ∧
      ∀ ts, (∀ t ∈ ts, t.IsWritten) → spell ts = escape bytes → unescape ts = bytes) ∧
    Function.Injective escape ∧
    ∀ ts, (∀ t ∈ ts, t.IsWritten) →
      ((∃ bytes, escape bytes = spell ts) ↔ ¬ HidesChar ts) ∧
      (¬ HidesChar ts → escape (unescape ts) = spell ts) := by
  refine ⟨fun bytes => ⟨rfl, fun _ => isWritten_of_mem_tokens, unescape_tokens bytes, ?_⟩,
    escape_injective, fun ts hts => ⟨⟨?_, fun hhides => ⟨_, escape_unescape hts hhides⟩⟩,
      escape_unescape hts⟩⟩
  · intro ts hts htext
    rw [eq_tokens_of_spell_eq hts htext, unescape_tokens]
  · rintro ⟨bytes, htext⟩
    rw [eq_tokens_of_spell_eq hts htext.symm]
    exact not_hidesChar_tokens bytes

/-- The two bytes of a character are shown one by one if something stands between them, and never
next to each other. -/
theorem escape_parted :
    (∃ bytes, escape bytes = spell [.byte 0xC3, .plain 'A', .byte 0xA9]) ∧
      ¬ ∃ bytes, escape bytes = spell [.byte 0xC3, .byte 0xA9] := by
  refine ⟨⟨[0xC3, 0x41, 0xA9], by decide⟩, fun hbytes => ?_⟩
  exact (escape_isCanonical.2.2 [.byte 0xC3, .byte 0xA9] (by decide)).1.1 hbytes ⟨'é', by decide⟩

/-! ### Putting texts together -/

theorem spell_append : spell (ts ++ us) = spell ts ++ spell us := by
  rw [spell, List.flatMap_append, String.ofList_append]; rfl

/-- A continuation byte that nothing was begun before is shown as a byte. -/
theorem tokens_cons_of_isTail {b : UInt8} (hb : Utf8.isTail b = true) :
    tokens (b :: bytes) = .byte b :: tokens bytes := by
  rw [tokens, Utf8.pieces.eq_def]
  simp only [Utf8.lead_eq_stray hb]
  rfl

/-- Two texts put together are the text of the bytes put together, whatever comes first, just if
what comes second is empty or does not begin with a continuation byte. -/
theorem escape_append_iff (v : Bytes) :
    (∀ u, escape (u ++ v) = escape u ++ escape v) ↔
      ∀ b ∈ v.head?, ¬ (0x80 ≤ b ∧ b ≤ 0xBF) := by
  rw [← Utf8.startsPiece_iff]
  constructor
  · intro happend
    cases v with
    | nil => trivial
    | cons b v =>
      refine Bool.eq_false_iff.2 fun hb => ?_
      -- the byte C3 goes with each continuation, and the two texts would show them one by one
      have hwritten : ∀ t ∈ tokens [0xC3] ++ tokens (b :: v), t.IsWritten := by
        intro t ht
        exact (List.mem_append.1 ht).elim isWritten_of_mem_tokens isWritten_of_mem_tokens
      have htokens := eq_tokens_of_spell_eq hwritten (spell_append.trans (happend [0xC3]).symm)
      refine not_hidesChar_tokens ([0xC3] ++ b :: v) ⟨Utf8.charOf 32 0xC3 [b], ?_⟩
      rw [← htokens, tokens_cons_of_isTail hb, Utf8.encode_two (by decide) hb]
      exact (List.prefix_append [Token.byte 0xC3, Token.byte b] (tokens v)).isInfix
  · intro hv u
    rw [escape, tokens_append hv, spell_append]; rfl

/-- Three bytes of a character of four, cut off by a slash. -/
example : escape ([0xF0, 0x9F, 0x98] ++ [0x2F]) = escape [0xF0, 0x9F, 0x98] ++ "/" := by decide

end TreeComparison.Escape

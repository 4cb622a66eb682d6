import TreeComparison.Proofs.Utf8
import TreeComparison.Text.Escape

/-!
Escaped text shows its bytes without loss. The tokens of a byte string stand for it, and no two
lists of tokens are spelled alike, so two byte strings never render the same. A slash is shown only
where the bytes have one.
-/

namespace TreeComparison.Escape

theorem bytes_ofPiece (p : Utf8.Piece) : unescape (ofPiece p) = p.bytes := by
  cases p with
  | char c =>
    simp only [ofPiece, Utf8.Piece.bytes]
    split
    · rename_i hc
      rw [hc]; decide
    · simp [unescape, Token.bytes]
  | stray bs => simp [unescape, ofPiece, Utf8.Piece.bytes, List.flatMap_map, Token.bytes]

/-- Reading the tokens of a byte string back gives the byte string. -/
theorem unescape_tokens (bytes : Bytes) : unescape (tokens bytes) = bytes := by
  have h : ∀ ps : List Utf8.Piece, unescape (ps.flatMap ofPiece) = ps.flatMap Utf8.Piece.bytes := by
    intro ps
    induction ps with
    | nil => rfl
    | cons p ps ih =>
      rw [List.flatMap_cons, List.flatMap_cons, ← ih, ← bytes_ofPiece p, unescape, unescape,
        unescape, List.flatMap_append]
  rw [tokens, h, Utf8.flatMap_bytes_pieces]

/-- What is shown of a byte string does not depend on what was begun before it. -/
theorem tokens_append {u v : Bytes} (hv : Utf8.StartsPiece v) :
    tokens (u ++ v) = tokens u ++ tokens v := by
  rw [tokens, Utf8.pieces_append hv, List.flatMap_append]; rfl

/-- A token that can be told from its spelling: a backslash is never written as itself. -/
def Token.IsProper : Token → Prop
  | .plain c => c ≠ '\\'
  | _ => True

theorem isProper_of_mem_tokens {bytes : Bytes} {t : Token} (h : t ∈ tokens bytes) :
    t.IsProper := by
  obtain ⟨p, -, ht⟩ := List.mem_flatMap.1 h
  cases p with
  | char c =>
    simp only [ofPiece] at ht
    split at ht
    · rw [List.mem_singleton.1 ht]; trivial
    · rename_i hc
      rw [List.mem_singleton.1 ht]; exact hc
  | stray bs =>
    obtain ⟨b, -, rfl⟩ := List.mem_map.1 ht
    trivial

theorem digitChar_inj : ∀ m n : Fin 16, m.val.digitChar = n.val.digitChar → m = n := by decide

theorem digitChar_ne_slash : ∀ m : Fin 16, m.val.digitChar ≠ '/' := by decide

theorem hexByte_inj {a b : UInt8} (h : Digits.hexByte a = Digits.hexByte b) : a = b := by
  have ha := a.toNat_lt
  have hb := b.toNat_lt
  simp only [Digits.hexByte, List.cons.injEq, and_true] at h
  have high := digitChar_inj ⟨a.toNat / 16, by omega⟩ ⟨b.toNat / 16, by omega⟩ h.1
  have low := digitChar_inj ⟨a.toNat % 16, by omega⟩ ⟨b.toNat % 16, by omega⟩ h.2
  simp only [Fin.mk.injEq] at high low
  exact UInt8.toNat_inj.1 (by omega)

/-- The spelling of a list of tokens can be read in one way only. -/
theorem spelling_inj : ∀ {ts us : List Token}, (∀ t ∈ ts, t.IsProper) → (∀ u ∈ us, u.IsProper) →
    ts.flatMap Token.spelling = us.flatMap Token.spelling → ts = us
  | [], [], _, _, _ => rfl
  | [], u :: us, _, _, h => by cases u <;> simp [Token.spelling] at h
  | t :: ts, [], _, _, h => by cases t <;> simp [Token.spelling] at h
  | t :: ts, u :: us, hts, hus, h => by
    obtain ⟨ht, hts⟩ := List.forall_mem_cons.1 hts
    obtain ⟨hu, hus⟩ := List.forall_mem_cons.1 hus
    rw [List.flatMap_cons, List.flatMap_cons] at h
    have rest : ts.flatMap Token.spelling = us.flatMap Token.spelling → ts = us :=
      spelling_inj hts hus
    cases t with
    | plain c =>
      cases u with
      | plain d => grind [Token.spelling]
      | backslash => grind [Token.spelling, Token.IsProper]
      | byte b => grind [Token.spelling, Token.IsProper]
    | backslash =>
      cases u with
      | plain d => grind [Token.spelling, Token.IsProper]
      | backslash => grind [Token.spelling]
      | byte b => simp [Token.spelling] at h
    | byte a =>
      cases u with
      | plain d => grind [Token.spelling, Token.IsProper]
      | backslash => simp [Token.spelling] at h
      | byte b =>
        have hlen : (Token.byte a).spelling.length = (Token.byte b).spelling.length := rfl
        obtain ⟨hab, h⟩ := List.append_inj h hlen
        simp only [Token.spelling, List.cons.injEq, true_and] at hab
        rw [hexByte_inj hab, rest h]

end TreeComparison.Escape

namespace TreeComparison

open Escape

/-- Two byte strings never render the same. -/
theorem escape_injective : Function.Injective escape := by
  intro a b h
  have hspell := String.ofList_injective h
  have htokens := spelling_inj (fun _ => isProper_of_mem_tokens) (fun _ => isProper_of_mem_tokens)
    hspell
  rw [← unescape_tokens a, ← unescape_tokens b, htokens]

theorem toList_escape (bytes : Bytes) :
    (escape bytes).toList = (tokens bytes).flatMap Token.spelling := by
  rw [escape, spell, String.toList_ofList]

/-- A slash is shown only where there is one. -/
theorem slash_not_mem_escape {bytes : Bytes} (h : 0x2F ∉ bytes) : '/' ∉ (escape bytes).toList := by
  rw [toList_escape]
  intro hmem
  obtain ⟨t, ht, hslash⟩ := List.mem_flatMap.1 hmem
  cases t with
  | plain c =>
    rw [Token.spelling, List.mem_singleton] at hslash
    have : 0x2F ∈ (Token.plain c).bytes := by rw [← hslash]; decide
    have := List.mem_flatMap.2 ⟨_, ht, this⟩
    rw [← unescape, unescape_tokens] at this
    exact h this
  | backslash => simp [Token.spelling] at hslash
  | byte b =>
    have hb := b.toNat_lt
    have high := digitChar_ne_slash ⟨b.toNat / 16, by omega⟩
    have low := digitChar_ne_slash ⟨b.toNat % 16, by omega⟩
    simp only [Token.spelling, Digits.hexByte, List.mem_cons, List.not_mem_nil, or_false] at hslash
    rcases hslash with hs | hs | hs | hs
    · exact absurd hs (by decide)
    · exact absurd hs (by decide)
    · exact high hs.symm
    · exact low hs.symm

theorem escape_eq_empty_iff {bytes : Bytes} : escape bytes = "" ↔ bytes = [] :=
  ⟨fun h => escape_injective (h.trans rfl), fun h => h ▸ rfl⟩

end TreeComparison

import Mathlib.Data.List.TakeWhile
import TreeComparison.Digest.Algorithm
import TreeComparison.Proofs.Escape

/-!
What is compared as text. A label is shown without the padding at its end, and a content by the
hexadecimal digits of its digest behind a tag. Nothing else is lost: two labels are shown alike just
if they differ in padding only, and two contents just if they have the same digest.
-/

namespace TreeComparison

variable {l l' p : Bytes} {h : HashAlgorithm} {c c' : Bytes}

/-! ### Labels -/

/-- Whether two labels are the same up to newline and NUL bytes at their ends. -/
def SameLabel (l l' : Bytes) : Prop :=
  ∃ core p p', l = core ++ p ∧ l' = core ++ p' ∧
    (∀ b ∈ p, b = 0x0A ∨ b = 0x00) ∧ ∀ b ∈ p', b = 0x0A ∨ b = 0x00

theorem isPadding_iff {b : UInt8} : isPadding b = true ↔ b = 0x0A ∨ b = 0x00 := by
  rw [isPadding, Bool.or_eq_true, decide_eq_true_iff, decide_eq_true_iff]

theorem trimPadding_append (hp : ∀ b ∈ p, b = 0x0A ∨ b = 0x00) :
    trimPadding (l ++ p) = trimPadding l := by
  rw [trimPadding, trimPadding, List.reverse_append, List.dropWhile_append_of_pos]
  intro b hb
  exact isPadding_iff.2 (hp b (List.mem_reverse.1 hb))

/-- A label is what remains of it with padding at the end. -/
theorem exists_padding (l : Bytes) :
    ∃ p, l = trimPadding l ++ p ∧ ∀ b ∈ p, b = 0x0A ∨ b = 0x00 := by
  refine ⟨(l.reverse.takeWhile isPadding).reverse, ?_, ?_⟩
  · rw [trimPadding, ← List.reverse_append, List.takeWhile_append_dropWhile, List.reverse_reverse]
  · intro b hb
    exact isPadding_iff.1 (List.mem_takeWhile_imp (List.mem_reverse.1 hb))

theorem sameLabel_iff : SameLabel l l' ↔ trimPadding l = trimPadding l' := by
  constructor
  · rintro ⟨core, p, p', rfl, rfl, hp, hp'⟩
    rw [trimPadding_append hp, trimPadding_append hp']
  · intro heq
    obtain ⟨p, hl, hp⟩ := exists_padding l
    obtain ⟨p', hl', hp'⟩ := exists_padding l'
    exact ⟨trimPadding l, p, p', hl, heq ▸ hl', hp, hp'⟩

/-- Labels are shown alike just if they are the same up to padding. -/
theorem normalizeLabel_eq_iff : normalizeLabel l = normalizeLabel l' ↔ SameLabel l l' := by
  rw [normalizeLabel, normalizeLabel, escape_injective.eq_iff, sameLabel_iff]

/-! ### Digests -/

theorem flatMap_hexByte_injective : ∀ {c c' : Bytes},
    c.flatMap Digits.hexByte = c'.flatMap Digits.hexByte → c = c'
  | [], [], _ => rfl
  | [], b :: c', heq => by simp [Digits.hexByte] at heq
  | b :: c, [], heq => by simp [Digits.hexByte] at heq
  | b :: c, b' :: c', heq => by
    obtain ⟨hb, hc⟩ := List.append_inj heq rfl
    rw [Escape.hexByte_inj hb, flatMap_hexByte_injective hc]

theorem hex_injective : Function.Injective Digits.hex :=
  fun _ _ heq => flatMap_hexByte_injective (String.ofList_injective heq)

/-- Fingerprints of one algorithm are the same just if the digests are. -/
theorem fingerprintOf_eq_iff :
    h.fingerprintOf c = h.fingerprintOf c' ↔ h.digest c = h.digest c' := by
  constructor
  · intro heq
    have hlist := congrArg String.toList heq
    simp only [HashAlgorithm.fingerprintOf, String.toList_append,
      List.append_cancel_left_eq] at hlist
    exact hex_injective (String.toList_inj.1 hlist)
  · intro heq
    rw [HashAlgorithm.fingerprintOf, HashAlgorithm.fingerprintOf, heq]

end TreeComparison

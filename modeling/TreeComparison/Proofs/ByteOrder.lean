import Mathlib.Data.String.Basic
import TreeComparison.Proofs.Utf8

/-!
Texts in the order of their bytes. The digits of a code point come in the order of their weight, and
a longer encoding starts with a greater byte; so of two characters the lesser one has the lesser
bytes, whatever comes after them. Texts are therefore ordered as their encodings are, byte by byte.
-/

namespace TreeComparison.Utf8

theorem cons_lt_cons_iff {a b : UInt8} {x y : Bytes} :
    a :: x < b :: y ↔ a.toNat < b.toNat ∨ a.toNat = b.toNat ∧ x < y := by
  rw [List.cons_lt_cons_iff, UInt8.lt_iff_toNat_lt, UInt8.toNat_inj]

/-- Of two code points the lesser one has the lesser bytes, whatever comes after them. -/
theorem append_lt_append_of_encodes {m n : Nat} {a b x y : Bytes} (ha : Encodes m a)
    (hb : Encodes n b) (hlt : m < n) : a ++ x < b ++ y := by
  -- encodings of two lengths differ in their first bytes, those of one length at the first digit in
  -- which the code points do
  cases ha <;> cases hb <;> simp only [List.cons_append, List.nil_append, cons_lt_cons_iff] <;>
    omega

theorem flatMap_lt_flatMap {cs ds : List Char} (hlt : cs < ds) :
    cs.flatMap String.utf8EncodeChar < ds.flatMap String.utf8EncodeChar := by
  induction cs generalizing ds with
  | nil =>
    cases ds with
    | nil => exact absurd hlt (List.not_lt_nil [])
    | cons d ds =>
      have hcode := encodes_utf8EncodeChar d
      rw [List.flatMap_cons]
      generalize String.utf8EncodeChar d = code at hcode
      cases hcode <;> exact List.nil_lt_cons _ _
  | cons c cs ih =>
    cases ds with
    | nil => exact absurd hlt (List.not_lt_nil _)
    | cons d ds =>
      rw [List.flatMap_cons, List.flatMap_cons]
      rcases List.cons_lt_cons_iff.1 hlt with hfirst | ⟨rfl, hrest⟩
      · exact append_lt_append_of_encodes (encodes_utf8EncodeChar c) (encodes_utf8EncodeChar d)
          hfirst
      · exact List.append_left_lt (ih hrest)

/-- Texts are ordered as their encodings are. -/
theorem encode_lt_encode_iff {s t : String} : encode s < encode t ↔ s < t := by
  have hmono : ∀ {s t : String}, s < t → encode s < encode t := fun hlt =>
    flatMap_lt_flatMap (String.lt_iff_toList_lt.1 hlt)
  refine ⟨fun hlt => ?_, hmono⟩
  rcases Std.lt_trichotomy s t with h | rfl | h
  · exact h
  · exact absurd hlt (List.lt_irrefl _)
  · exact absurd hlt (List.lt_asymm (hmono h))

theorem encode_le_encode_iff {s t : String} : encode s ≤ encode t ↔ s ≤ t := by
  rw [← List.not_lt, ← String.not_lt, encode_lt_encode_iff]

end TreeComparison.Utf8

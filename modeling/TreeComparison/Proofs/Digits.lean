import TreeComparison.Text.Digits

/-!
The digits of bytes and of numbers. A byte has two hexadecimal digits. The digits of a number in a
base of at most ten spell the number, and they do not begin with a zero unless the number is zero.
-/

namespace TreeComparison.Digits

variable {b n : Nat} {bytes : Bytes} {c : Char}

/-! ### Bytes -/

theorem length_hex : (hex bytes).toList.length = 2 * bytes.length := by
  rw [hex, String.toList_ofList, List.length_flatMap]
  induction bytes with
  | nil => rfl
  | cons b bytes ih =>
    rw [List.map_cons, List.sum_cons, ih, List.length_cons]
    change 2 + _ = _
    omega

theorem digitChar_mem : ∀ m : Fin 16, m.val.digitChar ∈ "0123456789abcdef".toList := by decide

/-- Hexadecimal digits are lowercase. -/
theorem mem_of_mem_hex (hc : c ∈ (hex bytes).toList) : c ∈ "0123456789abcdef".toList := by
  rw [hex, String.toList_ofList] at hc
  obtain ⟨b, -, hc⟩ := List.mem_flatMap.1 hc
  have hb := b.toNat_lt
  rcases List.mem_cons.1 hc with rfl | hc
  · exact digitChar_mem ⟨b.toNat / 16, by omega⟩
  · rw [List.mem_singleton.1 hc]
    exact digitChar_mem ⟨b.toNat % 16, by omega⟩

/-! ### Numbers -/

theorem valueIn?_digitChar (hb : b ≤ 10) (hn : n < b) :
    valueIn? b (Nat.digitChar n) = some n := by
  have hten : n < 10 := Nat.lt_of_lt_of_le hn hb
  have hrange : ∀ n < 10, '0' ≤ Nat.digitChar n ∧ Nat.digitChar n ≤ '9' := by decide
  simp only [valueIn?, if_pos (hrange n hten), Nat.toNat_digitChar_of_lt_ten hten,
    Char.reduceToNat, Nat.add_sub_cancel_left, if_pos hn]

variable (hb : 1 < b) (hten : b ≤ 10)
include hb hten

theorem foldlM_toDigits : (Nat.toDigits b n).foldlM
    (fun n c => (valueIn? b c).map (n * b + ·)) 0 = some n := by
  induction n using Nat.strongRecOn with
  | ind n ih =>
    by_cases hlt : n < b
    · rw [Nat.toDigits_of_lt_base hlt, List.foldlM_cons, valueIn?_digitChar hten hlt]
      simp
    · have hmod : n % b < b := Nat.mod_lt n (Nat.zero_lt_of_lt hb)
      rw [Nat.toDigits_of_base_le hb (Nat.le_of_not_lt hlt), List.foldlM_append,
        ih (n / b) (Nat.div_lt_self (by omega) hb)]
      simp [valueIn?_digitChar hten hmod, Nat.div_add_mod']

/-- The digits of a number spell it. -/
theorem read?_toDigits : read? b (Nat.toDigits b n) = some n := by
  rw [read?, if_neg (by simp), foldlM_toDigits hb hten]

/-- The digits of a number do not begin with a zero, unless the number is zero. -/
theorem exists_toDigits_eq_cons (n : Nat) :
    ∃ d ds, Nat.toDigits b n = d :: ds ∧ d.isDigit = true ∧ (0 < n → d ≠ '0') := by
  induction n using Nat.strongRecOn with
  | ind n ih =>
    by_cases hlt : n < b
    · have hdigits : Nat.toDigits b n = [Nat.digitChar n] := Nat.toDigits_of_lt_base hlt
      refine ⟨_, _, hdigits, ?_, fun hpos hzero => ?_⟩
      · exact Nat.isDigit_of_mem_toDigits (by omega) hten (hdigits ▸ List.mem_cons_self)
      · exact Nat.ne_of_gt hpos (Nat.digitChar_eq_zero.1 hzero)
    · have hle : b ≤ n := Nat.le_of_not_lt hlt
      obtain ⟨d, ds, hds, hdigit, hd⟩ := ih (n / b) (Nat.div_lt_self (by omega) hb)
      refine ⟨d, ds ++ [Nat.digitChar (n % b)], ?_, hdigit, fun _ => hd ?_⟩
      · rw [Nat.toDigits_of_base_le hb hle, hds, List.cons_append]
      · exact Nat.div_pos hle (by omega)

end TreeComparison.Digits

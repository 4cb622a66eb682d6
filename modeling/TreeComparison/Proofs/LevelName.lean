import TreeComparison.Log.Level
import TreeComparison.Proofs.Utf8

/-!
The names of levels. A name is put into lower case by the rules of all scripts before it is looked
for, but of capitals outside A to Z none has a letter of these names as its small letter. So a text
is found to be a name just if its letters are those of the name, of whatever case.
-/

namespace TreeComparison

namespace LowerCase

variable {c : Char} {cs ds : List Char}

/-- Whether a character is one of the small letters a to z that no capital but the one of A to Z
turns into. The letter k also comes from the sign for Kelvin. -/
def IsPlain (c : Char) : Prop := 'a'.toNat ≤ c.toNat ∧ c.toNat ≤ 'z'.toNat ∧ c ≠ 'k'

/-- Whether a character is one of the letters A to Z. -/
def IsCapital (c : Char) : Prop := 'A'.toNat ≤ c.toNat ∧ c.toNat ≤ 'Z'.toNat

instance : Decidable (IsPlain c) := inferInstanceAs (Decidable (_ ∧ _ ∧ _))

theorem IsPlain.range (h : IsPlain c) : 97 ≤ c.toNat ∧ c.toNat < 128 :=
  ⟨h.1, Nat.lt_of_le_of_lt h.2.1 (by decide)⟩

theorem not_isPlain_ofNat {n : Nat} (hn : 128 ≤ n) : ¬ IsPlain (Char.ofNat n) := by
  intro hplain
  have hrange := hplain.range
  by_cases hn' : n.isValidChar
  · rw [Char.toNat, Utf8.toNat_charOfNat hn'] at hrange
    omega
  · have hnul : Char.ofNat n = '\u0000' := dif_neg hn'
    rw [hnul] at hrange
    exact absurd hrange (by decide)

theorem lowerChar_of_capital (h : IsCapital c) : lowerChar c = [c.toLower] := by
  have hall : ∀ n < 26, lowerChar (Char.ofNat (65 + n)) = [(Char.ofNat (65 + n)).toLower] := by
    decide
  have hlow : 65 ≤ c.toNat := h.1
  have hhigh : c.toNat ≤ 90 := h.2
  have hc := hall (c.toNat - 65) (by omega)
  rwa [Nat.add_sub_cancel' hlow, Char.ofNat_toNat] at hc

theorem toLower_of_not_capital (h : ¬ IsCapital c) : c.toLower = c := dif_neg h

/-- All capitals outside A to Z are outside of ASCII, and so are their small letters, but for the
sign for Kelvin. -/
theorem far_of_mem_tail_runs : ∀ r ∈ runs.tail, 128 ≤ r.first ∧
    (128 ≤ r.first + r.shift ∨ r.first = 0x212A ∧ r.last = 0x212A ∧ r.shift = -8383) := by
  decide +kernel

theorem find?_runs_of_not_capital (h : ¬ IsCapital c) :
    runs.find? (fun r => r.holds c.toNat) = runs.tail.find? fun r => r.holds c.toNat := by
  have hfirst : (⟨0x41, 0x5A, 1, 32⟩ : Run).holds c.toNat = false := by
    have hrange : ¬ (0x41 ≤ c.toNat ∧ c.toNat ≤ 0x5A) := h
    simp only [Run.holds, Bool.and_eq_false_iff, decide_eq_false_iff_not]
    omega
  exact List.find?_cons_of_neg (by simp [hfirst])

/-- A character has the lower case that it has among the letters A to Z, or else has nothing to do
with the plain letters. -/
theorem lowerChar_cases (c : Char) : lowerChar c = [c.toLower] ∨
    ¬ IsPlain c.toLower ∧ ∃ d ∈ lowerChar c, ¬ IsPlain d := by
  by_cases hcapital : IsCapital c
  · exact .inl (lowerChar_of_capital hcapital)
  rw [toLower_of_not_capital hcapital]
  by_cases hdotted : c = '\u0130'
  · subst hdotted
    exact .inr ⟨by decide, '\u0307', by decide, by decide⟩
  rw [lowerChar, if_neg hdotted, find?_runs_of_not_capital hcapital]
  cases hrun : runs.tail.find? fun r => r.holds c.toNat with
  | none => exact .inl rfl
  | some r =>
    have hholds := List.find?_some hrun
    obtain ⟨hfirst, hsmall⟩ := far_of_mem_tail_runs r (List.mem_of_find?_eq_some hrun)
    simp only [Run.holds, Bool.and_eq_true, decide_eq_true_eq] at hholds
    refine .inr ⟨fun hplain => ?_, _, List.mem_singleton.2 rfl, ?_⟩
    · have := hplain.range
      omega
    · rcases hsmall with hfar | ⟨hlow, hhigh, hshift⟩
      · exact not_isPlain_ofNat (by omega)
      · have hkelvin : (c.toNat + r.shift).toNat = 107 := by omega
        rw [hkelvin]
        decide

/-- What has only plain letters in lower case has the same lower case among the letters A to Z. -/
theorem flatMap_lowerChar_eq_iff (hds : ∀ d ∈ ds, IsPlain d) :
    cs.flatMap lowerChar = ds ↔ cs.map Char.toLower = ds := by
  induction cs generalizing ds with
  | nil => rfl
  | cons c cs ih =>
    rw [List.flatMap_cons, List.map_cons]
    rcases lowerChar_cases c with heq | ⟨hlower, d, hd, hplain⟩
    · rw [heq]
      cases ds with
      | nil => simp
      | cons d ds => simp [ih fun d hd => hds d (List.mem_cons_of_mem _ hd)]
    · refine iff_of_false ?_ ?_
      · rintro rfl
        exact hplain (hds d (List.mem_append_left _ hd))
      · rintro rfl
        exact hlower (hds _ List.mem_cons_self)

end LowerCase

namespace LogLevel

variable {text : String} {l : LogLevel}

theorem isPlain_of_mem_name {c : Char} (hc : c ∈ l.name.toList) : LowerCase.IsPlain c := by
  have hall : (l.name.toList.all fun c => decide (LowerCase.IsPlain c)) = true := by
    cases l <;> rfl
  exact of_decide_eq_true (List.all_eq_true.1 hall c hc)

theorem lower_eq_name_iff : LowerCase.lower text = l.name ↔ LowerCase.lowerAscii text = l.name := by
  rw [← String.toList_inj, ← String.toList_inj, LowerCase.lower, LowerCase.lowerAscii,
    String.toList_ofList, String.toList_ofList]
  exact LowerCase.flatMap_lowerChar_eq_iff fun _ => isPlain_of_mem_name

/-- A text is the name of a level just if it is this name in letters of any case. -/
theorem ofName?_eq_some_iff : ofName? text = some l ↔ LowerCase.lowerAscii text = l.name := by
  rw [← lower_eq_name_iff]
  constructor
  · intro h
    rw [ofName?] at h
    have hname := List.find?_some h
    exact (of_decide_eq_true hname).symm
  · intro h
    rw [ofName?, h]
    cases l <;> rfl

end LogLevel

end TreeComparison

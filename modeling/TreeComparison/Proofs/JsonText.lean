import Mathlib.Data.List.Basic
import TreeComparison.Json.Printer
import TreeComparison.Proofs.Digits
import TreeComparison.Proofs.JsonGrammar

/-!
Reading JSON text that was written here. What is written for a value spells this value, in both
layouts: a character is written as itself or by an escape that stands for it, a number by digits
that do not begin with a zero, and the breaks between the items are blanks. So what is read back is
the value that was written.
-/

namespace TreeComparison.Json

/-- Whether a value is made of texts and natural numbers, as all values are that reports are written
as. A number of any other spelling is left out, as it need not be a number at all. -/
inductive IsData : Json → Prop
  | null : IsData .null
  | bool (b : Bool) : IsData (.bool b)
  | nat (n : Nat) : IsData (.nat n)
  | text (s : String) : IsData (.text s)
  | array (items : List Json) (h : ∀ v ∈ items, IsData v) : IsData (.array items)
  | record (members : List (String × Json)) (h : ∀ m ∈ members, IsData m.2) :
    IsData (.record members)

variable {layout : Layout} {depth depth' n : Nat} {v : Json} {vs : List Json} {name : String}

/-! ### Blanks -/

theorem areBlanks_nil : AreBlanks [] := List.forall_mem_nil _

theorem areBlanks_newline : AreBlanks (layout.newline depth) := by
  cases layout with
  | compact => exact areBlanks_nil
  | indented =>
    intro c hc
    rcases List.mem_cons.1 hc with rfl | hc
    · rfl
    · rw [(List.mem_replicate.1 hc).2]
      rfl

theorem exists_colon (layout : Layout) : ∃ bs, layout.colon = ':' :: bs ∧ AreBlanks bs := by
  cases layout with
  | compact => exact ⟨[], rfl, areBlanks_nil⟩
  | indented => exact ⟨[' '], rfl, fun c hc => by rw [List.mem_singleton.1 hc]; rfl⟩

/-! ### Strings -/

/-- A character is written as itself, by a letter or by its number. -/
theorem escapeChar_cases (c : Char) :
    (∃ e, shortEscape? e = some c ∧ escapeChar c = ['\\', e]) ∨
    (c.toNat < 0x20 ∧
      escapeChar c = '\\' :: 'u' :: '0' :: '0' :: Digits.hexByte c.toNat.toUInt8) ∨
    (c ≠ '"' ∧ c ≠ '\\' ∧ 0x20 ≤ c.toNat ∧ escapeChar c = [c]) := by
  rw [escapeChar]
  split_ifs with hquote hbackslash hb hf hn hr ht hcontrol
  · exact .inl ⟨'"', by rw [hquote]; rfl, rfl⟩
  · exact .inl ⟨'\\', by rw [hbackslash]; rfl, rfl⟩
  · exact .inl ⟨'b', by rw [hb]; rfl, rfl⟩
  · exact .inl ⟨'f', by rw [hf]; rfl, rfl⟩
  · exact .inl ⟨'n', by rw [hn]; rfl, rfl⟩
  · exact .inl ⟨'r', by rw [hr]; rfl, rfl⟩
  · exact .inl ⟨'t', by rw [ht]; rfl, rfl⟩
  · exact .inr (.inl ⟨hcontrol, rfl⟩)
  · exact .inr (.inr ⟨hquote, hbackslash, Nat.le_of_not_lt hcontrol, rfl⟩)

theorem read?_hexByte_of_lt : ∀ n < 0x20,
    Digits.read? 16 ('0' :: '0' :: Digits.hexByte n.toUInt8) = some n := by decide

/-- What is written for characters spells pieces that stand for these characters. -/
theorem exists_pieces (s : List Char) :
    ∃ ps, SpellsPieces ps (s.flatMap escapeChar) ∧ StandsFor ps s := by
  induction s with
  | nil => exact ⟨[], .nil, .nil⟩
  | cons c s ih =>
    obtain ⟨ps, hspells, hstands⟩ := ih
    rw [List.flatMap_cons]
    rcases escapeChar_cases c with ⟨e, hc, hescape⟩ | ⟨hcontrol, hescape⟩
        | ⟨hquote, hbackslash, hcontrol, hescape⟩
    · rw [hescape]
      exact ⟨.char c :: ps, .short hc hspells, .char hstands⟩
    · -- a control character is no half of a pair
      rw [hescape]
      refine ⟨.unit c.toNat :: ps, .unit (read?_hexByte_of_lt c.toNat hcontrol) hspells, ?_⟩
      have hunit : StandsFor (.unit c.toNat :: ps) (Char.ofNat c.toNat :: s) :=
        .unit (by omega) hstands
      rwa [Char.ofNat_toNat] at hunit
    · rw [hescape]
      exact ⟨.char c :: ps, .plain hquote hbackslash hcontrol hspells, .char hstands⟩

theorem spellsText_escape (s : String) : SpellsText (some s) (s.toList.flatMap escapeChar) := by
  obtain ⟨ps, hspells, hstands⟩ := exists_pieces s.toList
  refine ⟨ps, hspells, fun s' => ?_⟩
  rw [← map_joinPieces?_eq_some_iff, map_joinPieces?_eq_some_iff.2 hstands]

/-! ### Numbers -/

theorem isWhole_toDigits : IsWhole (Nat.toDigits 10 n) := by
  -- only the number zero is written with a zero in front
  rcases Nat.eq_zero_or_pos n with rfl | hn
  · exact .zero
  · obtain ⟨d, ds, hds, -, hd⟩ := Digits.exists_toDigits_eq_cons (b := 10) (by decide) (by decide) n
    have hdigits : AreDigits (Nat.toDigits 10 n) :=
      ⟨Nat.toDigits_ne_nil, fun _ => Nat.isDigit_of_mem_toDigits (by decide) (by decide)⟩
    rw [hds] at hdigits ⊢
    exact .other (hd hn) hdigits

theorem isNumber_toString : IsNumber (toString n).toList := by
  rw [Nat.toString_eq_ofList_toDigits, String.toList_ofList]
  have hnumber : IsNumber (Nat.toDigits 10 n ++ [] ++ []) :=
    .plain (.mk isWhole_toDigits .absent .absent)
  rwa [List.append_nil, List.append_nil] at hnumber

/-! ### Arrays -/

/-- The items of an array spell these items, if each of them spells its value. -/
theorem spellsItems_render (hall : ∀ w ∈ v :: vs, Spells w (render layout depth w)) :
    SpellsItems (v :: vs) (layout.newline depth ++ (render layout depth v
      ++ (renderItems layout depth vs ++ layout.newline depth'))) := by
  have hv : Spells v (render layout depth v) := hall v List.mem_cons_self
  induction vs generalizing v with
  | nil => exact .last (.mk areBlanks_newline hv areBlanks_newline)
  | cons w vs ih =>
    have hvs : ∀ x ∈ w :: vs, Spells x (render layout depth x) :=
      fun x hx => hall x (List.mem_cons_of_mem _ hx)
    have hpadded : SpellsPadded v (layout.newline depth ++ (render layout depth v ++ [])) :=
      .mk areBlanks_newline hv areBlanks_nil
    have hitems := SpellsItems.more hpadded (ih hvs (hvs w List.mem_cons_self))
    simpa only [renderItems, List.append_assoc, List.cons_append, List.nil_append] using hitems

theorem spells_array {items : List Json}
    (hall : ∀ v ∈ items, ∀ depth, Spells v (render layout depth v)) :
    Spells (.array items) (render layout depth (.array items)) := by
  cases items with
  | nil =>
    rw [render]
    exact .emptyArray areBlanks_nil
  | cons v vs =>
    have hitems : SpellsItems (v :: vs) (layout.newline (depth + 1) ++ (render layout (depth + 1) v
        ++ (renderItems layout (depth + 1) vs ++ layout.newline depth))) :=
      spellsItems_render fun w hw => hall w hw (depth + 1)
    simpa only [render, List.append_assoc] using Spells.array hitems

/-! ### Objects -/

/-- The members of an object as they stand in it. -/
def named (members : List (String × Json)) : List (JsonText × Json) :=
  members.map fun m => (some m.1, m.2)

@[simp] theorem named_nil : named [] = [] := rfl

@[simp] theorem named_cons {m : String × Json} {ms : List (String × Json)} :
    named (m :: ms) = (some m.1, m.2) :: named ms := rfl

theorem spellsMember_render {bs : List Char} (hv : Spells v (render layout depth v))
    (hbs : AreBlanks bs) : SpellsMember (some name, v) (layout.newline depth ++ (quote (some name)
      ++ (layout.colon ++ (render layout depth v ++ bs)))) := by
  obtain ⟨bs', hcolon, hbs'⟩ := exists_colon layout
  have hnewline : AreBlanks (layout.newline depth) := areBlanks_newline
  have hmember := SpellsMember.mk hnewline (spellsText_escape name) areBlanks_nil (.mk hbs' hv hbs)
  simpa only [quote, hcolon, List.append_assoc, List.cons_append, List.nil_append] using hmember

/-- The members of an object spell these members, if each value is spelled. -/
theorem spellsMembers_render {ms : List (String × Json)}
    (hall : ∀ m ∈ (name, v) :: ms, Spells m.2 (render layout depth m.2)) :
    SpellsMembers (named ((name, v) :: ms)) (layout.newline depth ++ (quote (some name)
      ++ (layout.colon ++ (render layout depth v ++ (renderMembers layout depth (named ms)
      ++ layout.newline depth'))))) := by
  have hv : Spells v (render layout depth v) := hall (name, v) List.mem_cons_self
  induction ms generalizing name v with
  | nil => exact .last (spellsMember_render hv areBlanks_newline)
  | cons m ms ih =>
    obtain ⟨name', w⟩ := m
    have hms : ∀ x ∈ (name', w) :: ms, Spells x.2 (render layout depth x.2) :=
      fun x hx => hall x (List.mem_cons_of_mem _ hx)
    have hmember : SpellsMember (some name, v) (layout.newline depth ++ (quote (some name)
        ++ (layout.colon ++ (render layout depth v ++ [])))) := spellsMember_render hv areBlanks_nil
    have hmembers := SpellsMembers.more hmember (ih hms (hms (name', w) List.mem_cons_self))
    simpa only [named_cons, renderMembers, List.append_assoc, List.cons_append, List.nil_append]
      using hmembers

theorem spells_record {members : List (String × Json)}
    (hall : ∀ m ∈ members, ∀ depth, Spells m.2 (render layout depth m.2)) :
    Spells (.record members) (render layout depth (.record members)) := by
  cases members with
  | nil =>
    rw [record, List.map_nil, render]
    exact .emptyObject areBlanks_nil
  | cons m ms =>
    obtain ⟨name, v⟩ := m
    have hmembers : SpellsMembers (named ((name, v) :: ms)) (layout.newline (depth + 1)
        ++ (quote (some name) ++ (layout.colon ++ (render layout (depth + 1) v
        ++ (renderMembers layout (depth + 1) (named ms) ++ layout.newline depth))))) :=
      spellsMembers_render fun w hw => hall w hw (depth + 1)
    rw [record, ← named]
    simpa only [named_cons, render, List.append_assoc] using Spells.object hmembers

/-! ### All values -/

/-- What is written for a value spells it. -/
theorem IsData.spells (h : v.IsData) : ∀ depth, Spells v (render layout depth v) := by
  induction h with
  | null =>
    intro depth
    rw [render]
    exact .null
  | bool b =>
    intro depth
    cases b with
    | false =>
      rw [render]
      exact .no
    | true =>
      rw [render]
      exact .yes
  | nat n =>
    intro depth
    have hnumber : Spells (.number (String.ofList (toString n).toList)) (toString n).toList :=
      .number isNumber_toString
    rwa [String.ofList_toList] at hnumber
  | text s =>
    intro depth
    rw [Json.text, render, quote]
    exact .string (spellsText_escape s)
  | array items _ ih => exact fun _ => spells_array ih
  | record members _ ih => exact fun _ => spells_record ih

theorem isText_print (h : v.IsData) : IsText (v.print layout) v := by
  have hpadded : SpellsPadded v ([] ++ (render layout 0 v ++ [])) :=
    .mk areBlanks_nil (h.spells 0) areBlanks_nil
  rw [List.append_nil, List.nil_append] at hpadded
  rw [IsText, print, String.toList_ofList]
  exact hpadded

/-- What was written is read back. -/
theorem parse?_print (h : v.IsData) : parse? (v.print layout) = some v :=
  parse?_eq_some_iff.2 (isText_print h)

end TreeComparison.Json

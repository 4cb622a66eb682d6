import Mathlib.Data.List.Induction
import Mathlib.Data.List.Nodup
import TreeComparison.SortedMap

/-!
Lists of keys with values, through their lookups. Where no key is repeated, a lookup finds exactly
what is listed. Insertion into a sorted map changes the value of one key, and two sorted maps that
answer every lookup alike are the same map, since the order of the keys leaves no choice. For the
same reason a map is made again by inserting its entries one after the other.
-/

namespace TreeComparison

/-- In a list without repeated keys, the entry that is found for a key is the one that is there. -/
theorem find?_key_eq_some_iff {α κ : Type} [DecidableEq κ] {key : α → κ} {l : List α} {j : κ}
    {e : α} (hnodup : (l.map key).Nodup) :
    (l.find? fun e => key e = j) = some e ↔ e ∈ l ∧ key e = j := by
  constructor
  · intro hfind
    exact ⟨List.mem_of_find?_eq_some hfind, by simpa using List.find?_some hfind⟩
  · rintro ⟨hmem, hkey⟩
    have hsome : (l.find? fun e => key e = j).isSome = true :=
      List.find?_isSome.2 ⟨e, hmem, by simpa using hkey⟩
    obtain ⟨e', hfind⟩ := Option.isSome_iff_exists.1 hsome
    have hkey' : key e' = j := by simpa using List.find?_some hfind
    have hmem' : e' ∈ l := List.mem_of_find?_eq_some hfind
    rw [hfind, List.inj_on_of_nodup_map hnodup hmem' hmem (hkey'.trans hkey.symm)]

/-- A key that is told apart from all others is found under its new name as under the old one. -/
theorem find?_map_key {κ ν : Type} [DecidableEq κ] {l : List (κ × ν)} {j : κ} {f : κ → κ}
    (heq : ∀ e ∈ l, f j = f e.1 ↔ j = e.1) :
    (l.map fun e => (f e.1, e.2)).find? (fun e => e.1 = f j)
      = (l.find? fun e => e.1 = j).map fun e => (f e.1, e.2) := by
  induction l with
  | nil => rfl
  | cons e l ih =>
    obtain ⟨he, hl⟩ := List.forall_mem_cons.1 heq
    rw [List.map_cons]
    by_cases hj : j = e.1
    · rw [List.find?_cons_of_pos (by simp [hj]), List.find?_cons_of_pos (by simp [hj])]
      rfl
    · have hne : ¬ e.1 = j := fun h => hj h.symm
      have hne' : ¬ f e.1 = f j := fun h => hj (he.1 h.symm)
      rw [List.find?_cons_of_neg (by simpa using hne'), List.find?_cons_of_neg (by simpa using hne),
        ih hl]

namespace SortedMap

variable {κ ν μ : Type} [LT κ] {m m' : SortedMap κ ν} {i j : κ} {v w : ν}

theorem nodup_keys [Std.Asymm (α := κ) (· < ·)] : m.keys.Nodup := by
  refine List.Pairwise.map _ ?_ m.increasing
  intro e e' hlt heq
  rw [heq] at hlt
  exact Std.Asymm.asymm _ _ hlt hlt

/-- Two maps with the same keys have them in the same order. -/
theorem keys_eq [Std.Asymm (α := κ) (· < ·)] {m' : SortedMap κ μ}
    (h : ∀ j, j ∈ m.keys ↔ j ∈ m'.keys) : m.keys = m'.keys := by
  have hperm : m.keys.Perm m'.keys := (List.perm_ext_iff_of_nodup m.nodup_keys m'.nodup_keys).2 h
  have hincreasing : ∀ {ν : Type} (m : SortedMap κ ν), m.keys.Pairwise (· < ·) :=
    fun m => m.increasing.map _ fun _ _ hlt => hlt
  refine hperm.eq_of_pairwise ?_ (hincreasing m) (hincreasing m')
  intro i j _ _ hlt hgt
  exact absurd hgt (Std.Asymm.asymm _ _ hlt)

variable [DecidableEq κ]

/-! ### Insertion -/

@[simp] theorem get?_empty : (∅ : SortedMap κ ν).get? j = none := rfl

section Insert

variable [DecidableLT κ] {l : List (κ × ν)}

theorem find?_insertInto_self : (insertInto j v l).find? (fun e => e.1 = j) = some (j, v) := by
  induction l with
  | nil => simp [insertInto]
  | cons e l ih =>
    rw [insertInto]
    split
    · simp
    · split
      · simp
      · rename_i hne
        rw [List.find?_cons_of_neg (by simpa using Ne.symm hne), ih]

theorem find?_insertInto_of_ne (hne : i ≠ j) :
    (insertInto j v l).find? (fun e => e.1 = i) = l.find? fun e => e.1 = i := by
  have hji : ¬ j = i := Ne.symm hne
  induction l with
  | nil => simp [insertInto, hji]
  | cons e l ih =>
    rw [insertInto]
    split
    · rw [List.find?_cons_of_neg (by simpa using hji)]
    · split
      · rename_i hj
        rw [List.find?_cons_of_neg (by simpa using hji),
          List.find?_cons_of_neg (by simpa [← hj] using hji)]
      · rw [List.find?_cons, List.find?_cons, ih]

/-- A key that is greater than all others goes to the end. -/
theorem insertInto_of_forall_lt [Std.Asymm (α := κ) (· < ·)] (hl : ∀ e ∈ l, e.1 < j) :
    insertInto j v l = l ++ [(j, v)] := by
  induction l with
  | nil => rfl
  | cons e l ih =>
    obtain ⟨he, hl⟩ := List.forall_mem_cons.1 hl
    have hne : j ≠ e.1 := by
      intro heq
      rw [← heq] at he
      exact Std.Asymm.asymm _ _ he he
    rw [insertInto, if_neg (Std.Asymm.asymm _ _ he), if_neg hne, ih hl, List.cons_append]

/-- Keys may be renamed before an insertion or after it, if the new names are in the order of the
old ones. -/
theorem insertInto_map {f : κ → κ} (hlt : ∀ e ∈ l, f j < f e.1 ↔ j < e.1)
    (heq : ∀ e ∈ l, f j = f e.1 ↔ j = e.1) :
    insertInto (f j) v (l.map fun e => (f e.1, e.2))
      = (insertInto j v l).map fun e => (f e.1, e.2) := by
  induction l with
  | nil => rfl
  | cons e l ih =>
    obtain ⟨hlt, hlts⟩ := List.forall_mem_cons.1 hlt
    obtain ⟨heq, heqs⟩ := List.forall_mem_cons.1 heq
    simp only [List.map_cons, insertInto, hlt, heq, ih hlts heqs]
    split
    · rfl
    · split <;> rfl

variable [Trans (α := κ) (· < ·) (· < ·) (· < ·)] [Std.Trichotomous (α := κ) (· < ·)]

@[simp] theorem get?_insert_self : (m.insert j v).get? j = some v := by
  rw [get?, insert, find?_insertInto_self]; rfl

theorem get?_insert_of_ne (hne : i ≠ j) : (m.insert j v).get? i = m.get? i := by
  rw [get?, insert, find?_insertInto_of_ne hne]; rfl

/-- A map is the map of its entries. -/
theorem ofList_entries [Std.Asymm (α := κ) (· < ·)] : ofList m.entries = m := by
  obtain ⟨entries, increasing⟩ := m
  refine SortedMap.ext ?_
  -- the entry that is inserted last has the greatest key
  induction entries using List.reverseRecOn with
  | nil => rfl
  | append_singleton l e ih =>
    obtain ⟨hl, -, hlast⟩ := List.pairwise_append.1 increasing
    have hentries : (ofList l).entries = l := ih hl
    rw [ofList, List.foldl_append, ← ofList]
    change insertInto e.1 e.2 (ofList l).entries = l ++ [e]
    rw [hentries, insertInto_of_forall_lt fun e' he' => hlast e' he' e (List.mem_singleton_self e)]

end Insert

/-! ### Maps by their lookups -/

section Order

variable [Std.Asymm (α := κ) (· < ·)]

theorem get?_eq_some_iff : m.get? j = some v ↔ (j, v) ∈ m.entries := by
  rw [get?, Option.map_eq_some_iff]
  constructor
  · rintro ⟨e, hfind, rfl⟩
    obtain ⟨hmem, rfl⟩ := (find?_key_eq_some_iff m.nodup_keys).1 hfind
    exact hmem
  · intro hmem
    exact ⟨(j, v), (find?_key_eq_some_iff m.nodup_keys).2 ⟨hmem, rfl⟩, rfl⟩

theorem mem_keys_iff : j ∈ m.keys ↔ ∃ v, m.get? j = some v := by
  rw [keys, List.mem_map]
  constructor
  · rintro ⟨e, he, rfl⟩
    exact ⟨e.2, get?_eq_some_iff.2 he⟩
  · rintro ⟨v, hv⟩
    exact ⟨(j, v), get?_eq_some_iff.1 hv, rfl⟩

theorem ext_get? (h : ∀ j, m.get? j = m'.get? j) : m = m' := by
  have hmem : ∀ e, e ∈ m.entries ↔ e ∈ m'.entries := by
    intro e
    rw [← get?_eq_some_iff (m := m), ← get?_eq_some_iff (m := m'), h]
  have hperm : m.entries.Perm m'.entries :=
    (List.perm_ext_iff_of_nodup m.nodup_keys.of_map m'.nodup_keys.of_map).2 hmem
  refine SortedMap.ext (hperm.eq_of_pairwise ?_ m.increasing m'.increasing)
  intro e e' _ _ hlt hgt
  exact absurd hgt (Std.Asymm.asymm _ _ hlt)

end Order

/-! ### Changing the values -/

/-- The map with the value of each key changed. -/
def mapValues (f : ν → μ) (m : SortedMap κ ν) : SortedMap κ μ where
  entries := m.entries.map fun e => (e.1, f e.2)
  increasing := m.increasing.map _ fun _ _ h => h

@[simp] theorem get?_mapValues {f : ν → μ} : (m.mapValues f).get? j = (m.get? j).map f := by
  rw [get?, get?, mapValues, List.find?_map, Option.map_map, Option.map_map]
  rfl

/-! ### Repeated insertion -/

section Insert

variable [DecidableLT κ] [Trans (α := κ) (· < ·) (· < ·) (· < ·)]
  [Std.Trichotomous (α := κ) (· < ·)] [Std.Asymm (α := κ) (· < ·)]

/-- Of two values that are inserted for one key the later one counts. -/
theorem insert_insert_self : (m.insert j v).insert j w = m.insert j w := by
  refine ext_get? fun i => ?_
  by_cases hi : i = j
  · subst hi
    rw [get?_insert_self, get?_insert_self]
  · rw [get?_insert_of_ne hi, get?_insert_of_ne hi, get?_insert_of_ne hi]

/-- Two keys may be inserted in either order. -/
theorem insert_comm (hne : i ≠ j) : (m.insert i v).insert j w = (m.insert j w).insert i v := by
  refine ext_get? fun k => ?_
  by_cases hi : k = i
  · subst hi
    rw [get?_insert_of_ne hne, get?_insert_self, get?_insert_self]
  · rw [get?_insert_of_ne (m := m.insert j w) hi]
    by_cases hj : k = j
    · subst hj
      rw [get?_insert_self, get?_insert_self]
    · rw [get?_insert_of_ne hj, get?_insert_of_ne hi, get?_insert_of_ne hj]

end Insert

/-! ### Parts -/

/-- The part of a map with keys that are kept. -/
def part (keep : κ → Bool) (m : SortedMap κ ν) : SortedMap κ ν where
  entries := m.entries.filter fun e => keep e.1
  increasing := m.increasing.filter _

theorem get?_part {keep : κ → Bool} :
    (m.part keep).get? j = if keep j then m.get? j else none := by
  rw [get?, get?, part, List.find?_filter]
  cases hj : keep j with
  | true =>
    have hsame : (fun e : κ × ν => decide (keep e.1 = true ∧ decide (e.1 = j) = true))
        = fun e => decide (e.1 = j) := by
      funext e
      by_cases he : e.1 = j <;> simp [he, hj]
    rw [hsame, if_pos rfl]
  | false =>
    rw [if_neg Bool.false_ne_true, List.find?_eq_none.2]
    · rfl
    · rintro e - he
      obtain ⟨hkeep, he⟩ := of_decide_eq_true he
      rw [of_decide_eq_true he, hj] at hkeep
      cases hkeep

theorem part_insert [DecidableLT κ] [Trans (α := κ) (· < ·) (· < ·) (· < ·)]
    [Std.Trichotomous (α := κ) (· < ·)] [Std.Asymm (α := κ) (· < ·)] {keep : κ → Bool} :
    (m.insert j v).part keep = if keep j then (m.part keep).insert j v else m.part keep := by
  refine ext_get? fun i => ?_
  by_cases hi : i = j
  · subst hi
    cases hkeep : keep i <;> simp [get?_part, hkeep]
  · have hold : (m.insert j v).get? i = m.get? i := get?_insert_of_ne hi
    cases hkeep : keep j <;> simp [get?_part, hold, get?_insert_of_ne hi]

end SortedMap

end TreeComparison

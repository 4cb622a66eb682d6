/-!
A finite map kept as a list in strictly increasing order of its keys. The order is part of the type,
so two maps with the same content are equal, and a walk through a map always meets the keys in
order.
-/

namespace TreeComparison

/-- A map from keys to values, in increasing order of the keys. -/
@[ext] structure SortedMap (κ : Type) (ν : Type) [LT κ] where
  /-- The keys with their values. -/
  entries : List (κ × ν)
  /-- The keys increase. -/
  increasing : entries.Pairwise fun x y => x.1 < y.1

namespace SortedMap

variable {κ ν : Type} [LT κ]

instance [DecidableEq κ] [DecidableEq ν] : DecidableEq (SortedMap κ ν) := fun a b =>
  decidable_of_iff (a.entries = b.entries) SortedMap.ext_iff.symm

/-- The map without keys. -/
def empty : SortedMap κ ν := ⟨[], .nil⟩

instance : EmptyCollection (SortedMap κ ν) := ⟨empty⟩

instance : Inhabited (SortedMap κ ν) := ⟨∅⟩

/-- Whether the map has no key. -/
def isEmpty (m : SortedMap κ ν) : Bool := m.entries.isEmpty

/-- The number of keys. -/
def size (m : SortedMap κ ν) : Nat := m.entries.length

/-- The keys, in order. -/
def keys (m : SortedMap κ ν) : List κ := m.entries.map (·.1)

/-- The value of a key. -/
def get? [DecidableEq κ] (m : SortedMap κ ν) (k : κ) : Option ν :=
  (m.entries.find? fun e => e.1 = k).map (·.2)

/-- Puts a key with its value into a list in its place; a value that the key had is replaced. -/
def insertInto [DecidableLT κ] [DecidableEq κ] (k : κ) (v : ν) : List (κ × ν) → List (κ × ν)
  | [] => [(k, v)]
  | e :: rest =>
    if k < e.1 then (k, v) :: e :: rest
    else if k = e.1 then (k, v) :: rest
    else e :: insertInto k v rest

theorem mem_insertInto [DecidableLT κ] [DecidableEq κ] {k : κ} {v : ν} {l : List (κ × ν)}
    {e : κ × ν} (h : e ∈ insertInto k v l) : e = (k, v) ∨ e ∈ l := by
  induction l with
  | nil => simpa [insertInto] using h
  | cons x xs ih =>
    simp only [insertInto] at h
    split at h
    · simpa using h
    · split at h
      · rcases List.mem_cons.1 h with h | h
        · exact .inl h
        · exact .inr (List.mem_cons_of_mem _ h)
      · rcases List.mem_cons.1 h with h | h
        · exact .inr (h ▸ List.mem_cons_self)
        · exact (ih h).imp_right (List.mem_cons_of_mem _)

variable [DecidableLT κ] [DecidableEq κ] [Trans (α := κ) (· < ·) (· < ·) (· < ·)]
  [Std.Trichotomous (α := κ) (· < ·)]

theorem pairwise_insertInto {k : κ} {v : ν} {l : List (κ × ν)}
    (h : l.Pairwise fun x y => x.1 < y.1) :
    (insertInto k v l).Pairwise fun x y => x.1 < y.1 := by
  induction l with
  | nil => simp [insertInto]
  | cons e rest ih =>
    obtain ⟨he, hrest⟩ := List.pairwise_cons.1 h
    simp only [insertInto]
    split
    · rename_i hk
      refine List.pairwise_cons.2 ⟨fun y hy => ?_, h⟩
      rcases List.mem_cons.1 hy with rfl | hy
      · exact hk
      · exact Std.lt_trans hk (he y hy)
    · split
      · rename_i hk
        exact List.pairwise_cons.2 ⟨fun y hy => hk ▸ he y hy, hrest⟩
      · rename_i hlt hne
        refine List.pairwise_cons.2 ⟨fun y hy => ?_, ih hrest⟩
        rcases mem_insertInto hy with rfl | hy
        · exact ((Std.lt_trichotomy e.1 k).resolve_right fun h =>
            h.elim (fun h => hne h.symm) hlt)
        · exact he y hy

/-- Sets the value of a key. -/
def insert (m : SortedMap κ ν) (k : κ) (v : ν) : SortedMap κ ν :=
  ⟨insertInto k v m.entries, pairwise_insertInto m.increasing⟩

/-- The map of a list of keys with values; of a key that occurs more than once the last value
counts. -/
def ofList (l : List (κ × ν)) : SortedMap κ ν := l.foldl (fun m e => m.insert e.1 e.2) ∅

end SortedMap

end TreeComparison

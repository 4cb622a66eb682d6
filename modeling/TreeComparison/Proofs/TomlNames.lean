import Mathlib.Data.List.Nodup
import TreeComparison.Toml.Document

/-!
The names in a TOML document. A table that is being read is changed in two ways only: a name that it
does not have is added to it, or the item of a name that it has is replaced. So no table of a
document, at whatever depth, gives a name twice, and what a name stands for does not depend on the
order in which a table is written.
-/

namespace TreeComparison.Toml

/-- Whether no table in a value gives a name twice. -/
inductive IsProper : Toml → Prop
  | string (text : String) : IsProper (.string text)
  | integer (n : Int) : IsProper (.integer n)
  | float (spelling : String) : IsProper (.float spelling)
  | boolean (b : Bool) : IsProper (.boolean b)
  | datetime (spelling : String) : IsProper (.datetime spelling)
  | array {items : List Toml} (h : ∀ v ∈ items, IsProper v) : IsProper (.array items)
  | table {entries : List (String × Toml)} (hnames : (entries.map Prod.fst).Nodup)
      (h : ∀ e ∈ entries, IsProper e.2) : IsProper (.table entries)

/-- Whether no table in an item gives a name twice. -/
inductive Item.IsProper : Item → Prop
  | value {v : Toml} (hv : v.IsProper) : IsProper (.value v)
  | table {origin : Origin} {es : List (String × Item)} (hnames : (es.map Prod.fst).Nodup)
      (h : ∀ e ∈ es, IsProper e.2) : IsProper (.table origin es)
  | elements {earlier : List Toml} {last : List (String × Item)}
      (hearlier : ∀ v ∈ earlier, v.IsProper) (hnames : (last.map Prod.fst).Nodup)
      (h : ∀ e ∈ last, IsProper e.2) : IsProper (.elements earlier last)

/-- Whether some entries give no name twice, and no table in them does. -/
structure Entries.AreProper (es : Entries) : Prop where
  names : (es.map Prod.fst).Nodup
  items : ∀ e ∈ es, e.2.IsProper

variable {es es' : Entries} {name : String} {item : Item} {path : List String} {here made : Origin}
  {v : Toml} {change : Origin → Entries → Option Entries} {bound levels : Nat}
  {cs rest : List Char} {d d' : Draft}
  {entries : List (String × Toml)}

/-! ### The value of a name -/

theorem lookup_eq_none_iff : entries.lookup name = none ↔ ∀ v, (name, v) ∉ entries := by
  rw [List.lookup_eq_none_iff]
  constructor
  · intro h v hv
    simpa using h _ hv
  · rintro h ⟨other, v⟩ he
    rw [bne_iff_ne]
    rintro rfl
    exact h v he

/-- If no name is given twice, a name stands for the value that it is given anywhere. -/
theorem lookup_eq_some_iff (hnames : (entries.map Prod.fst).Nodup) :
    entries.lookup name = some v ↔ (name, v) ∈ entries := by
  rw [List.lookup_eq_some_iff]
  constructor
  · rintro ⟨before, after, rfl, -⟩
    exact List.mem_append_right _ List.mem_cons_self
  · intro hv
    obtain ⟨before, after, rfl⟩ := List.append_of_mem hv
    refine ⟨before, after, rfl, fun e he => ?_⟩
    rw [bne_iff_ne]
    rintro rfl
    rw [List.map_append, List.map_cons, List.nodup_append] at hnames
    exact hnames.2.2 _ (List.mem_map_of_mem he) _ List.mem_cons_self rfl

theorem value_unique {w : Toml} (hnames : (entries.map Prod.fst).Nodup) (hv : (name, v) ∈ entries)
    (hw : (name, w) ∈ entries) : v = w := by
  rw [← lookup_eq_some_iff hnames] at hv hw
  exact Option.some.inj (hv.symm.trans hw)

/-! ### Finished tables -/

theorem finishAll_eq_map (es : Entries) : finishAll es = es.map fun e => (e.1, e.2.finish) := by
  induction es with
  | nil => rfl
  | cons e es ih => rw [finishAll, ih, List.map_cons]

theorem map_fst_finishAll (es : Entries) : (finishAll es).map Prod.fst = es.map Prod.fst := by
  rw [finishAll_eq_map, List.map_map]
  rfl

theorem isProper_finishAll (hnames : (es.map Prod.fst).Nodup)
    (h : ∀ e ∈ es, e.2.finish.IsProper) : (Toml.table (finishAll es)).IsProper := by
  refine .table (by rwa [map_fst_finishAll]) ?_
  rw [finishAll_eq_map]
  exact List.forall_mem_map.2 h

theorem Item.IsProper.finish (h : item.IsProper) : item.finish.IsProper := by
  induction h with
  | value hv =>
    rw [Item.finish]
    exact hv
  | table hnames _ ih =>
    rw [Item.finish]
    exact isProper_finishAll hnames ih
  | elements hearlier hnames _ ih =>
    rw [Item.finish]
    exact .array (List.forall_mem_append.2
      ⟨hearlier, List.forall_mem_singleton.2 (isProper_finishAll hnames ih)⟩)

theorem Entries.AreProper.finish (h : es.AreProper) : (Toml.table (finishAll es)).IsProper :=
  isProper_finishAll h.names fun e he => (h.items e he).finish

/-! ### Changes of a table -/

namespace Entries

theorem areProper_nil : AreProper [] := ⟨List.nodup_nil, List.forall_mem_nil _⟩

theorem isProper_table_iff : (Item.table here es).IsProper ↔ es.AreProper := by
  constructor
  · rintro (_ | ⟨hnames, h⟩)
    exact ⟨hnames, h⟩
  · intro h
    exact .table h.names h.items

theorem isProper_elements_iff {earlier : List Toml} :
    (Item.elements earlier es).IsProper ↔ (∀ v ∈ earlier, v.IsProper) ∧ es.AreProper := by
  constructor
  · rintro (_ | _ | ⟨hearlier, hnames, h⟩)
    exact ⟨hearlier, hnames, h⟩
  · rintro ⟨hearlier, h⟩
    exact .elements hearlier h.names h.items

theorem AreProper.isProper (h : es.AreProper) (hitem : es.lookup name = some item) :
    item.IsProper := by
  obtain ⟨before, after, rfl, -⟩ := List.lookup_eq_some_iff.1 hitem
  exact h.items (name, item) (List.mem_append_right _ List.mem_cons_self)

theorem AreProper.add (h : es.AreProper) (hname : es.lookup name = none) (hitem : item.IsProper) :
    AreProper (es ++ [(name, item)]) := by
  rw [List.lookup_eq_none_iff] at hname
  refine ⟨?_, fun e he => ?_⟩
  · rw [List.map_append, List.map_singleton]
    refine h.names.append (List.nodup_singleton name) fun x hx hx' => ?_
    obtain ⟨e, he, rfl⟩ := List.mem_map.1 hx
    simpa [List.mem_singleton.1 hx'] using hname e he
  · rcases List.mem_append.1 he with he | he
    · exact h.items e he
    · rw [List.mem_singleton.1 he]
      exact hitem

theorem map_fst_replace : (es.replace name item).map Prod.fst = es.map Prod.fst := by
  rw [replace, List.map_map]
  refine List.map_congr_left fun e _ => ?_
  by_cases he : e.1 = name <;> simp [he]

theorem AreProper.replace (h : es.AreProper) (hitem : item.IsProper) :
    (es.replace name item).AreProper := by
  refine ⟨by rw [map_fst_replace]; exact h.names, List.forall_mem_map.2 fun e he => ?_⟩
  by_cases hname : e.1 = name
  · rw [if_pos hname]
    exact hitem
  · rw [if_neg hname]
    exact h.items e he

/-- Whether a change leaves no name given twice if none was before. -/
def Preserves (change : Origin → Entries → Option Entries) : Prop :=
  ∀ {here es es'}, AreProper es → change here es = some es' → AreProper es'

/-- What a change preserves at the end of a path, it preserves in the tables on the way. -/
theorem preserves_descend (hchange : Preserves change) :
    Preserves fun here es => es.descend made change here path := by
  intro here es es' h hes
  induction path generalizing here es es' with
  | nil => exact hchange h hes
  | cons name path ih =>
    dsimp only at hes
    rw [descend] at hes
    split at hes
    · rename_i hname
      obtain ⟨inner, hinner, heq⟩ := Option.bind_eq_some_iff.1 hes
      cases heq
      exact h.add hname (isProper_table_iff.2 (ih areProper_nil hinner))
    · cases hes
    · rename_i earlier last hname
      obtain ⟨last', hlast, heq⟩ := Option.bind_eq_some_iff.1 hes
      cases heq
      obtain ⟨hearlier, hproper⟩ := isProper_elements_iff.1 (h.isProper hname)
      exact h.replace (isProper_elements_iff.2 ⟨hearlier, ih hproper hlast⟩)
    · rename_i origin inner hname
      split at hes
      · cases hes
      · obtain ⟨inner', hinner, heq⟩ := Option.bind_eq_some_iff.1 hes
        cases heq
        have hproper := isProper_table_iff.1 (h.isProper hname)
        exact h.replace (isProper_table_iff.2 (ih hproper hinner))

theorem preserves_insert (hv : v.IsProper) :
    Preserves fun here es => es.insert here path name v := by
  intro here es es' h hes
  refine preserves_descend ?_ h hes
  intro there es es' h hes
  dsimp only at hes
  split at hes
  · cases hes
  · rename_i hnew
    cases hes
    rw [not_or, Bool.not_eq_true, Option.isSome_eq_false_iff, Option.isNone_iff_eq_none] at hnew
    exact h.add hnew.2 (.value hv)

theorem AreProper.openTable (h : es.AreProper) (hes : es.openTable path name = some es') :
    es'.AreProper := by
  refine preserves_descend ?_ h hes
  intro there es es' h hes
  dsimp only at hes
  split at hes
  · rename_i hname
    cases hes
    exact h.add hname (isProper_table_iff.2 areProper_nil)
  · rename_i inner hname
    cases hes
    exact h.replace (isProper_table_iff.2 (isProper_table_iff.1 (h.isProper hname)))
  · cases hes

theorem AreProper.openElement (h : es.AreProper) (hes : es.openElement path name = some es') :
    es'.AreProper := by
  refine preserves_descend ?_ h hes
  intro there es es' h hes
  dsimp only at hes
  split at hes
  · rename_i hname
    cases hes
    exact h.add hname (isProper_elements_iff.2 ⟨List.forall_mem_nil _, areProper_nil⟩)
  · rename_i earlier last hname
    cases hes
    obtain ⟨hearlier, hproper⟩ := isProper_elements_iff.1 (h.isProper hname)
    refine h.replace (isProper_elements_iff.2 ⟨?_, areProper_nil⟩)
    exact List.forall_mem_append.2 ⟨hearlier, List.forall_mem_singleton.2 hproper.finish⟩
  · cases hes

end Entries

/-! ### Values -/

theorem isProper_of_number? (h : number? cs = some (v, rest)) : v.IsProper := by
  simp only [number?, Option.orElse_eq_orElse, Option.orElse_eq_or, Option.or_eq_some_iff] at h
  rcases h with hdatetime | ⟨-, hfloat | ⟨-, hinteger⟩⟩
  · obtain ⟨rest', -, heq⟩ := Option.bind_eq_some_iff.1 hdatetime
    cases heq
    exact .datetime _
  · rw [float?] at hfloat
    dsimp only at hfloat
    split at hfloat
    · cases hfloat
      exact .float _
    · split at hfloat
      · cases hfloat
      · cases hfloat
        exact .float _
    · cases hfloat
  · rw [integer?.eq_def] at hinteger
    split at hinteger
    all_goals
      obtain ⟨⟨n, rest'⟩, -, heq⟩ := Option.bind_eq_some_iff.1 hinteger
      dsimp only at heq
      split at heq
      · cases heq
        exact .integer n
      · cases heq

theorem isProper_of_word? {word : List Char} {b : Bool}
    (h : word? word (.boolean b) cs = some (v, rest)) : v.IsProper := by
  rw [word?] at h
  split at h
  · cases h
    exact .boolean b
  · cases h

theorem isProper_of_simple? (h : simple? cs = some (v, rest)) : v.IsProper := by
  rw [simple?.eq_def] at h
  split at h
  · cases h
  · split at h
    · obtain ⟨r, -, heq⟩ := Option.map_eq_some_iff.1 h
      cases heq
      exact .string r.1
    · split at h
      · exact isProper_of_word? h
      · split at h
        · exact isProper_of_word? h
        · exact isProper_of_number? h

/-- Whether no table in what is read with a bound gives a name twice. -/
structure ReadsProper (bound : Nat) : Prop where
  value : ∀ {levels cs v rest}, value? bound levels cs = some (v, rest) → v.IsProper
  items : ∀ {levels cs vs rest}, items? bound levels cs = some (vs, rest) → ∀ v ∈ vs, v.IsProper
  pairs : ∀ {levels es cs es' rest}, es.AreProper →
    pairs? bound levels es cs = some (es', rest) → es'.AreProper

theorem ReadsProper.succ_value (h : ReadsProper bound)
    (hv : value? (bound + 1) levels cs = some (v, rest)) : v.IsProper := by
  rw [value?.eq_def] at hv
  dsimp only at hv
  split at hv
  · cases hv
  · cases hv
  · obtain ⟨⟨vs, rest'⟩, hvs, heq⟩ := Option.map_eq_some_iff.1 hv
    cases heq
    exact .array (h.items hvs)
  · split at hv
    · cases hv
      exact Entries.areProper_nil.finish
    · obtain ⟨⟨es, rest'⟩, hes, heq⟩ := Option.map_eq_some_iff.1 hv
      cases heq
      exact (h.pairs Entries.areProper_nil hes).finish
  · exact isProper_of_simple? hv

theorem ReadsProper.succ_items (h : ReadsProper bound) {vs : List Toml}
    (hvs : items? (bound + 1) levels cs = some (vs, rest)) : ∀ v ∈ vs, v.IsProper := by
  rw [items?] at hvs
  obtain ⟨cs₁, -, hvs⟩ := Option.bind_eq_some_iff.1 hvs
  split at hvs
  · cases hvs
    exact List.forall_mem_nil _
  · obtain ⟨⟨v, cs₂⟩, hv, hafter⟩ := Option.bind_eq_some_iff.1 hvs
    obtain ⟨cs₃, -, hafter⟩ := Option.bind_eq_some_iff.1 hafter
    have hproper := h.value hv
    split at hafter
    · obtain ⟨⟨vs', cs₄⟩, hvs', heq⟩ := Option.bind_eq_some_iff.1 hafter
      cases heq
      exact List.forall_mem_cons.2 ⟨hproper, h.items hvs'⟩
    · cases hafter
      exact List.forall_mem_singleton.2 hproper
    · cases hafter

theorem ReadsProper.succ_pairs (h : ReadsProper bound) (hes : es.AreProper)
    (hread : pairs? (bound + 1) levels es cs = some (es', rest)) : es'.AreProper := by
  rw [pairs?] at hread
  obtain ⟨⟨path, name, cs₁⟩, -, hread⟩ := Option.bind_eq_some_iff.1 hread
  obtain ⟨cs₂, -, hread⟩ := Option.bind_eq_some_iff.1 hread
  obtain ⟨⟨v, cs₃⟩, hv, hread⟩ := Option.bind_eq_some_iff.1 hread
  obtain ⟨es₁, hinsert, hread⟩ := Option.bind_eq_some_iff.1 hread
  have hproper : es₁.AreProper := Entries.preserves_insert (h.value hv) hes hinsert
  split at hread
  · exact h.pairs hproper hread
  · cases hread
    exact hproper
  · cases hread

theorem readsProper (bound : Nat) : ReadsProper bound := by
  induction bound with
  | zero =>
    refine ⟨fun h => ?_, fun h => ?_, fun _ h => ?_⟩
    · rw [value?] at h
      cases h
    · rw [items?] at h
      cases h
    · rw [pairs?] at h
      cases h
  | succ bound ih => exact ⟨ih.succ_value, ih.succ_items, ih.succ_pairs⟩

/-! ### Lines -/

theorem Draft.areProper_insert (h : d.entries.AreProper) (hv : v.IsProper)
    (hd : d.insert path name v = some d') : d'.entries.AreProper := by
  obtain ⟨es, hes, heq⟩ := Option.bind_eq_some_iff.1 hd
  cases heq
  exact Entries.preserves_descend (Entries.preserves_insert hv) h hes

theorem areProper_of_line? (h : d.entries.AreProper) (hd : line? d cs = some (d', rest)) :
    d'.entries.AreProper := by
  rw [line?.eq_def] at hd
  split at hd
  · obtain ⟨⟨path, name, cs₁⟩, -, hd⟩ := Option.bind_eq_some_iff.1 hd
    obtain ⟨cs₂, -, hd⟩ := Option.bind_eq_some_iff.1 hd
    obtain ⟨d₁, hopen, heq⟩ := Option.bind_eq_some_iff.1 hd
    cases heq
    obtain ⟨es, hes, rfl⟩ := Option.map_eq_some_iff.1 hopen
    exact h.openElement hes
  · obtain ⟨⟨path, name, cs₁⟩, -, hd⟩ := Option.bind_eq_some_iff.1 hd
    obtain ⟨cs₂, -, hd⟩ := Option.bind_eq_some_iff.1 hd
    obtain ⟨d₁, hopen, heq⟩ := Option.bind_eq_some_iff.1 hd
    cases heq
    obtain ⟨es, hes, rfl⟩ := Option.map_eq_some_iff.1 hopen
    exact h.openTable hes
  · split at hd
    · cases hd
      exact h
    · obtain ⟨⟨path, name, cs₁⟩, -, hd⟩ := Option.bind_eq_some_iff.1 hd
      obtain ⟨cs₂, -, hd⟩ := Option.bind_eq_some_iff.1 hd
      obtain ⟨⟨v, cs₃⟩, hv, hd⟩ := Option.bind_eq_some_iff.1 hd
      obtain ⟨cs₄, -, hd⟩ := Option.bind_eq_some_iff.1 hd
      obtain ⟨d₁, hinsert, heq⟩ := Option.bind_eq_some_iff.1 hd
      cases heq
      exact Draft.areProper_insert h ((readsProper _).value hv) hinsert

theorem areProper_of_lines? (h : d.entries.AreProper) (hd : lines? bound d cs = some d') :
    d'.entries.AreProper := by
  induction bound generalizing d cs with
  | zero =>
    rw [lines?] at hd
    cases hd
  | succ bound ih =>
    rw [lines?] at hd
    split at hd
    · cases hd
      exact h
    · obtain ⟨⟨d₁, cs₁⟩, hline, hd⟩ := Option.bind_eq_some_iff.1 hd
      exact ih (areProper_of_line? h hline) hd

/-- What a document gives is a table, in which no name is given twice at any depth. -/
theorem exists_table_of_parse? {text : String} (h : parse? text = some v) :
    ∃ entries, v = .table entries ∧ v.IsProper := by
  obtain ⟨d, hd, rfl⟩ := Option.map_eq_some_iff.1 h
  exact ⟨_, rfl, (areProper_of_lines? Entries.areProper_nil hd).finish⟩

end TreeComparison.Toml

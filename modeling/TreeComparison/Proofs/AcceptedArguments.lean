import TreeComparison.Proofs.CommandWords
import Mathlib.Data.List.Forall2
import Mathlib.Data.List.Induction

/-!
Which command lines are accepted. Things can be taken one after the other just if there is at most
one value for each option and no flag twice, and if all values are good. So arguments are accepted
just if the words give two paths and nothing twice, and then they are what the words give.
-/

namespace TreeComparison

variable {words : List Bytes} {items : List Item}

/-! ### Values, slot by slot -/

namespace Item

/-- The path that is given. -/
def path? : Item → Option Bytes
  | .path w => some w
  | _ => none

/-- The value that is given for an option. -/
def valueOf? (slot : Slot) : Item → Option Bytes
  | .value slot' v => if slot' = slot then some v else none
  | _ => none

/-- The flag that is given. -/
def flag? : Item → Option Flag
  | .flag f => some f
  | _ => none

/-- Whether a value is one for an option. -/
def IsNamed : Item → Prop
  | .value slot _ => slot.name?.isSome
  | _ => True

/-- The values that are given for one slot. The first path is for the first directory, and all
others are for the second. -/
def valuesOf (items : List Item) : Slot → List Bytes
  | .dir1 => (items.filterMap path?).take 1
  | .dir2 => (items.filterMap path?).drop 1
  | slot => items.filterMap (valueOf? slot)

variable {slot slot' : Slot} {value : Bytes}

theorem valuesOf_append_value (hslot : slot.name?.isSome) :
    valuesOf (items ++ [.value slot value]) slot' =
      if slot' = slot then valuesOf items slot' ++ [value] else valuesOf items slot' := by
  cases slot with
  | dir1 | dir2 => cases hslot
  | _ => cases slot' <;> simp [valuesOf, path?, valueOf?, List.filterMap_cons]

theorem valuesOf_append_path
    (hslot : Given.nextPath? (items.filterMap path?).length = some slot) :
    valuesOf (items ++ [.path value]) slot' =
      if slot' = slot then valuesOf items slot' ++ [value] else valuesOf items slot' := by
  rw [Given.nextPath?.eq_def] at hslot
  have happend : ∀ s, (items ++ [Item.path value]).filterMap (valueOf? s) =
      items.filterMap (valueOf? s) := by
    intro s
    simp [valueOf?, List.filterMap_cons]
  have hpaths : (items ++ [Item.path value]).filterMap path? =
      items.filterMap path? ++ [value] := by
    simp [path?]
  split at hslot <;> cases hslot
  · rename_i hlength
    rw [List.length_eq_zero_iff] at hlength
    cases slot' <;> simp [valuesOf, happend, hpaths, hlength]
  · rename_i hlength
    obtain ⟨v, hv⟩ := List.length_eq_one_iff.1 hlength
    cases slot' <;> simp [valuesOf, happend, hpaths, hv]

theorem valuesOf_append_flag {f : Flag} :
    valuesOf (items ++ [.flag f]) slot' = valuesOf items slot' := by
  cases slot' <;> simp [valuesOf, path?, valueOf?, List.filterMap_cons]

end Item

/-- Whether there is at most one value, and nothing or what it stands for. -/
def OnlyValue {α : Type} (R : Bytes → α → Prop) (values : List Bytes) (x : Option α) : Prop :=
  List.Forall₂ R values x.toList

section OnlyValue

variable {α : Type} {R : Bytes → α → Prop} {values : List Bytes} {value : Bytes} {x : Option α}

theorem onlyValue_none_iff : OnlyValue R values none ↔ values = [] := List.forall₂_nil_right_iff

theorem onlyValue_some_iff {y : α} :
    OnlyValue R values (some y) ↔ ∃ v, values = [v] ∧ R v y := by
  simp [OnlyValue, List.forall₂_cons_right_iff, List.forall₂_nil_right_iff, and_comm]

theorem onlyValue_nil_iff : OnlyValue R [] x ↔ x = none := by
  cases x <;> simp [OnlyValue]

theorem onlyValue_append_singleton_iff :
    OnlyValue R (values ++ [value]) x ↔ values = [] ∧ ∃ y, x = some y ∧ R value y := by
  cases x with
  | none => simp [onlyValue_none_iff]
  | some y =>
    cases values with
    | nil => simp [OnlyValue]
    | cons v values => simp [OnlyValue, List.forall₂_nil_right_iff]

end OnlyValue

/-- Whether a value is a path. -/
def IsPath (value path : Bytes) : Prop := value ≠ [] ∧ path = value

namespace Given

/-- Whether what is given for a slot is what some values stand for. -/
def Agrees (g : Given) (values : List Bytes) : Slot → Prop
  | .dir1 => OnlyValue IsPath values g.dir1
  | .dir2 => OnlyValue IsPath values g.dir2
  | .config => OnlyValue IsPath values g.config
  | .hash => OnlyValue (fun value a => a.IsNamedBy value) values g.hash
  | .timeout => OnlyValue IsSeconds values g.timeout
  | .logLevel => OnlyValue (fun value text => value = Utf8.encode text) values g.logLevel

/-- Whether what is given is what some items give, with no flag twice. -/
structure IsSaidBy (g : Given) (items : List Item) : Prop where
  values : ∀ slot, g.Agrees (Item.valuesOf items slot) slot
  flags : items.filterMap Item.flag? = g.flags.reverse
  once : g.flags.Nodup

variable {g g' : Given} {i : Item} {slot slot' : Slot} {value : Bytes} {values : List Bytes}

theorem Takes.agrees (h : g.Takes value slot g') (hg : g.Agrees values slot) :
    g'.Agrees (values ++ [value]) slot := by
  cases h <;> rename_i h hvalue <;> rw [Agrees, h, onlyValue_none_iff] at hg <;>
    exact onlyValue_append_singleton_iff.2
      ⟨hg, _, rfl, by first | exact hvalue | exact ⟨hvalue, rfl⟩⟩

/-- A value that is taken is of no account to all other slots. -/
theorem Takes.agrees_of_ne (h : g.Takes value slot g') (hne : slot' ≠ slot) :
    g'.Agrees values slot' ↔ g.Agrees values slot' := by
  cases h <;> cases slot' <;> first | exact Iff.rfl | exact absurd rfl hne

/-- What the last value stands for was taken last. -/
theorem Agrees.exists_takes (h : g'.Agrees (values ++ [value]) slot) :
    ∃ g : Given, g.Takes value slot g' ∧ g.Agrees values slot := by
  obtain ⟨dir1, dir2, config, hash, timeout, logLevel, flags⟩ := g'
  cases slot <;> obtain ⟨rfl, x, rfl : _ = some x, hvalue⟩ := onlyValue_append_singleton_iff.1 h
  case dir1 =>
    obtain ⟨hvalue, rfl⟩ := hvalue
    exact ⟨⟨none, dir2, config, hash, timeout, logLevel, flags⟩, .dir1 rfl hvalue, .nil⟩
  case dir2 =>
    obtain ⟨hvalue, rfl⟩ := hvalue
    exact ⟨⟨dir1, none, config, hash, timeout, logLevel, flags⟩, .dir2 rfl hvalue, .nil⟩
  case config =>
    obtain ⟨hvalue, rfl⟩ := hvalue
    exact ⟨⟨dir1, dir2, none, hash, timeout, logLevel, flags⟩, .config rfl hvalue, .nil⟩
  case hash =>
    exact ⟨⟨dir1, dir2, config, none, timeout, logLevel, flags⟩, .hash x rfl hvalue, .nil⟩
  case timeout =>
    exact ⟨⟨dir1, dir2, config, hash, none, logLevel, flags⟩, .timeout x rfl hvalue, .nil⟩
  case logLevel =>
    exact ⟨⟨dir1, dir2, config, hash, timeout, none, flags⟩, .logLevel x rfl hvalue, .nil⟩

theorem Takes.flags_eq (h : g.Takes value slot g') : g'.flags = g.flags := by
  cases h <;> rfl

/-- One more item that is for a slot is a value more that is taken. -/
theorem isSaidBy_append_iff_of_slot
    (hvalues : ∀ slot', Item.valuesOf (items ++ [i]) slot' =
      if slot' = slot then Item.valuesOf items slot' ++ [value] else Item.valuesOf items slot')
    (hflags : (items ++ [i]).filterMap Item.flag? = items.filterMap Item.flag?) :
    g'.IsSaidBy (items ++ [i]) ↔ ∃ g : Given, g.IsSaidBy items ∧ g.Takes value slot g' := by
  constructor
  · intro h
    have hslot := h.values slot
    rw [hvalues, if_pos rfl] at hslot
    obtain ⟨g, htakes, hg⟩ := hslot.exists_takes
    refine ⟨g, ⟨fun slot' => ?_, ?_, ?_⟩, htakes⟩
    · by_cases hne : slot' = slot
      · exact hne ▸ hg
      · have hother := h.values slot'
        rw [hvalues, if_neg hne] at hother
        exact (htakes.agrees_of_ne hne).1 hother
    · rw [← hflags, h.flags, htakes.flags_eq]
    · exact htakes.flags_eq ▸ h.once
  · rintro ⟨g, h, htakes⟩
    refine ⟨fun slot' => ?_, ?_, ?_⟩
    · rw [hvalues]
      split
      · rename_i heq
        exact heq ▸ htakes.agrees (h.values slot)
      · rename_i hne
        exact (htakes.agrees_of_ne hne).2 (h.values slot')
    · rw [hflags, h.flags, htakes.flags_eq]
    · exact htakes.flags_eq.symm ▸ h.once

theorem IsSaidBy.count_eq (h : g.IsSaidBy items) :
    g.count = (items.filterMap Item.path?).length := by
  have h1 : g.dir1.toList.length = _ := (List.Forall₂.length_eq (h.values .dir1)).symm
  have h2 : g.dir2.toList.length = _ := (List.Forall₂.length_eq (h.values .dir2)).symm
  rw [count, h1, h2, Item.valuesOf, Item.valuesOf, ← List.length_append, List.take_append_drop]

/-- There is no place for a third path. -/
theorem IsSaidBy.exists_nextPath {w : Bytes} (h : g'.IsSaidBy (items ++ [.path w])) :
    ∃ slot, nextPath? (items.filterMap Item.path?).length = some slot := by
  have hlength := List.Forall₂.length_eq (h.values .dir2)
  have hsecond : g'.dir2.toList.length ≤ 1 := Option.length_toList_le
  rw [← hlength, Item.valuesOf, List.filterMap_append, List.length_drop, List.length_append]
    at hsecond
  replace hsecond : (items.filterMap Item.path?).length ≤ 1 := hsecond
  rcases Nat.le_one_iff_eq_zero_or_eq_one.1 hsecond with hzero | hone
  · exact ⟨.dir1, hzero ▸ rfl⟩
  · exact ⟨.dir2, hone ▸ rfl⟩

/-- One more flag is one that is not up yet. -/
theorem isSaidBy_append_flag_iff {f : Flag} : g'.IsSaidBy (items ++ [.flag f]) ↔
    ∃ g : Given, g.IsSaidBy items ∧ f ∉ g.flags ∧ g' = { g with flags := f :: g.flags } := by
  have hagrees : ∀ (g : Given) (fs : List Flag) (values : List Bytes) (slot : Slot),
      { g with flags := fs }.Agrees values slot ↔ g.Agrees values slot := by
    intro g fs values slot
    cases slot <;> exact Iff.rfl
  constructor
  · rintro ⟨hvalues, hflags, honce⟩
    have hcons : g'.flags = f :: (items.filterMap Item.flag?).reverse := by
      rw [← List.reverse_inj, ← hflags]
      simp [Item.flag?]
    rw [hcons, List.nodup_cons] at honce
    refine ⟨{ g' with flags := (items.filterMap Item.flag?).reverse }, ⟨fun slot => ?_, ?_,
      honce.2⟩, honce.1, by rw [← hcons]⟩
    · rw [hagrees, ← Item.valuesOf_append_flag (f := f)]
      exact hvalues slot
    · exact List.reverse_reverse _ |>.symm
  · rintro ⟨g, ⟨hvalues, hflags, honce⟩, hf, rfl⟩
    refine ⟨fun slot => ?_, ?_, List.nodup_cons.2 ⟨hf, honce⟩⟩
    · rw [hagrees, Item.valuesOf_append_flag]
      exact hvalues slot
    · simp [hflags, Item.flag?]

/-- One more path is for the place that comes next. -/
theorem isSaidBy_append_path_iff {w : Bytes} : g'.IsSaidBy (items ++ [.path w]) ↔
    ∃ g : Given, g.IsSaidBy items ∧ g.put (.path w) = some g' := by
  have hflags : (items ++ [Item.path w]).filterMap Item.flag? = items.filterMap Item.flag? := by
    simp [Item.flag?, List.filterMap_cons]
  constructor
  · intro h
    obtain ⟨slot, hslot⟩ := h.exists_nextPath
    obtain ⟨g, hg, htakes⟩ :=
      (isSaidBy_append_iff_of_slot (fun _ => Item.valuesOf_append_path hslot) hflags).1 h
    refine ⟨g, hg, Option.bind_eq_some_iff.2 ⟨slot, ?_, toOption_set_iff.2 htakes⟩⟩
    rw [hg.count_eq, hslot]
  · rintro ⟨g, hg, hput⟩
    obtain ⟨slot, hslot, hset⟩ := Option.bind_eq_some_iff.1 hput
    rw [hg.count_eq] at hslot
    exact (isSaidBy_append_iff_of_slot (fun _ => Item.valuesOf_append_path hslot) hflags).2
      ⟨g, hg, toOption_set_iff.1 hset⟩

/-- One more item is one more thing that can be taken. -/
theorem isSaidBy_append_iff (hi : i.IsNamed) : g'.IsSaidBy (items ++ [i]) ↔
    ∃ g : Given, g.IsSaidBy items ∧ g.put i = some g' := by
  cases i with
  | path w => exact isSaidBy_append_path_iff
  | value slot value =>
    simp only [put, toOption_set_iff]
    exact isSaidBy_append_iff_of_slot (fun _ => Item.valuesOf_append_value hi)
      (by simp [Item.flag?, List.filterMap_cons])
  | flag f =>
    simp only [put, toOption_raise_iff]
    exact isSaidBy_append_flag_iff

theorem isSaidBy_nil_iff : g.IsSaidBy [] ↔ g = nothing := by
  obtain ⟨dir1, dir2, config, hash, timeout, logLevel, flags⟩ := g
  constructor
  · rintro ⟨hvalues, hflags, -⟩
    obtain rfl := onlyValue_nil_iff.1 (hvalues .dir1)
    obtain rfl := onlyValue_nil_iff.1 (hvalues .dir2)
    obtain rfl := onlyValue_nil_iff.1 (hvalues .config)
    obtain rfl := onlyValue_nil_iff.1 (hvalues .hash)
    obtain rfl := onlyValue_nil_iff.1 (hvalues .timeout)
    obtain rfl := onlyValue_nil_iff.1 (hvalues .logLevel)
    obtain rfl := List.reverse_eq_nil_iff.1 hflags.symm
    rfl
  · intro h
    rw [h]
    exact ⟨fun slot => by cases slot <;> exact .nil, rfl, .nil⟩

/-- Items can be taken one after the other just if they can be taken together. -/
theorem foldlM_put_iff (hitems : ∀ i ∈ items, i.IsNamed) :
    items.foldlM put nothing = some g ↔ g.IsSaidBy items := by
  induction items using List.reverseRecOn generalizing g with
  | nil => rw [isSaidBy_nil_iff, List.foldlM_nil, Option.pure_def, Option.some.injEq, eq_comm]
  | append_singleton items i ih =>
    obtain ⟨hitems, hi⟩ := List.forall_mem_append.1 hitems
    rw [isSaidBy_append_iff (hi i List.mem_cons_self)]
    simp only [List.foldlM_append, List.foldlM_cons, List.foldlM_nil, bind_pure,
      Option.bind_eq_bind, Option.bind_eq_some_iff, ih hitems]

end Given

/-- Whether arguments are what some items give: two paths, at most one value for each option, and no
flag twice. All values must be good, and no path may be empty. -/
structure Arguments.AreSaidBy (a : Arguments) (items : List Item) : Prop where
  paths : items.filterMap Item.path? = [a.dir1, a.dir2]
  nonempty : a.dir1 ≠ [] ∧ a.dir2 ≠ []
  config : OnlyValue IsPath (items.filterMap (Item.valueOf? .config)) a.config
  hash : OnlyValue (fun value h => h.IsNamedBy value) (items.filterMap (Item.valueOf? .hash)) a.hash
  timeout : OnlyValue IsSeconds (items.filterMap (Item.valueOf? .timeout)) a.timeout
  logLevel : OnlyValue (fun value text => value = Utf8.encode text)
    (items.filterMap (Item.valueOf? .logLevel)) a.logLevel
  flags : items.filterMap Item.flag? = a.flags.reverse
  once : a.flags.Nodup

theorem Reads.isNamed (h : Reads words items) : ∀ i ∈ items, i.IsNamed := by
  induction h with
  | done => exact nofun
  | path w hw h ih => exact List.forall_mem_cons.2 ⟨trivial, ih⟩
  | flag flag h ih => exact List.forall_mem_cons.2 ⟨trivial, ih⟩
  | held slot w value hw h ih => exact List.forall_mem_cons.2 ⟨hw.name?_isSome, ih⟩
  | apart slot w value hw hvalue h ih => exact List.forall_mem_cons.2 ⟨hw.name?_isSome, ih⟩
  | onlyPaths paths =>
    intro i hi
    obtain ⟨w, -, rfl⟩ := List.mem_map.1 hi
    trivial

namespace Arguments

variable {a : Arguments} {g : Given}

/-- The arguments as something that has been given. -/
def given (a : Arguments) : Given :=
  ⟨some a.dir1, some a.dir2, a.config, a.hash, a.timeout, a.logLevel, a.flags⟩

theorem toOption_ofGiven_iff : (ofGiven g).toOption = some a ↔ g = a.given := by
  obtain ⟨dir1, dir2, config, hash, timeout, logLevel, flags⟩ := g
  obtain ⟨dir1', dir2', config', hash', timeout', logLevel', flags'⟩ := a
  cases dir1 <;> cases dir2 <;> simp [ofGiven, given, Except.toOption]

theorem isSaidBy_given_iff : a.given.IsSaidBy items ↔ a.AreSaidBy items := by
  constructor
  · rintro ⟨hvalues, hflags, honce⟩
    obtain ⟨_, hfirst, hne, rfl⟩ := onlyValue_some_iff.1 (hvalues .dir1)
    obtain ⟨_, hsecond, hne', rfl⟩ := onlyValue_some_iff.1 (hvalues .dir2)
    refine ⟨?_, ⟨hne, hne'⟩, hvalues .config, hvalues .hash, hvalues .timeout, hvalues .logLevel,
      hflags, honce⟩
    rw [← List.take_append_drop 1 (items.filterMap Item.path?)]
    exact congrArg₂ (· ++ ·) hfirst hsecond
  · rintro ⟨hpaths, ⟨hne, hne'⟩, hconfig, hhash, htimeout, hlevel, hflags, honce⟩
    refine ⟨fun slot => ?_, hflags, honce⟩
    cases slot with
    | dir1 => exact onlyValue_some_iff.2 ⟨a.dir1, by rw [Item.valuesOf, hpaths]; rfl, hne, rfl⟩
    | dir2 => exact onlyValue_some_iff.2 ⟨a.dir2, by rw [Item.valuesOf, hpaths]; rfl, hne', rfl⟩
    | config => exact hconfig
    | hash => exact hhash
    | timeout => exact htimeout
    | logLevel => exact hlevel

theorem toOption_parse : (parse words).toOption =
    (Progress.start.rest? words).bind fun g => (ofGiven g).toOption := by
  have hrest : ∀ (words : List Bytes) (p : Progress), p.rest? words =
      (words.foldlM Progress.step p).toOption.bind fun p => p.settle.toOption.map (·.given) := by
    intro words
    induction words with
    | nil => exact fun _ => rfl
    | cons w words ih =>
      intro p
      simp only [Progress.rest?, List.foldlM_cons, toOption_bind, ih, Option.bind_assoc]
  simp only [parse, hrest, toOption_bind, toOption_mapError, Option.bind_assoc, Option.bind_map]
  rfl

/-- Arguments are accepted just if they are what the words give. -/
theorem parse_eq_ok_iff : parse words = .ok a ↔ ∃ items, Reads words items ∧ a.AreSaidBy items := by
  rw [← toOption_eq_some_iff, toOption_parse, Option.bind_eq_some_iff]
  constructor
  · rintro ⟨g, hrest, hg⟩
    obtain ⟨items, hreads, hfold⟩ := (Progress.rest?_eq_some_iff words .nothing).1 hrest
    obtain rfl := toOption_ofGiven_iff.1 hg
    exact ⟨items, hreads, isSaidBy_given_iff.1 ((Given.foldlM_put_iff hreads.isNamed).1 hfold)⟩
  · rintro ⟨items, hreads, hsaid⟩
    refine ⟨a.given, (Progress.rest?_eq_some_iff words .nothing).2 ⟨items, hreads, ?_⟩,
      toOption_ofGiven_iff.2 rfl⟩
    exact (Given.foldlM_put_iff hreads.isNamed).2 (isSaidBy_given_iff.2 hsaid)

end Arguments

end TreeComparison

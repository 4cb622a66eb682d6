import TreeComparison.Proofs.Comparison
import TreeComparison.Proofs.Digits

/-!
What the values in a report show. The two values of an attribute are those of two entries of one
place, the first of the entry in A and the second of the entry in B, and they always differ: two
attributes that are not equal are not shown alike, though links and modes are compared as they are
and only then put into text.
-/

namespace TreeComparison

/-! ### Modes -/

/-- Octal digits spell the number that they were made of. -/
theorem Digits.read?_octal (n : Nat) : read? 8 (octal n).toList = some n := by
  rw [octal, String.toList_ofList]
  exact read?_toDigits (by decide) (by decide)

theorem Digits.octal_injective : Function.Injective octal := by
  intro m n heq
  have hread := read?_octal m
  rw [heq, read?_octal n] at hread
  exact (Option.some.inj hread).symm

theorem Digits.head?_octal {n : Nat} (h : 0 < n) : (octal n).toList.head? ≠ some '0' := by
  obtain ⟨d, ds, hds, -, hd⟩ := exists_toDigits_eq_cons (b := 8) (by decide) (by decide) n
  rw [octal, String.toList_ofList, hds, List.head?_cons]
  exact fun heq => hd h (Option.some.inj heq)

theorem Entry.typeBits_pos (e : Entry) : 0 < e.typeBits := by
  have h : ∀ t ∈ entryTypes, 0 < t := by decide
  exact h _ (typeBits_mem_entryTypes e)

namespace Store

variable {s : Store} {u : User} {h : HashAlgorithm} {a b d : DirectoryId} {ns : List Name}
  {x y : Entry} {q : Property} {v w v' w' : PropertyValue}

/-- No mode is zero, as each has a type. -/
theorem modeOf_pos : 0 < s.modeOf x :=
  Nat.lt_of_lt_of_le x.typeBits_pos Nat.left_le_or

/-! ### Values -/

/-- Whether an attribute of the entry `x`, to which the names `ns` lead from the directory `d`, is
shown as some value. -/
inductive Shows (s : Store) (u : User) (h : HashAlgorithm) (d : DirectoryId) (ns : List Name)
    (x : Entry) : Property → PropertyValue → Prop where
  /-- A mode is shown by octal digits that spell all of it and do not begin with a zero. -/
  | mode (text : String) (hread : Digits.read? 8 text.toList = some (s.modeOf x))
      (hzero : text.toList.head? ≠ some '0') : Shows s u h d ns x .mode (.text text)
  | uid : Shows s u h d ns x .uid (.id (s.attributes x).uid)
  | gid : Shows s u h d ns x .gid (.id (s.attributes x).gid)
  /-- A label is shown without padding. That of a root is looked up in the root. -/
  | label (hlabel : s.readsLabels u = true) (hread : ns = [] → s.searchable u d = true) :
      Shows s u h d ns x .selinux (.text (normalizeLabel (s.attributes x).label))
  /-- A label that cannot be read is shown as if there were none. -/
  | unreadable (hroot : ns = []) (hread : s.searchable u d = false) :
      Shows s u h d ns x .selinux (.text "")
  | symlink (p : Attributes) (target : Bytes) (hx : x = .symlink p target) :
      Shows s u h d ns x .symlink (.text (escape target))
  | content (p : Attributes) (content : Bytes) (hx : x = .file p content) :
      Shows s u h d ns x .content (.text (h.fingerprintOf content))

theorem shows_octal : s.Shows u h d ns x .mode (.text (Digits.octal (s.modeOf x))) :=
  .mode _ (Digits.read?_octal _) (Digits.head?_octal modeOf_pos)

theorem shows_rootLabel (hlabel : s.readsLabels u = true) :
    s.Shows u h d [] (.directory d) .selinux (.text (s.rootLabel u d)) := by
  rw [rootLabel, hlabel, Bool.true_and]
  split
  · rename_i hread
    exact .label hlabel fun _ => hread
  · rename_i hread
    exact .unreadable rfl (Bool.eq_false_iff.2 hread)

/-! ### Pairs of values -/

theorem unequal_eq_some_iff : unequal v w = some (v', w') ↔ v ≠ w ∧ v = v' ∧ w = w' := by
  by_cases hvw : v = w <;> simp [unequal, hvw]

/-- Two values are contrasted if each is that of its own entry, and they are not the same. -/
theorem shows_of_contrast (hlabel : q = .selinux → s.readsLabels u = true ∧ ns ≠ [])
    (hq : s.contrast h x y q = some (v, w)) :
    v ≠ w ∧ s.Shows u h a ns x q v ∧ s.Shows u h b ns y q w := by
  cases q with
  | selinux =>
    obtain ⟨hne, rfl, rfl⟩ := unequal_eq_some_iff.1 hq
    obtain ⟨hread, hbelow⟩ := hlabel rfl
    exact ⟨hne, .label hread fun hnil => absurd hnil hbelow,
      .label hread fun hnil => absurd hnil hbelow⟩
  | mode =>
    rw [contrast] at hq
    split at hq
    · cases hq
    · rename_i hne
      obtain ⟨rfl, rfl⟩ := Prod.mk.inj (Option.some.inj hq)
      refine ⟨fun heq => hne ?_, shows_octal, shows_octal⟩
      exact Digits.octal_injective (PropertyValue.text.inj heq)
  | uid =>
    rw [contrast] at hq
    split at hq
    · obtain ⟨hne, rfl, rfl⟩ := unequal_eq_some_iff.1 hq
      exact ⟨hne, .uid, .uid⟩
    · cases hq
  | gid =>
    rw [contrast] at hq
    split at hq
    · obtain ⟨hne, rfl, rfl⟩ := unequal_eq_some_iff.1 hq
      exact ⟨hne, .gid, .gid⟩
    · cases hq
  | symlink =>
    cases x <;> cases y <;> simp only [contrast, reduceCtorEq] at hq
    split at hq
    · rename_i hne
      obtain ⟨rfl, rfl⟩ := Prod.mk.inj (Option.some.inj hq)
      refine ⟨fun heq => hne.2 ?_, .symlink _ _ rfl, .symlink _ _ rfl⟩
      exact escape_injective (PropertyValue.text.inj heq)
    · cases hq
  | content =>
    cases x <;> cases y <;> simp only [contrast, reduceCtorEq] at hq
    split at hq
    · obtain ⟨hne, rfl, rfl⟩ := unequal_eq_some_iff.1 hq
      exact ⟨hne, .content _ _ rfl, .content _ _ rfl⟩
    · cases hq

/-- The roots are contrasted in their labels as they can be read, and otherwise as all entries. -/
theorem shows_of_rootContrast (hq : s.rootContrast u h a b q = some (v, w)) :
    v ≠ w ∧ s.Shows u h a [] (.directory a) q v ∧ s.Shows u h b [] (.directory b) q w := by
  by_cases hlabel : q = .selinux
  · subst hlabel
    have hread := readsLabels_of_rootContrast hq
    obtain ⟨hne, rfl, rfl⟩ := unequal_eq_some_iff.1 hq
    exact ⟨hne, shows_rootLabel hread, shows_rootLabel hread⟩
  · have hq : s.contrast h (.directory a) (.directory b) q = some (v, w) := by
      cases q with
      | selinux => contradiction
      | _ => exact hq
    exact shows_of_contrast (fun heq => absurd heq hlabel) hq

/-- Directories are not contrasted in what other entries hold. -/
theorem property_of_rootContrast (hq : s.rootContrast u h a b q = some (v, w)) :
    q = .mode ∨ q = .uid ∨ q = .gid ∨ q = .selinux := by
  cases q with
  | symlink => cases hq
  | content => cases hq
  | _ => simp

end Store

/-- Whether the differences that a report holds are real: whatever it says of an attribute of a path
are the values of this attribute of the two entries that the path stands for, and these are not the
same; no path is held without an attribute; and the two roots differ in nothing that only entries
below them can have. -/
structure Report.IsReal (r : Report) (s : Store) (u : User) (h : HashAlgorithm)
    (a b : DirectoryId) : Prop where
  difference : ∀ p q v w, r.difference? p q = some (v, w) → v ≠ w ∧
    ∃ ns x y, p = logicalPath ns ∧
      s.entryAt (.directory a) ns = some x ∧ s.entryAt (.directory b) ns = some y ∧
      s.Shows u h a ns x q v ∧ s.Shows u h b ns y q w
  property : ∀ p m, r.properties? p = some m → m.isEmpty = false
  root : ∀ q v w, r.difference? "/" q = some (v, w) →
    q = .mode ∨ q = .uid ∨ q = .gid ∨ q = .selinux

/-- Every difference that a comparison records is real. -/
theorem Store.isReal_diff (s : Store) (u : User) (o : Options) (a b : DirectoryId) :
    (s.diff u o a b ∅).IsReal s u o.hashAlgorithm a b where
  difference := by
    intro p q v w hq
    rcases differs_mem_compare (difference?_diff.1 hq) with
      ⟨rfl, hroot⟩ | ⟨ns, x, y, hne, rfl, hxy, hcontrast⟩
    · obtain ⟨hvw, hv, hw⟩ := shows_of_rootContrast hroot
      exact ⟨hvw, [], _, _, rfl, entryAt_nil, entryAt_nil, hv, hw⟩
    · have hlabel : q = .selinux → s.readsLabels u = true := by
        rintro rfl
        exact readsLabels_of_differs (difference?_diff.1 hq)
      obtain ⟨hvw, hv, hw⟩ := shows_of_contrast (fun heq => ⟨hlabel heq, hne⟩) hcontrast
      exact ⟨hvw, ns, x, y, rfl, hxy.1, hxy.2.1, hv, hw⟩
  property := by
    intro p m hm
    obtain ⟨q, vw, hvw⟩ := isMeaningful_diff p m hm
    have hq := SortedMap.mem_keys_iff.2 ⟨vw, hvw⟩
    cases hentries : m.entries with
    | nil =>
      rw [SortedMap.keys, hentries] at hq
      cases hq
    | cons e es => rw [SortedMap.isEmpty, hentries]; rfl
  root := by
    intro q v w hq
    rcases differs_mem_compare (difference?_diff.1 hq) with
      ⟨-, hroot⟩ | ⟨ns, x, y, hne, hp, -⟩
    · exact property_of_rootContrast hroot
    · exact absurd hp.symm (logicalPath_ne_root hne)

/-- A label that is missing is shown as an empty text, like one that cannot be read. -/
example : normalizeLabel [] = "" := rfl

end TreeComparison

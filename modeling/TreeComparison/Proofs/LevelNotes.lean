import TreeComparison.Proofs.WalkAtRest

/-!
Why something is noted down. Two entries of one path are contrasted attribute by attribute, and what
is noted down for two directories has one cause out of a few: `LevelNote` has one case for each. All
that is proved of a comparison goes through these cases, and down one level in the last of them.
-/

namespace TreeComparison.Store

variable {s : Store} {u : User} {h : HashAlgorithm} {k : Nat} {a b c d : DirectoryId} {n : Name}
  {x y : Entry} {path : String} {f : Finding}

/-! ### Contrasts -/

/-- Two values, if they differ. -/
def unequal (v w : PropertyValue) : Option (PropertyValue × PropertyValue) :=
  if v = w then none else some (v, w)

/-- The values of an attribute on both sides, if the two entries are compared in it and differ in
it. Entries of different modes are compared in nothing but mode and label. -/
def contrast (s : Store) (h : HashAlgorithm) (x y : Entry) :
    Property → Option (PropertyValue × PropertyValue)
  | .selinux => unequal (.text (s.labelOf x)) (.text (s.labelOf y))
  | .mode =>
    if s.modeOf x = s.modeOf y then none
    else some (.text (Digits.octal (s.modeOf x)), .text (Digits.octal (s.modeOf y)))
  | .uid =>
    if s.modeOf x = s.modeOf y then unequal (.id (s.attributes x).uid) (.id (s.attributes y).uid)
    else none
  | .gid =>
    if s.modeOf x = s.modeOf y then unequal (.id (s.attributes x).gid) (.id (s.attributes y).gid)
    else none
  | .symlink =>
    match x, y with
    | .symlink _ target, .symlink _ target' =>
      if s.modeOf x = s.modeOf y ∧ target ≠ target' then
        some (.text (escape target), .text (escape target'))
      else none
    | _, _ => none
  | .content =>
    match x, y with
    | .file _ content, .file _ content' =>
      if s.modeOf x = s.modeOf y then
        unequal (.text (h.fingerprintOf content)) (.text (h.fingerprintOf content'))
      else none
    | _, _ => none

/-- Whether the user may read what an entry holds. -/
def mayRead (s : Store) (u : User) (x : Entry) : Bool := u.may .read (s.attributes x)

theorem mem_differing_iff {property : Property} {v w : PropertyValue} :
    f ∈ differing path property v w
      ↔ ∃ v' w', unequal v w = some (v', w') ∧ f = .differs path property v' w' := by
  by_cases hvw : v = w <;> simp [differing, unequal, hvw]

theorem mem_metadataFindings_iff : f ∈ metadataFindings (s.snapshot x) (s.snapshot y) path ↔
    ∃ q v w, (q = .mode ∨ q = .uid ∨ q = .gid) ∧ s.contrast h x y q = some (v, w) ∧
      f = .differs path q v w := by
  by_cases hmode : s.modeOf x = s.modeOf y
  · have hm : (s.snapshot x).mode = (s.snapshot y).mode := hmode
    simp only [metadataFindings, hm, ne_eq, not_true_eq_false, if_false, List.mem_append,
      mem_differing_iff]
    constructor
    · rintro (⟨v, w, hvw, rfl⟩ | ⟨v, w, hvw, rfl⟩)
      · exact ⟨.uid, v, w, by simp, by rw [contrast, if_pos hmode]; exact hvw, rfl⟩
      · exact ⟨.gid, v, w, by simp, by rw [contrast, if_pos hmode]; exact hvw, rfl⟩
    · rintro ⟨q, v, w, rfl | rfl | rfl, hvw, rfl⟩
      · rw [contrast, if_pos hmode] at hvw
        cases hvw
      · rw [contrast, if_pos hmode] at hvw
        exact .inl ⟨v, w, hvw, rfl⟩
      · rw [contrast, if_pos hmode] at hvw
        exact .inr ⟨v, w, hvw, rfl⟩
  · have hm : (s.snapshot x).mode ≠ (s.snapshot y).mode := hmode
    rw [metadataFindings, if_pos hm, List.mem_singleton]
    constructor
    · rintro rfl
      exact ⟨.mode, _, _, .inl rfl, by rw [contrast, if_neg hmode]; rfl, rfl⟩
    · rintro ⟨q, v, w, rfl | rfl | rfl, hvw, rfl⟩
      · rw [contrast, if_neg hmode] at hvw
        obtain ⟨rfl, rfl⟩ := Prod.mk.inj (Option.some.inj hvw)
        rfl
      · rw [contrast, if_neg hmode] at hvw
        cases hvw
      · rw [contrast, if_neg hmode] at hvw
        cases hvw

/-! ### Two entries of one path -/

/-- Why something is noted down for two entries of one path. -/
inductive PairNote (s : Store) (u : User) (h : HashAlgorithm) (k : Nat) (x y : Entry)
    (path : String) : Finding → Prop where
  /-- The entries differ in an attribute. -/
  | differs (q : Property) (v w : PropertyValue) (hq : s.contrast h x y q = some (v, w))
      (hread : q = .content → s.mayRead u x = true ∧ s.mayRead u y = true)
      (hlabel : q = .selinux → s.readsLabels u = true) :
      PairNote s u h k x y path (.differs path q v w)
  /-- The user may read no labels. -/
  | unlabelled (hlabel : s.readsLabels u = false) :
      PairNote s u h k x y path (.unreadableLabel path denied)
  /-- What two entries of one mode hold cannot be read on both sides. -/
  | refused (operation : Operation) (hmode : s.modeOf x = s.modeOf y)
      (hread : ¬ (s.mayRead u x = true ∧ s.mayRead u y = true))
      (hkind : x.kind = .file ∧ operation = .openFile ∨
        x.kind = .directory ∧ operation = .openDirectory) :
      PairNote s u h k x y path (.skipped path operation denied)
  /-- The entries are directories, and the cause lies below them. -/
  | inside (c d : DirectoryId) (hx : x = .directory c) (hy : y = .directory d)
      (hmode : s.modeOf x = s.modeOf y) (hc : s.readable u c = true) (hd : s.readable u d = true)
      (f : Finding) (hf : f ∈ (Walk.level u h k c d path).findings s) : PairNote s u h k x y path f

theorem pairNote_of_mem_bodyNotes (hmode : s.modeOf x = s.modeOf y)
    (hf : f ∈ s.bodyNotes u h k path x y) : PairNote s u h k x y path f := by
  have hkind := kind_eq_of_mode_eq hmode
  cases x <;> cases y <;> simp only [Entry.kind, reduceCtorEq] at hkind
  case symlink p target q target' =>
    rw [bodyNotes] at hf
    split at hf
    · cases hf
    · rename_i hne
      rw [List.mem_singleton.1 hf]
      exact .differs .symlink _ _ (if_pos ⟨hmode, hne⟩) (by simp) (by simp)
  case file p content q content' =>
    rw [bodyNotes] at hf
    split at hf
    · rename_i hread
      obtain ⟨v, w, hvw, rfl⟩ := mem_differing_iff.1 hf
      exact .differs .content v w ((if_pos hmode).trans hvw)
        (fun _ => Bool.and_eq_true_iff.1 hread) (by simp)
    · rename_i hread
      rw [List.mem_singleton.1 hf]
      exact .refused .openFile hmode (fun hr => hread (Bool.and_eq_true_iff.2 hr))
        (.inl ⟨rfl, rfl⟩)
  case directory c d =>
    rw [bodyNotes] at hf
    split at hf
    · rename_i hread
      obtain ⟨hc, hd⟩ := Bool.and_eq_true_iff.1 hread
      exact .inside c d rfl rfl hmode hc hd f hf
    · rename_i hread
      rw [List.mem_singleton.1 hf]
      exact .refused .openDirectory hmode (fun hr => hread (Bool.and_eq_true_iff.2 hr))
        (.inr ⟨rfl, rfl⟩)
  case special => cases hf

theorem mem_bodyNotes_of_refused {operation : Operation} (hmode : s.modeOf x = s.modeOf y)
    (hread : ¬ (s.mayRead u x = true ∧ s.mayRead u y = true))
    (hkind : x.kind = .file ∧ operation = .openFile ∨
      x.kind = .directory ∧ operation = .openDirectory) :
    .skipped path operation denied ∈ s.bodyNotes u h k path x y := by
  have heq := kind_eq_of_mode_eq hmode
  rcases hkind with ⟨hx, rfl⟩ | ⟨hx, rfl⟩
  all_goals
    rw [← Bool.and_eq_true_iff] at hread
    cases x <;> cases y <;> simp only [Entry.kind, reduceCtorEq] at hx heq
    rw [bodyNotes]
    exact (if_neg hread).symm ▸ List.mem_singleton.2 rfl

theorem mem_labelNotes_iff : f ∈ s.labelNotes u x y path ↔
    s.readsLabels u = true ∧
        (∃ v w, s.contrast h x y .selinux = some (v, w) ∧ f = .differs path .selinux v w) ∨
      s.readsLabels u = false ∧ f = .unreadableLabel path denied := by
  cases hl : s.readsLabels u with
  | true => simp [labelNotes, hl, mem_differing_iff, contrast]
  | false => simp [labelNotes, hl]

/-- An attribute in which two entries differ is noted down, if what has to be read can be read. -/
theorem differs_mem_pairNotes {q : Property} {v w : PropertyValue}
    (hq : s.contrast h x y q = some (v, w))
    (hread : q = .content → s.mayRead u x = true ∧ s.mayRead u y = true)
    (hlabel : q = .selinux → s.readsLabels u = true) :
    .differs path q v w ∈ s.pairNotes u h k x y path := by
  rw [pairNotes, List.mem_append, List.mem_append, mem_labelNotes_iff (h := h),
    mem_metadataFindings_iff (h := h)]
  cases q with
  | selinux => exact .inl (.inl ⟨hlabel rfl, v, w, hq, rfl⟩)
  | mode => exact .inr (.inl ⟨.mode, v, w, by simp, hq, rfl⟩)
  | uid => exact .inr (.inl ⟨.uid, v, w, by simp, hq, rfl⟩)
  | gid => exact .inr (.inl ⟨.gid, v, w, by simp, hq, rfl⟩)
  | symlink =>
    refine .inr (.inr ?_)
    cases x <;> cases y <;> simp only [contrast, reduceCtorEq] at hq
    split at hq
    · rename_i hne
      obtain ⟨rfl, rfl⟩ := Prod.mk.inj (Option.some.inj hq)
      rw [if_pos hne.1, bodyNotes, if_neg hne.2]
      exact List.mem_singleton.2 rfl
    · cases hq
  | content =>
    refine .inr (.inr ?_)
    cases x <;> cases y <;> simp only [contrast, reduceCtorEq] at hq
    rename_i p content q content'
    have hboth : (u.may .read p && u.may .read q) = true := Bool.and_eq_true_iff.2 (hread rfl)
    split at hq
    · rename_i hmode
      rw [if_pos hmode, bodyNotes, if_pos hboth]
      exact mem_differing_iff.2 ⟨v, w, hq, rfl⟩
    · cases hq

theorem mem_pairNotes_of_mem_bodyNotes (hmode : s.modeOf x = s.modeOf y)
    (hf : f ∈ s.bodyNotes u h k path x y) : f ∈ s.pairNotes u h k x y path := by
  rw [pairNotes, if_pos hmode]
  exact List.mem_append_right _ (List.mem_append_right _ hf)

/-- The cases of `PairNote` are all that is noted down for two entries, and all of them are. -/
theorem mem_pairNotes_iff : f ∈ s.pairNotes u h k x y path ↔ PairNote s u h k x y path f := by
  constructor
  · intro hf
    rw [pairNotes, List.mem_append, List.mem_append, mem_labelNotes_iff (h := h),
      mem_metadataFindings_iff (h := h)] at hf
    rcases hf with (⟨hl, v, w, hvw, rfl⟩ | ⟨hl, rfl⟩) | ⟨q, v, w, hq, hvw, rfl⟩ | hf
    · exact .differs .selinux v w hvw (by simp) fun _ => hl
    · exact .unlabelled hl
    · exact .differs q v w hvw (by rintro rfl; simp at hq) (by rintro rfl; simp at hq)
    · split at hf
      · rename_i hmode
        exact pairNote_of_mem_bodyNotes hmode hf
      · cases hf
  · intro hnote
    cases hnote with
    | differs q v w hq hread hlabel => exact differs_mem_pairNotes hq hread hlabel
    | unlabelled hlabel =>
      exact List.mem_append_left _ ((mem_labelNotes_iff (h := h)).2 (.inr ⟨hlabel, rfl⟩))
    | refused operation hmode hread hkind =>
      exact mem_pairNotes_of_mem_bodyNotes hmode (mem_bodyNotes_of_refused hmode hread hkind)
    | inside c d hx hy hmode hc hd f hf =>
      subst hx hy
      refine mem_pairNotes_of_mem_bodyNotes hmode ?_
      rw [bodyNotes, if_pos (Bool.and_eq_true_iff.2 ⟨hc, hd⟩)]
      exact hf

/-! ### Two directories -/

/-- Why something is noted down for two directories of one path. -/
inductive LevelNote (s : Store) (u : User) (h : HashAlgorithm) (k : Nat) (a b : DirectoryId)
    (path : String) : Finding → Prop where
  /-- A cannot be listed. -/
  | unlisted (ha : s.listable u a = false) :
      LevelNote s u h k a b path (.skipped path .readDir denied)
  /-- A has an entry. -/
  | visited (ha : s.listable u a = true) (n : Name) (x : Entry) (hx : s.child a n = some x) :
      LevelNote s u h k a b path (.visiting (joinPath path n.bytes))
  /-- A has an entry, and nothing can be looked up in B. -/
  | unmatched (ha : s.listable u a = true) (hb : s.searchable u b = false) (n : Name) (x : Entry)
      (hx : s.child a n = some x) :
      LevelNote s u h k a b path (.skipped (joinPath path n.bytes) .stat denied)
  /-- A has an entry that B does not have. -/
  | deleted (ha : s.listable u a = true) (hb : s.searchable u b = true) (n : Name) (x : Entry)
      (hx : s.child a n = some x) (hy : s.child b n = none) (f : Finding)
      (hf : f ∈ s.oneSidedNotes u k .deleted x (joinPath path n.bytes)) :
      LevelNote s u h k a b path f
  /-- Both have an entry. -/
  | both (ha : s.listable u a = true) (hb : s.searchable u b = true) (n : Name) (x y : Entry)
      (hx : s.child a n = some x) (hy : s.child b n = some y) (f : Finding)
      (hf : PairNote s u h k x y (joinPath path n.bytes) f) : LevelNote s u h k a b path f
  /-- B cannot be listed. -/
  | unswept (ha : s.listable u a = true) (hb : s.listable u b = false) :
      LevelNote s u h k a b path (.skipped path .readDir denied)
  /-- B has an entry that A does not have. -/
  | added (ha : s.listable u a = true) (hb : s.listable u b = true) (n : Name) (y : Entry)
      (hx : s.child a n = none) (hy : s.child b n = some y) (f : Finding)
      (hf : f ∈ s.oneSidedNotes u k .added y (joinPath path n.bytes)) :
      LevelNote s u h k a b path f

theorem levelNote_of_mem_visitNotes (ha : s.listable u a = true) (hx : s.child a n = some x)
    (hf : f ∈ s.visitNotes u h k b n x (joinPath path n.bytes)) : LevelNote s u h k a b path f := by
  rcases List.mem_cons.1 hf with rfl | hf
  · exact .visited ha n x hx
  · split at hf
    · rename_i hb
      split at hf
      · rename_i hy
        exact .deleted ha hb n x hx hy f hf
      · rename_i y hy
        exact .both ha hb n x y hx hy f (mem_pairNotes_iff.1 hf)
    · rename_i hb
      rw [List.mem_singleton.1 hf]
      exact .unmatched ha (Bool.eq_false_iff.2 hb) n x hx

theorem levelNote_of_mem_sweepNotes (ha : s.listable u a = true)
    (hf : f ∈ s.sweepNotes u k a b path) : LevelNote s u h k a b path f := by
  rw [sweepNotes] at hf
  split at hf
  · rename_i hb
    obtain ⟨e, he, hf⟩ := List.mem_flatMap.1 hf
    obtain ⟨hmem, hx⟩ := List.mem_filter.1 he
    exact .added ha hb e.1 e.2 (Option.isNone_iff_eq_none.1 hx) (child_of_mem_entries hmem) f hf
  · rename_i hb
    rw [List.mem_singleton.1 hf]
    exact .unswept ha (Bool.eq_false_iff.2 hb)

/-- The cases of `LevelNote` are all that is noted down, and all of them are. -/
theorem mem_level_iff : f ∈ (Walk.level u h (k + 1) a b path).findings s
    ↔ LevelNote s u h k a b path f := by
  cases ha : s.listable u a with
  | false =>
    rw [findings_level_of_not_listable ha, List.mem_singleton]
    constructor
    · rintro rfl
      exact .unlisted ha
    · intro hnote
      cases hnote <;> first | rfl | simp_all
  | true =>
    have visit : ∀ {n x g}, s.child a n = some x →
        g ∈ s.visitNotes u h k b n x (joinPath path n.bytes) →
        g ∈ (s.entries a).flatMap fun e => s.visitNotes u h k b e.1 e.2 (joinPath path e.1.bytes) :=
      fun hx hg => List.mem_flatMap.2 ⟨_, mem_entries_of_child hx, hg⟩
    rw [findings_level_of_listable ha, List.mem_append]
    constructor
    · rintro (hf | hf)
      · obtain ⟨e, he, hf⟩ := List.mem_flatMap.1 hf
        exact levelNote_of_mem_visitNotes ha (child_of_mem_entries he) hf
      · exact levelNote_of_mem_sweepNotes ha hf
    · intro hnote
      cases hnote with
      | unlisted hna => rw [ha] at hna; cases hna
      | visited _ n x hx => exact .inl (visit hx List.mem_cons_self)
      | unmatched _ hb n x hx => exact .inl (visit hx (by simp [visitNotes, hb]))
      | deleted _ hb n x hx hy f hf => exact .inl (visit hx (by simp [visitNotes, hb, hy, hf]))
      | both _ hb n x y hx hy f hf =>
        exact .inl (visit hx (by simp [visitNotes, hb, hy, mem_pairNotes_iff.2 hf]))
      | unswept _ hb => exact .inr (by simp [sweepNotes, hb])
      | added _ hb n y hx hy f hf =>
        refine .inr ?_
        rw [sweepNotes, if_pos hb]
        have hmem : (n, y) ∈ (s.entries b).filter fun e => (s.child a e.1).isNone :=
          List.mem_filter.2 ⟨mem_entries_of_child hy, by simp [hx]⟩
        exact List.mem_flatMap.2 ⟨_, hmem, hf⟩

end TreeComparison.Store

import TreeComparison.Proofs.OneSided

/-!
Where findings come from. Each has the logical path of a place, and what it says is true of that
place in the two trees: an entry is recorded for one side only if it stands below two compared
directories of which the other does not have it, and a difference is one between two compared
entries. For a strict report there is a converse: what is noted down for a place, or on the way to
it, covers all that can be said of the place.
-/

namespace TreeComparison.Store

variable {s : Store} {u : User} {h : HashAlgorithm} {k : Nat} {a b c d : DirectoryId} {n : Name}
  {ns : List Name} {x y : Entry} {path path' : String} {f : Finding}

/-! ### Nothing is invented -/

/-- Whether a finding is true of the place that some names lead to. -/
def Justified (s : Store) (h : HashAlgorithm) (a b : DirectoryId) (ns : List Name) : Finding → Prop
  | .only .deleted _ => s.LoneAt a b ns
  | .only .added _ => s.LoneAt b a ns
  | .differs _ q v w => ∃ x y, s.ComparedAt a b ns x y ∧ s.contrast h x y q = some (v, w)
  | .skipped _ _ fault => fault = denied
  | _ => True

/-- What is noted down below two compared directories of one name is true seen from above. -/
theorem Justified.cons (hc : s.child a n = some (.directory c))
    (hd : s.child b n = some (.directory d))
    (hmode : s.modeOf (.directory c) = s.modeOf (.directory d))
    (hroot : ns = [] → f = .skipped path .readDir denied) (hf : s.Justified h c d ns f) :
    s.Justified h a b (n :: ns) f := by
  cases f with
  | only side q =>
    cases side with
    | deleted => exact LoneAt.cons hc hd hmode hf
    | added => exact LoneAt.cons hd hc hmode.symm hf
  | differs q property v w =>
    obtain ⟨x, y, hxy, hdiff⟩ := hf
    have hne : ns ≠ [] := fun hnil => nomatch hroot hnil
    exact ⟨x, y, hxy.cons hc hd hmode hne, hdiff⟩
  | skipped q operation fault => exact hf
  | _ => trivial

theorem justified_of_mem_notesUnder (hf : f ∈ s.notesUnder u k x path) :
    ∃ ns, f.path = pathBelow path ns ∧ ∀ ms, s.Justified h a b ms f := by
  obtain ⟨ns, ⟨-, rfl⟩ | ⟨operation, rfl⟩⟩ := exists_of_mem_notesUnder hf
  · exact ⟨ns, rfl, fun _ => trivial⟩
  · exact ⟨ns, rfl, fun _ => rfl⟩

/-- Each finding of a level has the path of a place, of which it is true. Of the level itself only
the refusal to list it is noted down. -/
theorem justified_of_mem_level (hf : f ∈ (Walk.level u h k a b path).findings s) :
    ∃ ns, f.path = pathBelow path ns ∧ (ns = [] → f = .skipped path .readDir denied) ∧
      s.Justified h a b ns f := by
  induction k generalizing a b path with
  | zero => cases hf
  | succ k ih =>
    have below : ∀ {n : Name} {ms : List Name} {g : Finding},
        n :: ms = [] → g = .skipped path .readDir denied := fun hnil => nomatch hnil
    cases mem_level_iff.1 hf with
    | unlisted ha => exact ⟨[], rfl, fun _ => rfl, rfl⟩
    | visited ha n x hx => exact ⟨[n], rfl, below, trivial⟩
    | unmatched ha hb n x hx => exact ⟨[n], rfl, below, rfl⟩
    | deleted ha hb n x hx hy _ hf =>
      rcases mem_oneSidedNotes_iff.1 hf with rfl | hf | ⟨q, hq, rfl⟩
      · exact ⟨[n], rfl, below, trivial⟩
      · obtain ⟨ms, hpath, htrue⟩ := justified_of_mem_notesUnder hf
        exact ⟨n :: ms, hpath, below, htrue _⟩
      · obtain ⟨ms, z, hz, rfl⟩ := exists_of_mem_cons_pathsUnder hq
        exact ⟨n :: ms, rfl, below, loneAt_of_child hx hy hz⟩
    | both ha hb n x y hx hy _ hf =>
      cases hf with
      | differs q v w hq hread hlabel =>
        exact ⟨[n], rfl, below, x, y, comparedAt_of_child hx hy, hq⟩
      | unlabelled hlabel => exact ⟨[n], rfl, below, trivial⟩
      | refused operation hmode hread hkind => exact ⟨[n], rfl, below, rfl⟩
      | inside c d hxc hyd hmode hc hd _ hf =>
        subst hxc hyd
        obtain ⟨ms, hpath, hroot, htrue⟩ := ih hf
        exact ⟨n :: ms, hpath, below, htrue.cons hx hy hmode hroot⟩
    | unswept ha hb => exact ⟨[], rfl, fun _ => rfl, rfl⟩
    | added ha hb n y hx hy _ hf =>
      rcases mem_oneSidedNotes_iff.1 hf with rfl | hf | ⟨q, hq, rfl⟩
      · exact ⟨[n], rfl, below, trivial⟩
      · obtain ⟨ms, hpath, htrue⟩ := justified_of_mem_notesUnder hf
        exact ⟨n :: ms, hpath, below, htrue _⟩
      · obtain ⟨ms, z, hz, rfl⟩ := exists_of_mem_cons_pathsUnder hq
        exact ⟨n :: ms, rfl, below, loneAt_of_child hy hx hz⟩

/-- Labels are found to differ only by a user who may read labels. -/
theorem readsLabels_of_mem_level {v w : PropertyValue}
    (hf : .differs path' .selinux v w ∈ (Walk.level u h k a b path).findings s) :
    s.readsLabels u = true := by
  induction k generalizing a b path with
  | zero => cases hf
  | succ k ih =>
    cases mem_level_iff.1 hf with
    | deleted ha hb n x hx hy _ hf => exact absurd hf differs_not_mem_oneSidedNotes
    | both ha hb n x y hx hy _ hf =>
      cases hf with
      | differs q v w hq hread hlabel => exact hlabel rfl
      | inside c d hxc hyd hmode hc hd _ hf => exact ih hf
    | added ha hb n y hx hy _ hf => exact absurd hf differs_not_mem_oneSidedNotes

/-- At rest an operation is refused for want of leave only. -/
theorem fault_eq_denied {operation : Operation} {fault : Fault}
    (hf : .skipped path operation fault ∈ (Walk.level u h k a b path').findings s) :
    fault = denied := by
  obtain ⟨ns, -, -, hfault⟩ := justified_of_mem_level hf
  exact hfault

/-! ### Nothing is lost -/

/-- What the findings of a comparison say of the place that some names lead to, when an entry is
there on one side at least. -/
inductive Covered (s : Store) (u : User) (h : HashAlgorithm) (a b : DirectoryId) (path : String)
    (ns : List Name) (fs : List Finding) : Prop where
  /-- The first tree alone has it, and it is recorded as deleted. -/
  | deleted (hb : s.entryAt (.directory b) ns = none)
      (hf : .only .deleted (pathBelow path ns) ∈ fs) : Covered s u h a b path ns fs
  /-- The second tree alone has it, and it is recorded as added. -/
  | added (ha : s.entryAt (.directory a) ns = none)
      (hf : .only .added (pathBelow path ns) ∈ fs) : Covered s u h a b path ns fs
  /-- Both trees have it, and all that differs is recorded; labels that cannot be read are alike. -/
  | compared (x y : Entry) (hx : s.entryAt (.directory a) ns = some x)
      (hy : s.entryAt (.directory b) ns = some y)
      (hf : ∀ q v w, s.contrast h x y q = some (v, w) →
        (q = .selinux → s.readsLabels u = true) → .differs (pathBelow path ns) q v w ∈ fs) :
      Covered s u h a b path ns fs
  /-- An operation was refused there or on the way. -/
  | refused (m : List Name) (operation : Operation) (hm : m <+: ns)
      (hf : .skipped (pathBelow path m) operation denied ∈ fs) : Covered s u h a b path ns fs
  /-- On the way two entries differ in mode, and nothing below them was looked at. -/
  | gated (m : List Name) (v w : PropertyValue) (hm : m ≠ []) (hway : m <+: ns) (hne : m ≠ ns)
      (hf : .differs (pathBelow path m) .mode v w ∈ fs) : Covered s u h a b path ns fs

theorem Covered.mono {fs gs : List Finding} (hcover : s.Covered u h a b path ns fs)
    (hsub : ∀ f ∈ fs, f ∈ gs) : s.Covered u h a b path ns gs := by
  cases hcover with
  | deleted hb hf => exact .deleted hb (hsub _ hf)
  | added ha hf => exact .added ha (hsub _ hf)
  | compared x y hx hy hf =>
    exact .compared x y hx hy fun q v w hq hlabel => hsub _ (hf q v w hq hlabel)
  | refused m operation hm hf => exact .refused m operation hm (hsub _ hf)
  | gated m v w hm hway hne hf => exact .gated m v w hm hway hne (hsub _ hf)

/-- What is said of a place below two directories of one name is said of it seen from above. -/
theorem Covered.cons {fs : List Finding} (hc : s.child a n = some (.directory c))
    (hd : s.child b n = some (.directory d))
    (hcover : s.Covered u h c d (joinPath path n.bytes) ns fs) :
    s.Covered u h a b path (n :: ns) fs := by
  cases hcover with
  | deleted hb hf => exact .deleted (by simpa [hd] using hb) hf
  | added ha hf => exact .added (by simpa [hc] using ha) hf
  | compared x y hx hy hf =>
    exact .compared x y (by simpa [hc] using hx) (by simpa [hd] using hy) hf
  | refused m operation hm hf =>
    exact .refused (n :: m) operation (List.cons_prefix_cons.2 ⟨rfl, hm⟩) hf
  | gated m v w hm hway hne hf =>
    exact .gated (n :: m) v w (List.cons_ne_nil n m) (List.cons_prefix_cons.2 ⟨rfl, hway⟩)
      (fun heq => hne (List.cons.inj heq).2) hf

/-- What one side alone has is recorded for it, or there is a refusal on the way. -/
theorem recorded_or_refused {side : Side} (hz : s.entryAt x ns = some y) (hlen : ns.length ≤ k) :
    .only side (pathBelow path ns) ∈ s.oneSidedNotes u k side x path ∨
      ∃ m operation, m <+: ns ∧
        .skipped (pathBelow path m) operation denied ∈ s.oneSidedNotes u k side x path := by
  rcases mem_pathsUnder_or_refused hz hlen with hq | ⟨m, operation, hm, hf⟩
  · exact .inl (mem_oneSidedNotes_iff.2 (.inr (.inr ⟨_, hq, rfl⟩)))
  · exact .inr ⟨m, operation, hm, mem_oneSidedNotes_iff.2 (.inr (.inl hf))⟩

/-- Two entries of one path are compared in all that they hold, or what they hold is refused. -/
theorem contrasts_mem_or_refused (path : String) :
    (∀ q v w, s.contrast h x y q = some (v, w) → (q = .selinux → s.readsLabels u = true) →
        PairNote s u h k x y path (.differs path q v w)) ∨
      PairNote s u h k x y path (.skipped path .openFile denied) := by
  by_cases hread : s.mayRead u x = true ∧ s.mayRead u y = true
  · exact .inl fun q v w hq => .differs q v w hq fun _ => hread
  · cases hcontent : s.contrast h x y .content with
    | none =>
      refine .inl fun q v w hq => .differs q v w hq ?_
      rintro rfl
      rw [hcontent] at hq
      cases hq
    | some vw =>
      refine .inr (.refused .openFile ?_ hread (.inl ⟨?_, rfl⟩))
      all_goals cases x <;> cases y <;> simp only [contrast, reduceCtorEq] at hcontent
      · by_contra hmode
        cases (if_neg hmode).symm.trans hcontent
      · rfl

/-- Below two entries of one path something is said of each place, provided that something is said
of each place below two directories that are both opened. -/
theorem covered_of_both {fs : List Finding} (hx : s.child a n = some x) (hy : s.child b n = some y)
    (hsub : ∀ f, PairNote s u h k x y (joinPath path n.bytes) f → f ∈ fs)
    (hinside : ∀ c d, x = .directory c → y = .directory d → s.readable u c = true →
      s.readable u d = true → ns ≠ [] → s.Covered u h c d (joinPath path n.bytes) ns
        ((Walk.level u h k c d (joinPath path n.bytes)).findings s))
    (hz : (s.entryAt x ns).isSome = true ∨ (s.entryAt y ns).isSome = true) :
    s.Covered u h a b path (n :: ns) fs := by
  cases ns with
  | nil =>
    rcases contrasts_mem_or_refused (s := s) (u := u) (h := h) (k := k) (x := x) (y := y)
      (joinPath path n.bytes) with hall | hrefused
    · exact .compared x y (by simp [hx]) (by simp [hy])
        fun q v w hq hlabel => hsub _ (hall q v w hq hlabel)
    · exact .refused [n] .openFile List.prefix_rfl (hsub _ hrefused)
  | cons m ns =>
    have hbelow : m :: ns ≠ [] := List.cons_ne_nil m ns
    by_cases hmode : s.modeOf x = s.modeOf y
    · have hkind := kind_eq_of_mode_eq hmode
      have hdir : x.kind = .directory := by
        rcases hz with hz | hz <;> obtain ⟨z, hz⟩ := Option.isSome_iff_exists.1 hz <;>
          obtain ⟨c, -, rfl, -⟩ := exists_directory_of_entryAt_cons hz
        · rfl
        · exact hkind
      by_cases hread : s.mayRead u x = true ∧ s.mayRead u y = true
      · cases x <;> cases y <;> simp only [Entry.kind, reduceCtorEq] at hdir hkind
        rename_i c d
        refine ((hinside c d rfl rfl hread.1 hread.2 hbelow).cons hx hy).mono fun f hf => hsub f ?_
        exact .inside c d rfl rfl hmode hread.1 hread.2 f hf
      · exact .refused [n] .openDirectory (List.prefix_append [n] _)
          (hsub _ (.refused .openDirectory hmode hread (.inr ⟨hdir, rfl⟩)))
    · exact .gated [n] _ _ (List.cons_ne_nil n []) (List.prefix_append [n] _) (by simp)
        (hsub _ (.differs .mode _ _ (if_neg hmode) (by simp) (by simp)))

section OneSide

variable {fs : List Finding} (hlen : ns.length ≤ k)
include hlen

/-- Something is said of each place below an entry whose name the second tree does not have. -/
theorem covered_of_deleted (hy : s.child b n = none)
    (hz : (s.entryAt x ns).isSome = true)
    (hsub : ∀ f ∈ s.oneSidedNotes u k .deleted x (joinPath path n.bytes), f ∈ fs) :
    s.Covered u h a b path (n :: ns) fs := by
  obtain ⟨z, hz⟩ := Option.isSome_iff_exists.1 hz
  rcases recorded_or_refused hz hlen with hf | ⟨m, operation, hm, hf⟩
  · exact .deleted (by simp [hy]) (hsub _ hf)
  · exact .refused (n :: m) operation (List.cons_prefix_cons.2 ⟨rfl, hm⟩) (hsub _ hf)

/-- Something is said of each place below an entry whose name the first tree does not have. -/
theorem covered_of_added (hx : s.child a n = none)
    (hz : (s.entryAt y ns).isSome = true)
    (hsub : ∀ f ∈ s.oneSidedNotes u k .added y (joinPath path n.bytes), f ∈ fs) :
    s.Covered u h a b path (n :: ns) fs := by
  obtain ⟨z, hz⟩ := Option.isSome_iff_exists.1 hz
  rcases recorded_or_refused hz hlen with hf | ⟨m, operation, hm, hf⟩
  · exact .added (by simp [hx]) (hsub _ hf)
  · exact .refused (n :: m) operation (List.cons_prefix_cons.2 ⟨rfl, hm⟩) (hsub _ hf)

end OneSide

/-- A comparison that goes down far enough says something of each place below its two
directories. -/
theorem covered_of_level (hne : ns ≠ []) (hlen : ns.length ≤ k)
    (hz : (s.entryAt (.directory a) ns).isSome = true ∨
      (s.entryAt (.directory b) ns).isSome = true) :
    s.Covered u h a b path ns ((Walk.level u h k a b path).findings s) := by
  induction k generalizing a b path ns with
  | zero => exact absurd (List.length_eq_zero_iff.1 (Nat.le_zero.1 hlen)) hne
  | succ k ih =>
    -- the first name decides; where both have a directory by it, the others are below another level
    obtain ⟨n, ns, rfl⟩ := List.exists_cons_of_ne_nil hne
    have hlen := Nat.le_of_succ_le_succ hlen
    rw [entryAt_cons, entryAt_cons] at hz
    cases ha : s.listable u a with
    | false => exact .refused [] .readDir List.nil_prefix (mem_level_iff.2 (.unlisted ha))
    | true =>
      cases hx : s.child a n with
      | some x =>
        cases hb : s.searchable u b with
        | false =>
          exact .refused [n] .stat (List.prefix_append [n] ns)
            (mem_level_iff.2 (.unmatched ha hb n x hx))
        | true =>
          cases hy : s.child b n with
          | none =>
            have hsub : ∀ f ∈ s.oneSidedNotes u k .deleted x (joinPath path n.bytes),
                f ∈ (Walk.level u h (k + 1) a b path).findings s :=
              fun f hf => mem_level_iff.2 (.deleted ha hb n x hx hy f hf)
            exact covered_of_deleted hlen hy (by simpa [hx, hy] using hz) hsub
          | some y =>
            have hsub : ∀ f, PairNote s u h k x y (joinPath path n.bytes) f →
                f ∈ (Walk.level u h (k + 1) a b path).findings s :=
              fun f hf => mem_level_iff.2 (.both ha hb n x y hx hy f hf)
            refine covered_of_both hx hy hsub (fun c d hc hd _ _ hbelow => ?_)
              (by simpa [hx, hy] using hz)
            refine ih hbelow hlen ?_
            simpa [hx, hy, hc, hd] using hz
      | none =>
        cases hb : s.listable u b with
        | false => exact .refused [] .readDir List.nil_prefix (mem_level_iff.2 (.unswept ha hb))
        | true =>
          rw [hx] at hz
          obtain ⟨z, hz⟩ := Option.isSome_iff_exists.1 (hz.resolve_left (by simp))
          obtain ⟨y, hy, hz⟩ := Option.bind_eq_some_iff.1 hz
          have hsub : ∀ f ∈ s.oneSidedNotes u k .added y (joinPath path n.bytes),
              f ∈ (Walk.level u h (k + 1) a b path).findings s :=
            fun f hf => mem_level_iff.2 (.added ha hb n y hx hy f hf)
          exact covered_of_added hlen hx (Option.isSome_iff_exists.2 ⟨z, hz⟩) hsub

end TreeComparison.Store

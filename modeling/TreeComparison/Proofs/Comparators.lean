import TreeComparison.Proofs.LevelNotes
import TreeComparison.Proofs.Recording

/-!
What one comparison of two entries leaves in a report. It writes pairs of values for attributes of
its own path and for nothing else, and appends errors. A content or a target is read on each side
apart: if both are read, the two are the same and nothing is written, or they differ and one pair
is; if a side fails, no pair is written, and the failure of the earlier stage, or else of the side
A, is the one error of a strict report. Looks and labels are compared without errors.
-/

namespace TreeComparison

/-! ### Writing into a report -/

/-- The pairs of values that are written for the attributes of a path. -/
abbrev Pairs := Property → Option (PropertyValue × PropertyValue)

/-- No pairs. -/
def Pairs.none : Pairs := fun _ => .none

/-- At most one pair, for one attribute. -/
def Pairs.only (property : Property) (pair : Option (PropertyValue × PropertyValue)) : Pairs :=
  fun q => if q = property then pair else .none

theorem Pairs.only_none {property : Property} : Pairs.only property .none = .none := by
  funext q
  rw [Pairs.only, Pairs.none, ite_self]

namespace Report

variable {r r' r'' : Report} {path : String} {pairs pairs' : Pairs} {errors errors' : List Skip}
  {property : Property} {v w : PropertyValue}

/-- Whether a report comes of an earlier one by writing pairs for attributes of one path and
appending errors: all other attributes, all other paths and the two lists of paths are as they were.
-/
structure Writes (r r' : Report) (path : String) (pairs : Pairs) (errors : List Skip) : Prop where
  added : r'.added = r.added
  deleted : r'.deleted = r.deleted
  errors : r'.errors = r.errors ++ errors
  elsewhere : ∀ p, p ≠ path → r'.properties? p = r.properties? p
  here : ∀ q, r'.difference? path q = (pairs q).or (r.difference? path q)
  untouched : pairs = Pairs.none → r'.differences = r.differences

theorem writes_self : r.Writes r path .none [] where
  added := rfl
  deleted := rfl
  errors := (List.append_nil _).symm
  elsewhere := fun _ _ => rfl
  here := fun _ => rfl
  untouched := fun _ => rfl

theorem Writes.trans (h : r.Writes r' path pairs errors) (h' : r'.Writes r'' path pairs' errors') :
    r.Writes r'' path (fun q => (pairs' q).or (pairs q)) (errors ++ errors') where
  added := h'.added.trans h.added
  deleted := h'.deleted.trans h.deleted
  errors := by rw [h'.errors, h.errors, List.append_assoc]
  elsewhere := fun p hp => (h'.elsewhere p hp).trans (h.elsewhere p hp)
  here := fun q => by rw [h'.here, h.here, Option.or_assoc]
  untouched := by
    intro hnone
    have hboth : ∀ q, pairs' q = .none ∧ pairs q = .none := fun q =>
      Option.or_eq_none_iff.1 (congrFun hnone q)
    exact (h'.untouched (funext fun q => (hboth q).1)).trans
      (h.untouched (funext fun q => (hboth q).2))

theorem writes_recordDifference :
    r.Writes (r.recordDifference path property v w) path (.only property (some (v, w))) [] where
  added := rfl
  deleted := rfl
  errors := (List.append_nil _).symm
  elsewhere := fun p hp => SortedMap.get?_insert_of_ne hp
  here := by
    intro q
    rw [difference?_recordDifference, Pairs.only]
    by_cases hq : q = property <;> simp [hq]
  untouched := by
    intro hnone
    have hpair := congrFun hnone property
    rw [Pairs.only, if_pos rfl] at hpair
    cases hpair

theorem writes_recordSkipped {operation : Operation} {fault : Fault} :
    r.Writes (r.recordSkipped path operation fault) path .none
      [⟨path, operation, fault.message⟩] where
  added := rfl
  deleted := rfl
  errors := rfl
  elsewhere := fun _ _ => rfl
  here := fun _ => rfl
  untouched := fun _ => rfl

theorem writes_note_skipped {strict : Bool} {operation : Operation} {fault : Fault} :
    r.Writes (r.note strict (.skipped path operation fault)) path .none
      (if strict then [⟨path, operation, fault.message⟩] else []) := by
  cases strict with
  | true => exact writes_recordSkipped
  | false => exact writes_self

theorem writes_differing {strict : Bool} :
    r.Writes (r.noteAll strict (differing path property v w)) path
      (.only property (Store.unequal v w)) [] := by
  by_cases hvw : v = w
  · rw [differing, if_pos hvw, Store.unequal, if_pos hvw, Pairs.only_none]
    exact writes_self
  · rw [differing, if_neg hvw, Store.unequal, if_neg hvw]
    exact writes_recordDifference

end Report

/-! ### Looks and labels -/

/-- The attributes in which two looks differ, with their values: the mode alone if the modes differ,
and else the owners. -/
def Snapshot.pairs (x y : Snapshot) : Pairs
  | .mode => if x.mode = y.mode then .none else some (.text x.modeOctal, .text y.modeOctal)
  | .uid => if x.mode = y.mode then Store.unequal (.id x.uid) (.id y.uid) else .none
  | .gid => if x.mode = y.mode then Store.unequal (.id x.gid) (.id y.gid) else .none
  | _ => .none

namespace Report

variable {r : Report} {path : String} {strict : Bool}

theorem writes_metadataFindings {x y : Snapshot} :
    r.Writes (r.noteAll strict (metadataFindings x y path)) path (x.pairs y) [] := by
  by_cases hmode : x.mode = y.mode
  · have hpairs : x.pairs y = fun q =>
        (Pairs.only .gid (Store.unequal (.id x.gid) (.id y.gid)) q).or
          (Pairs.only .uid (Store.unequal (.id x.uid) (.id y.uid)) q) := by
      funext q
      cases q <;> simp [Snapshot.pairs, Pairs.only, hmode]
    rw [metadataFindings, if_neg (not_not_intro hmode), hpairs, noteAll, List.foldl_append]
    exact writes_differing.trans writes_differing
  · have hpairs : x.pairs y =
        .only .mode (some (.text x.modeOctal, .text y.modeOctal)) := by
      funext q
      cases q <;> simp [Snapshot.pairs, Pairs.only, hmode]
    rw [metadataFindings, if_pos hmode, hpairs]
    exact writes_recordDifference

end Report

namespace Store

variable {s : Store} {u : User} {h : HashAlgorithm} {a b : DirectoryId} {name : Bytes}
  {path : String} {r : Report} {strict : Bool}

/-- A label as it is compared: empty if it cannot be read. -/
def labelOrEmpty (s : Store) (u : User) (d : DirectoryId) (name : Option Bytes) : String :=
  (s.securityLabel u d name).toOption.getD ""

theorem noteAll_labelOr (x : Except Fault String) :
    r.noteAll strict ((Walk.labelOr path x).findings s) = r := by
  cases x <;> rfl

theorem value_labelOr (x : Except Fault String) :
    (Walk.labelOr path x).value s = x.toOption.getD "" := by
  cases x <;> rfl

theorem writes_compareSecurityLabel {name : Option Bytes} :
    r.Writes (r.noteAll strict ((Walk.compareSecurityLabel u a b name path).findings s)) path
      (.only .selinux (unequal (.text (s.labelOrEmpty u a name)) (.text (s.labelOrEmpty u b name))))
      [] := by
  have hread : ∀ d, (((Walk.readLabel u d name).value s).toOption.getD "") =
      s.labelOrEmpty u d name := by
    intro d
    rw [Walk.readLabel, Walk.value_ask, labelOrEmpty]
    cases s.securityLabel u d name <;> rfl
  have hnotes : ∀ d, (Walk.readLabel u d name).findings s = [] := fun _ => rfl
  simp only [Walk.compareSecurityLabel, Walk.compareLabels, Walk.bind_eq, Walk.findings_andThen,
    Walk.findings_foundAll, value_labelOr, hread, hnotes, List.nil_append, Report.noteAll,
    List.foldl_append]
  -- notes on unreadable labels write nothing
  rw [← Report.noteAll, ← Report.noteAll, ← Report.noteAll, noteAll_labelOr, noteAll_labelOr]
  exact Report.writes_differing

end Store

/-! ### What is read on each side -/

/-- An operation that failed, and why. -/
structure Failure where
  operation : Operation
  fault : Fault

/-- Whether a failure belongs to an earlier stage than another one: a file is opened before its
content is read. -/
def Failure.IsBefore (f g : Failure) : Prop := f.operation = .openFile ∧ g.operation = .hash

/-- Whether a failure is the one that counts of those of two sides: none is at an earlier stage, and
if both are at one stage it is that of A. -/
inductive Counts {α : Type} (x y : Except Failure α) : Failure → Prop where
  | ofA {f : Failure} (hx : x = .error f) (hy : ∀ g, y = .error g → ¬ g.IsBefore f) : Counts x y f
  | ofB {g : Failure} (hy : y = .error g) (hx : ∀ f, x = .error f → g.IsBefore f) : Counts x y g

/-- What comes of two sides that are read apart: the pairs and the errors that are written. -/
inductive Verdict {α : Type} (strict : Bool) (path : String) (property : Property)
    (shown : α → String) (x y : Except Failure α) : Pairs → List Skip → Prop where
  /-- Both are read and are the same. -/
  | same {v : α} (hx : x = .ok v) (hy : y = .ok v) : Verdict strict path property shown x y .none []
  /-- Both are read and differ. -/
  | different {v w : α} (hx : x = .ok v) (hy : y = .ok w) (hne : v ≠ w) :
      Verdict strict path property shown x y
        (.only property (some (.text (shown v), .text (shown w)))) []
  /-- Something failed. -/
  | failed {f : Failure} (hf : Counts x y f) : Verdict strict path property shown x y .none
      (if strict then [⟨path, f.operation, f.fault.message⟩] else [])

section Verdict

variable {α : Type} {x y : Except Failure α} {f g : Failure} {strict : Bool} {path : String}
  {property : Property} {shown : α → String} {pairs pairs' : Pairs} {errors errors' : List Skip}

theorem Counts.unique (hf : Counts x y f) (hg : Counts x y g) : f = g := by
  cases hf with
  | ofA hx hy =>
    cases hg with
    | ofA hx' hy' => exact Except.error.inj (hx.symm.trans hx')
    | ofB hy' hx' => exact absurd (hx' f hx) (hy g hy')
  | ofB hy hx =>
    cases hg with
    | ofA hx' hy' => exact absurd (hx g hx') (hy' f hy)
    | ofB hy' hx' => exact Except.error.inj (hy.symm.trans hy')

/-- Where a failure counts, not both sides are read. -/
theorem Counts.not_both {v w : α} (hf : Counts x y f) (hx : x = .ok v) (hy : y = .ok w) :
    False := by
  cases hf with
  | ofA hx' => cases hx.symm.trans hx'
  | ofB hy' => cases hy.symm.trans hy'

/-- No two of the three cases are met at once, and each leaves no choice. -/
theorem Verdict.unique (h : Verdict strict path property shown x y pairs errors)
    (h' : Verdict strict path property shown x y pairs' errors') :
    pairs' = pairs ∧ errors' = errors := by
  cases h with
  | same hx hy =>
    cases h' with
    | same => exact ⟨rfl, rfl⟩
    | different hx' hy' hne =>
      exact absurd (Except.ok.inj (hx'.symm.trans (hx.trans (hy.symm.trans hy')))) hne
    | failed hf => exact (hf.not_both hx hy).elim
  | different hx hy hne =>
    cases h' with
    | same hx' hy' =>
      exact absurd (Except.ok.inj (hx.symm.trans (hx'.trans (hy'.symm.trans hy)))) hne
    | different hx' hy' =>
      cases hx.symm.trans hx'
      cases hy.symm.trans hy'
      exact ⟨rfl, rfl⟩
    | failed hf => exact (hf.not_both hx hy).elim
  | failed hf =>
    cases h' with
    | same hx' hy' => exact (hf.not_both hx' hy').elim
    | different hx' hy' => exact (hf.not_both hx' hy').elim
    | failed hg => rw [hg.unique hf]; exact ⟨rfl, rfl⟩

theorem Verdict.iff (h : Verdict strict path property shown x y pairs errors) :
    Verdict strict path property shown x y pairs' errors' ↔ pairs' = pairs ∧ errors' = errors :=
  ⟨h.unique, fun hsame => hsame.1 ▸ hsame.2 ▸ h⟩

end Verdict

namespace Store

variable {s : Store} {u : User} {h : HashAlgorithm} {a b : DirectoryId} {name : Bytes}
  {path : String} {r : Report} {strict : Bool}

/-- The target of a link on one side. -/
def targetOn (s : Store) (u : User) (d : DirectoryId) (name : Bytes) : Except Failure Bytes :=
  (s.readLink u d name).mapError fun r => ⟨.readLink, .system r⟩

/-- The fingerprint of a content on one side: it is opened, and then read. -/
def contentOn (s : Store) (u : User) (h : HashAlgorithm) (d : DirectoryId) (name : Bytes) :
    Except Failure String :=
  match s.openFile u d name with
  | .error r => .error ⟨.openFile, .system r⟩
  | .ok stream => (fingerprint h stream).mapError fun f => ⟨.hash, f⟩

theorem verdict_compareSymlink : ∃ pairs errors,
    Verdict strict path .symlink escape (s.targetOn u a name) (s.targetOn u b name) pairs errors ∧
    r.Writes (r.noteAll strict ((Walk.compareSymlink u a b name path).findings s)) path pairs
      errors := by
  rw [Walk.compareSymlink, Walk.bind_eq, Walk.findings_andThen, Walk.value_ask, Walk.findings_ask,
    List.nil_append, targetOn, targetOn]
  cases s.readLink u a name with
  | error x =>
    refine ⟨_, _, .failed (.ofA rfl fun g _ hbefore => ?_), Report.writes_note_skipped⟩
    cases hbefore.2
  | ok v =>
    cases s.readLink u b name with
    | error y =>
      exact ⟨_, _, .failed (.ofB rfl fun f hf => by cases hf), Report.writes_note_skipped⟩
    | ok w =>
      by_cases hvw : v = w
      · subst hvw
        refine ⟨_, _, .same rfl rfl, ?_⟩
        rw [show Walk.both (.ok v) (.ok v) = .ok (v, v) from rfl]
        simp only [ne_eq, not_true_eq_false, if_false]
        exact Report.writes_self
      · refine ⟨_, _, .different rfl rfl hvw, ?_⟩
        rw [show Walk.both (.ok v) (.ok w) = .ok (v, w) from rfl]
        simp only [ne_eq, hvw, not_false_eq_true, if_true]
        exact Report.writes_recordDifference

/-- What is found of two open files, by their fingerprints or the failure to take one. -/
def noteContents (path : String) : Except Fault (String × String) → Walk Unit
  | .ok (v, w) => Walk.foundAll (differing path .content (.text v) (.text w))
  | .error f => Walk.skip path .hash f

theorem verdict_fingerprints {x y : List Chunk} : ∃ pairs errors,
    Verdict strict path .content id ((fingerprint h x).mapError fun f => ⟨.hash, f⟩)
      ((fingerprint h y).mapError fun f => ⟨.hash, f⟩) pairs errors ∧
    r.Writes (r.noteAll strict
      ((noteContents path (Walk.fingerprints h x y)).findings s)) path pairs errors := by
  rw [Walk.fingerprints]
  cases fingerprint h x with
  | error f =>
    refine ⟨_, _, .failed (.ofA rfl fun g hg hbefore => ?_), Report.writes_note_skipped⟩
    cases hread : fingerprint h y <;> rw [hread] at hg <;> cases hg
    cases hbefore.1
  | ok v =>
    cases fingerprint h y with
    | error f =>
      exact ⟨_, _, .failed (.ofB rfl fun f hf => by cases hf), Report.writes_note_skipped⟩
    | ok w =>
      have hwrites : r.Writes (r.noteAll strict ((Walk.foundAll
          (differing path .content (.text v) (.text w))).findings s)) path
          (.only .content (unequal (.text v) (.text w))) [] := by
        rw [Walk.findings_foundAll]
        exact Report.writes_differing
      by_cases hvw : v = w
      · subst hvw
        rw [unequal, if_pos rfl, Pairs.only_none] at hwrites
        exact ⟨_, _, .same rfl rfl, hwrites⟩
      · rw [unequal, if_neg (mt PropertyValue.text.inj hvw)] at hwrites
        exact ⟨_, _, .different rfl rfl hvw, hwrites⟩

theorem verdict_compareContent : ∃ pairs errors,
    Verdict strict path .content id (s.contentOn u h a name) (s.contentOn u h b name) pairs errors ∧
    r.Writes (r.noteAll strict ((Walk.compareContent u h a b name path).findings s)) path pairs
      errors := by
  rw [Walk.compareContent, Walk.bind_eq, Walk.findings_andThen, Walk.value_ask, Walk.findings_ask,
    List.nil_append, contentOn, contentOn]
  cases s.openFile u a name with
  | error x =>
    refine ⟨_, _, .failed (.ofA rfl fun g _ hbefore => ?_), Report.writes_note_skipped⟩
    cases hbefore.2
  | ok x =>
    cases s.openFile u b name with
    | error y =>
      -- what failed in A, if anything did, was to read an open file
      refine ⟨_, _, .failed (.ofB rfl fun f hf => ⟨rfl, ?_⟩), Report.writes_note_skipped⟩
      change (fingerprint h x).mapError _ = _ at hf
      cases hread : fingerprint h x <;> rw [hread] at hf <;> cases hf
      rfl
    | ok y => exact verdict_fingerprints

/-- One comparison leaves a report intact but for what it finds. A content or a target is read on
both sides and is the same, or is read and differs, or something fails, and one of the three only:
then nothing is written, or the one pair, or the one error that counts, if errors are wanted. Looks
write the mode or the owners, and labels, which are empty if they cannot be read, the one pair in
which they differ; both add no errors. -/
theorem comparisons_write (s : Store) (u : User) (o : Options) (a b : DirectoryId) (name : Bytes)
    (path : String) (r : Report) :
    (∃ pairs errors,
      (∀ pairs' errors', Verdict o.strict path .content id (s.contentOn u o.hashAlgorithm a name)
        (s.contentOn u o.hashAlgorithm b name) pairs' errors' ↔ pairs' = pairs ∧ errors' = errors) ∧
      r.Writes (r.noteAll o.strict
        ((Walk.compareContent u o.hashAlgorithm a b name path).findings s)) path pairs errors) ∧
    (∃ pairs errors,
      (∀ pairs' errors', Verdict o.strict path .symlink escape (s.targetOn u a name)
        (s.targetOn u b name) pairs' errors' ↔ pairs' = pairs ∧ errors' = errors) ∧
      r.Writes (r.noteAll o.strict ((Walk.compareSymlink u a b name path).findings s)) path pairs
        errors) ∧
    (∀ x y : Snapshot, r.Writes (r.noteAll o.strict ((Walk.compareMetadata x y path).findings s))
      path (x.pairs y) []) ∧
    ∀ name : Option Bytes,
      r.Writes (r.noteAll o.strict ((Walk.compareSecurityLabel u a b name path).findings s)) path
        (.only .selinux
          (unequal (.text (s.labelOrEmpty u a name)) (.text (s.labelOrEmpty u b name)))) [] := by
  refine ⟨?_, ?_, fun x y => ?_, fun name => writes_compareSecurityLabel⟩
  · obtain ⟨pairs, errors, hverdict, hwrites⟩ := verdict_compareContent (s := s) (u := u)
      (h := o.hashAlgorithm) (a := a) (b := b) (r := r)
    exact ⟨pairs, errors, fun _ _ => hverdict.iff, hwrites⟩
  · obtain ⟨pairs, errors, hverdict, hwrites⟩ := verdict_compareSymlink (s := s) (u := u) (a := a)
      (b := b) (r := r)
    exact ⟨pairs, errors, fun _ _ => hverdict.iff, hwrites⟩
  · have hfindings : (Walk.compareMetadata x y path).findings s = metadataFindings x y path := by
      rw [Walk.compareMetadata, Walk.bind_eq, Walk.findings_andThen, Walk.findings_foundAll]
      exact List.append_nil _
    rw [hfindings]
    exact Report.writes_metadataFindings

end Store

end TreeComparison

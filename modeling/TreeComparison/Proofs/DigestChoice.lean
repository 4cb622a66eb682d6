import TreeComparison.Proofs.Agreement
import TreeComparison.Proofs.ShownValues

/-!
The choice of the digest. A digest decides only whether two contents count as the same, and how they
are shown if they do not. So two digests that both tell the contents in two trees apart find the
same differences in the same order, and the reports are the same up to the texts that stand for
contents.
-/

namespace TreeComparison

/-! ### Findings without contents -/

namespace Finding

variable {f : Finding} {fs fs' : List Finding} {path p : String} {q : Property}
  {v w : PropertyValue}

/-- A finding without the two texts that a difference in content shows. -/
def withoutContents : Finding → Finding
  | .differs path .content _ _ => .differs path .content (.text "") (.text "")
  | f => f

theorem only?_withoutContents (side : Side) : f.withoutContents.only? side = f.only? side := by
  cases f with
  | differs path q v w => cases q <;> rfl
  | _ => rfl

theorem skip?_withoutContents : f.withoutContents.skip? = f.skip? := by
  cases f with
  | differs path q v w => cases q <;> rfl
  | _ => rfl

theorem withoutContents_eq_differs_iff (hq : q ≠ .content) :
    f.withoutContents = .differs p q v w ↔ f = .differs p q v w := by
  cases f with
  | differs path q' v' w' =>
    cases q' <;> simp only [withoutContents, differs.injEq]
    simp [hq.symm]
  | _ => simp [withoutContents]

theorem withoutContents_eq_content_iff :
    f.withoutContents = .differs p .content (.text "") (.text "") ↔
      ∃ v w, f = .differs p .content v w := by
  cases f with
  | differs path q v w => cases q <;> simp [withoutContents]
  | _ => simp [withoutContents]

/-- What is read off the findings one by one, and not off the contents in them, is the same for
findings that are the same without them. -/
theorem filterMap_eq {α : Type} {g : Finding → Option α} (hg : ∀ f, g f.withoutContents = g f)
    (h : fs.map withoutContents = fs'.map withoutContents) :
    fs.filterMap g = fs'.filterMap g := by
  have hcomp : ∀ l : List Finding, (l.map withoutContents).filterMap g = l.filterMap g := by
    intro l
    rw [List.filterMap_map]
    exact List.filterMap_congr fun f _ => hg f
  rw [← hcomp fs, h, hcomp]

theorem differs_mem_iff (hq : q ≠ .content)
    (h : fs.map withoutContents = fs'.map withoutContents) :
    .differs p q v w ∈ fs ↔ .differs p q v w ∈ fs' := by
  have hmem : ∀ l : List Finding,
      .differs p q v w ∈ l ↔ .differs p q v w ∈ l.map withoutContents := by
    intro l
    simp only [List.mem_map, withoutContents_eq_differs_iff hq, exists_eq_right]
  rw [hmem fs, h, ← hmem]

/-- Where one list of findings has a difference in content, so has the other one. -/
theorem exists_content_mem (h : fs.map withoutContents = fs'.map withoutContents)
    (hf : .differs p .content v w ∈ fs) : ∃ v' w', .differs p .content v' w' ∈ fs' := by
  have hmem : .differs p .content (.text "") (.text "") ∈ fs'.map withoutContents :=
    h ▸ List.mem_map.2 ⟨_, hf, rfl⟩
  obtain ⟨f, hf, heq⟩ := List.mem_map.1 hmem
  obtain ⟨v', w', rfl⟩ := withoutContents_eq_content_iff.1 heq
  exact ⟨v', w', hf⟩

end Finding

namespace Store

variable {s : Store} {u : User} {h h' : HashAlgorithm} {k : Nat} {a b c d : DirectoryId} {n : Name}
  {x y : Entry} {path p : String} {q : Property} {content content' : Bytes}
  {v w v' w' : PropertyValue} {strict : Bool} {r r' : Report}

/-! ### Contents of a tree -/

theorem holds_of_child {attributes : Attributes}
    (hx : s.child a n = some (.file attributes content)) : s.Holds a content :=
  ⟨[n], attributes, by rw [entryAt_cons, hx, Option.bind_some, entryAt_nil]⟩

theorem Holds.of_child (hc : s.child a n = some (.directory c)) (h : s.Holds c content) :
    s.Holds a content := by
  obtain ⟨ns, attributes, hfile⟩ := h
  exact ⟨n :: ns, attributes, by rw [entryAt_cons, hc, Option.bind_some, hfile]⟩

/-- Of the contents in two trees those in two subtrees are some. -/
theorem TellsApart.child (hfree : s.TellsApart h a b) (hc : s.child a n = some (.directory c))
    (hd : s.child b n = some (.directory d)) : s.TellsApart h c d := by
  have hup : ∀ content, s.Holds c content ∨ s.Holds d content →
      s.Holds a content ∨ s.Holds b content :=
    fun _ hold => hold.imp (Holds.of_child hc) (Holds.of_child hd)
  exact fun content content' hold hold' => hfree content content' (hup _ hold) (hup _ hold')

/-- Digests that tell contents apart show two of them alike only if they are the same. -/
theorem TellsApart.fingerprintOf_eq_iff (hfree : s.TellsApart h a b) (ha : s.Holds a content)
    (hb : s.Holds b content') :
    h.fingerprintOf content = h.fingerprintOf content' ↔ content = content' := by
  rw [TreeComparison.fingerprintOf_eq_iff]
  exact ⟨hfree _ _ (.inl ha) (.inr hb), congrArg _⟩

/-! ### What is found -/

section Level

variable (ih : ∀ {a b : DirectoryId} {path : String}, s.TellsApart h a b → s.TellsApart h' a b →
  ((Walk.level u h k a b path).findings s).map Finding.withoutContents
    = ((Walk.level u h' k a b path).findings s).map Finding.withoutContents)
  (hfree : s.TellsApart h a b) (hfree' : s.TellsApart h' a b)
include ih hfree hfree'

theorem map_withoutContents_bodyNotes (hx : s.child a n = some x) (hy : s.child b n = some y) :
    (s.bodyNotes u h k path x y).map Finding.withoutContents
      = (s.bodyNotes u h' k path x y).map Finding.withoutContents := by
  cases x <;> cases y
  case directory.directory c d =>
    rw [bodyNotes, bodyNotes]
    split
    · exact ih (hfree.child hx hy) (hfree'.child hx hy)
    · rfl
  case file.file p content p' content' =>
    have hcontent := hfree.fingerprintOf_eq_iff (holds_of_child hx) (holds_of_child hy)
    have hcontent' := hfree'.fingerprintOf_eq_iff (holds_of_child hx) (holds_of_child hy)
    rw [bodyNotes, bodyNotes]
    split
    · simp only [differing, PropertyValue.text.injEq, hcontent, hcontent']
      split <;> rfl
    · rfl
  all_goals rfl

theorem map_withoutContents_visitNotes (hx : s.child a n = some x) :
    (s.visitNotes u h k b n x path).map Finding.withoutContents
      = (s.visitNotes u h' k b n x path).map Finding.withoutContents := by
  rw [visitNotes, visitNotes, List.map_cons, List.map_cons, List.cons.injEq]
  refine ⟨rfl, ?_⟩
  split
  · cases hy : s.child b n with
    | none => rfl
    | some y =>
      -- labels and metadata are no contents
      simp only [pairNotes, List.map_append, List.append_cancel_left_eq]
      split
      · exact map_withoutContents_bodyNotes ih hfree hfree' hx hy
      · rfl
  · rfl

end Level

/-- Two digests that tell the contents below two directories apart find the same there, but for the
texts that stand for contents. -/
theorem map_withoutContents_level (hfree : s.TellsApart h a b) (hfree' : s.TellsApart h' a b) :
    ((Walk.level u h k a b path).findings s).map Finding.withoutContents
      = ((Walk.level u h' k a b path).findings s).map Finding.withoutContents := by
  induction k generalizing a b path with
  | zero => rfl
  | succ k ih =>
    cases ha : s.listable u a with
    | false => rw [findings_level_of_not_listable ha, findings_level_of_not_listable ha]
    | true =>
      rw [findings_level_of_listable ha, findings_level_of_listable ha, List.map_append,
        List.map_append, List.map_flatMap, List.map_flatMap]
      -- the sweep compares no contents
      refine congrArg (· ++ _) (List.flatMap_congr fun e he => ?_)
      exact map_withoutContents_visitNotes ih hfree hfree' (child_of_mem_entries he)

theorem map_withoutContents_compare (hfree : s.TellsApart h a b) (hfree' : s.TellsApart h' a b) :
    (s.compare u h a b).map Finding.withoutContents
      = (s.compare u h' a b).map Finding.withoutContents := by
  rw [compare_eq_append, compare_eq_append, List.map_append, List.map_append,
    map_withoutContents_level hfree hfree']

/-! ### Verdicts -/

/-- Whether two pairs of values are the fingerprints, by two digests, of two different contents:
those of the two files that a path stands for in the two trees. -/
def ShowContents (s : Store) (h h' : HashAlgorithm) (a b : DirectoryId) (path : String)
    (vw vw' : PropertyValue × PropertyValue) : Prop :=
  ∃ ns attributes attributes' content content', path = logicalPath ns ∧
    s.entryAt (.directory a) ns = some (.file attributes content) ∧
    s.entryAt (.directory b) ns = some (.file attributes' content') ∧ content ≠ content' ∧
    vw = (.text (h.tag ++ ":" ++ Digits.hex (h.digest content)),
      .text (h.tag ++ ":" ++ Digits.hex (h.digest content'))) ∧
    vw' = (.text (h'.tag ++ ":" ++ Digits.hex (h'.digest content)),
      .text (h'.tag ++ ":" ++ Digits.hex (h'.digest content')))

/-- Whether two reports on two trees, made with one digest and with another one, give the same
verdict: they are the same but for the contents of files, which each shows by its own digest. -/
structure SameVerdict (s : Store) (h h' : HashAlgorithm) (a b : DirectoryId) (r r' : Report) :
    Prop where
  added : r.added = r'.added
  deleted : r.deleted = r'.deleted
  errors : r.errors = r'.errors
  paths : r.differences.keys = r'.differences.keys
  properties : ∀ p, (r.properties? p).map SortedMap.keys = (r'.properties? p).map SortedMap.keys
  values : ∀ p q, q ≠ .content → r.difference? p q = r'.difference? p q
  contents : ∀ p, Option.Rel (s.ShowContents h h' a b p) (r.difference? p .content)
    (r'.difference? p .content)

/-- A difference in content is one between two files, and shows the fingerprints of what they
hold. -/
theorem exists_files_of_content_mem_compare (hf : .differs p .content v w ∈ s.compare u h a b) :
    ∃ ns attributes attributes' content content', p = logicalPath ns ∧
      s.entryAt (.directory a) ns = some (.file attributes content) ∧
      s.entryAt (.directory b) ns = some (.file attributes' content') ∧ content ≠ content' ∧
      v = .text (h.fingerprintOf content) ∧ w = .text (h.fingerprintOf content') := by
  rcases differs_mem_compare hf with ⟨-, hroot⟩ | ⟨ns, x, y, -, hp, ⟨hx, hy, -⟩, hq⟩
  · cases hroot
  · have hshown : v ≠ w ∧ s.Shows u h a ns x .content v ∧ s.Shows u h b ns y .content w :=
      shows_of_contrast (by simp) hq
    obtain ⟨hne, hv, hw⟩ := hshown
    cases hv with
    | content attributes content hfile =>
      cases hw with
      | content attributes' content' hfile' =>
        refine ⟨ns, attributes, attributes', content, content', hp, hfile ▸ hx, hfile' ▸ hy, ?_,
          rfl, rfl⟩
        rintro rfl
        exact hne rfl

theorem showContents_of_mem_compare (hf : .differs p .content v w ∈ s.compare u h a b)
    (hf' : .differs p .content v' w' ∈ s.compare u h' a b) :
    s.ShowContents h h' a b p (v, w) (v', w') := by
  obtain ⟨ns, pa, pb, content, content', rfl, hx, hy, hne, rfl, rfl⟩ :=
    exists_files_of_content_mem_compare hf
  obtain ⟨ns', pa', pb', c, c', hns, hx', hy', -, rfl, rfl⟩ :=
    exists_files_of_content_mem_compare hf'
  -- a path leads to one place, and there is one file in each tree
  obtain rfl := logicalPath_injective hns
  obtain ⟨rfl, rfl⟩ := Entry.file.inj (Option.some.inj (hx.symm.trans hx'))
  obtain ⟨rfl, rfl⟩ := Entry.file.inj (Option.some.inj (hy.symm.trans hy'))
  exact ⟨ns, pa, pb, content, content', rfl, hx, hy, hne, rfl, rfl⟩

/-- Reports of the same findings but for the texts that stand for contents give the same verdict. -/
theorem sameVerdict_of_map_eq (hsame : (s.compare u h a b).map Finding.withoutContents
      = (s.compare u h' a b).map Finding.withoutContents) :
    s.SameVerdict h h' a b (s.diff u ⟨h, strict⟩ a b ∅) (s.diff u ⟨h', strict⟩ a b ∅) := by
  have hpaths : ∀ side, (s.diff u ⟨h, strict⟩ a b ∅).paths side
      = (s.diff u ⟨h', strict⟩ a b ∅).paths side := by
    intro side
    rw [paths_diff, paths_diff]
    exact Finding.filterMap_eq (fun _ => Finding.only?_withoutContents side) hsame
  have herrors : (s.diff u ⟨h, strict⟩ a b ∅).errors = (s.diff u ⟨h', strict⟩ a b ∅).errors := by
    rw [errors_diff, errors_diff,
      Finding.filterMap_eq (fun _ => Finding.skip?_withoutContents) hsame]
  have hvalues : ∀ p q, q ≠ .content → (s.diff u ⟨h, strict⟩ a b ∅).difference? p q
      = (s.diff u ⟨h', strict⟩ a b ∅).difference? p q := by
    intro p q hq
    refine Option.ext fun vw => ?_
    rw [difference?_diff, difference?_diff]
    exact Finding.differs_mem_iff hq hsame
  have hcontents : ∀ p, Option.Rel (s.ShowContents h h' a b p)
      ((s.diff u ⟨h, strict⟩ a b ∅).difference? p .content)
      ((s.diff u ⟨h', strict⟩ a b ∅).difference? p .content) := by
    intro p
    cases hvw : (s.diff u ⟨h, strict⟩ a b ∅).difference? p .content with
    | some vw =>
      have hf := difference?_diff.1 hvw
      obtain ⟨v', w', hf'⟩ := Finding.exists_content_mem hsame hf
      rw [(difference?_diff (o := ⟨h', strict⟩)).2 hf']
      exact .some (showContents_of_mem_compare hf hf')
    | none =>
      cases hvw' : (s.diff u ⟨h', strict⟩ a b ∅).difference? p .content with
      | none => exact .none
      | some vw' =>
        obtain ⟨v, w, hf⟩ := Finding.exists_content_mem hsame.symm (difference?_diff.1 hvw')
        rw [(difference?_diff (o := ⟨h, strict⟩)).2 hf] at hvw
        cases hvw
  have hkeys : ∀ p q, ((s.diff u ⟨h, strict⟩ a b ∅).difference? p q).isSome
      = ((s.diff u ⟨h', strict⟩ a b ∅).difference? p q).isSome := by
    intro p q
    by_cases hq : q = .content
    · rw [hq]
      exact isSome_eq_of_rel (hcontents p)
    · rw [hvalues p q hq]
  exact ⟨hpaths .added, hpaths .deleted, herrors,
    Report.keys_differences_eq isMeaningful_diff isMeaningful_diff hkeys,
    fun p => Report.keys_properties?_eq isMeaningful_diff isMeaningful_diff (hkeys p), hvalues,
    hcontents⟩

/-- The choice of the digest does not change the verdict. Two digests that both tell the contents in
two trees apart make the same report to every user and in both modes, but for the texts that stand
for contents: these are the fingerprints of the same two contents, each behind the tag of its own
digest. -/
theorem verdict_eq_of_tellsApart (s : Store) (u : User) (strict : Bool) (a b : DirectoryId)
    (hfree : s.TellsApart h a b) (hfree' : s.TellsApart h' a b) :
    s.SameVerdict h h' a b (s.diff u ⟨h, strict⟩ a b ∅) (s.diff u ⟨h', strict⟩ a b ∅) :=
  sameVerdict_of_map_eq (map_withoutContents_compare hfree hfree')

/-- A file system with two trees, at places 0 and 1, in which one file has another content and
another owner, and a directory may be read by its owner only. -/
def editions : Store where
  directories := #[
    ⟨⟨0o755, 0, 0, []⟩, ⟨[(⟨[0x76], by decide⟩, .file ⟨0o644, 7, 7, []⟩ [0x31]),
      (⟨[0x75], by decide⟩, .directory 2)], by decide⟩⟩,
    ⟨⟨0o755, 0, 0, []⟩, ⟨[(⟨[0x76], by decide⟩, .file ⟨0o644, 8, 7, []⟩ [0x32]),
      (⟨[0x75], by decide⟩, .directory 2)], by decide⟩⟩,
    ⟨⟨0o700, 0, 0, []⟩, ∅⟩]

theorem tellsApart_editions (h : HashAlgorithm) : editions.TellsApart h 0 1 := by
  have hcontents : editions.contents = [[0x31], [0x32]] := by decide
  have hdigest : h.digest [0x31] ≠ h.digest [0x32] := by
    cases h <;> decide +kernel
  apply tellsApart_of_contents
  simp [hcontents, hdigest, hdigest.symm]

/-- A user who may not open the directory gets one report by either digest, and in both reports the
file is said to differ in content and in its owner. -/
theorem verdict_editions : editions.TellsApart .sha256 0 1 ∧ editions.TellsApart .blake3 0 1 ∧
    editions.SameVerdict .sha256 .blake3 0 1 (editions.diff ⟨9, 9, false⟩ ⟨.sha256, true⟩ 0 1 ∅)
      (editions.diff ⟨9, 9, false⟩ ⟨.blake3, true⟩ 0 1 ∅) ∧
    ((editions.diff ⟨9, 9, false⟩ ⟨.sha256, true⟩ 0 1 ∅).properties? "/v").map SortedMap.keys
      = some [.content, .uid] ∧
    (editions.diff ⟨9, 9, false⟩ ⟨.sha256, true⟩ 0 1 ∅).errors
      = [⟨"/u", .openDirectory, denied.message⟩] :=
  ⟨tellsApart_editions .sha256, tellsApart_editions .blake3,
    verdict_eq_of_tellsApart editions ⟨9, 9, false⟩ true 0 1 (tellsApart_editions .sha256)
      (tellsApart_editions .blake3), by decide +kernel, by decide +kernel⟩

end Store

end TreeComparison

import Mathlib.Data.List.DropRight
import TreeComparison.Proofs.Comparators
import TreeComparison.Proofs.Rendering

/-!
Which labels are told apart. The text of a label is that of its longest beginning that does not end
in padding, and of two labels the texts are the same just if the labels are the same up to padding.
So where the labels of an entry can be read on both sides, their comparison writes the pair of their
texts if they differ in more than padding, and else it writes nothing.
-/

namespace TreeComparison

variable {l l' q : Bytes}

/-! ### The part of a label that counts -/

/-- Whether a byte string does not end in padding. -/
def IsUnpadded (p : Bytes) : Prop := ∀ b ∈ p.getLast?, b ≠ 0x0A ∧ b ≠ 0x00

/-- Whether `p` is the longest beginning of a label that does not end in padding. -/
structure IsCore (l p : Bytes) : Prop where
  start : p <+: l
  unpadded : IsUnpadded p
  longest : ∀ q, q <+: l → IsUnpadded q → q <+: p

theorem isUnpadded_trimPadding : IsUnpadded (trimPadding l) := by
  intro b hb
  obtain ⟨hne, rfl⟩ := List.mem_getLast?_eq_getLast hb
  have hlast := List.rdropWhile_last_not isPadding l hne
  rw [isPadding_iff, not_or] at hlast
  exact hlast

theorem trimPadding_of_isUnpadded (hq : IsUnpadded q) : trimPadding q = q := by
  refine List.rdropWhile_eq_self_iff.2 fun hne => ?_
  rw [isPadding_iff, not_or]
  exact hq _ (List.getLast?_eq_some_getLast hne)

theorem isCore_trimPadding : IsCore l (trimPadding l) := by
  obtain ⟨pad, hl, hpad⟩ := exists_padding l
  refine ⟨⟨pad, hl.symm⟩, isUnpadded_trimPadding, fun q hql hq => ?_⟩
  rcases List.prefix_or_prefix_of_prefix hql ⟨pad, hl.symm⟩ with hshorter | ⟨more, hlonger⟩
  · exact hshorter
  · -- what a longer one has more is padding, and it does not end in any
    obtain ⟨rest, hrest⟩ := hql
    have hmore : more ++ rest = pad := by
      rw [← hlonger, List.append_assoc] at hrest
      exact List.append_cancel_left (hrest.trans hl)
    have htrim : trimPadding (trimPadding l ++ more) = trimPadding (trimPadding l) :=
      trimPadding_append fun b hb => hpad b (hmore ▸ List.mem_append_left rest hb)
    rw [hlonger, trimPadding_of_isUnpadded hq, trimPadding_of_isUnpadded isUnpadded_trimPadding]
      at htrim
    exact htrim ▸ List.prefix_rfl

/-! ### Reading and comparing labels -/

namespace Store

variable {s : Store} {u : User} {a b d : DirectoryId} {name : Option Bytes} {path : String}
  {r : Report} {strict : Bool}

/-- The label of an entry, or of the directory itself, as it is stored, if it can be read. -/
def storedLabel (s : Store) (u : User) (d : DirectoryId) (name : Option Bytes) :
    Except Refusal Bytes :=
  if !s.readsLabels u then .error .accessDenied
  else match name with
  | some [] => .ok (s.directory d).attributes.label
  | name => (s.locate u false d (name.getD Path.here)).map fun e => (s.attributes e).label

/-- What is read of a label is its text. -/
theorem securityLabel_eq :
    s.securityLabel u d name = (s.storedLabel u d name).map normalizeLabel := by
  have hmap : ∀ x : Except Refusal Entry, x.map (fun e => normalizeLabel (s.attributes e).label) =
      (x.map fun e => (s.attributes e).label).map normalizeLabel := by
    intro x
    cases x <;> rfl
  unfold securityLabel storedLabel readsLabels searchable
  cases u.may .search (s.directory root).attributes with
  | false => rfl
  | true =>
    rcases name with _ | _ | ⟨c, cs⟩
    · exact hmap _
    · rfl
    · exact hmap _

theorem findings_compareSecurityLabel_of_storedLabel (ha : s.storedLabel u a name = .ok l)
    (hb : s.storedLabel u b name = .ok l') :
    (Walk.compareSecurityLabel u a b name path).findings s =
      differing path .selinux (.text (normalizeLabel l)) (.text (normalizeLabel l')) := by
  have hread : ∀ {d l}, s.storedLabel u d name = .ok l →
      (Walk.readLabel u d name).value s = .ok (normalizeLabel l) := by
    intro d l hl
    rw [Walk.readLabel, Walk.value_ask, securityLabel_eq, hl]
    rfl
  have hnotes : ∀ d, (Walk.readLabel u d name).findings s = [] := fun _ => rfl
  simp [Walk.compareSecurityLabel, Walk.compareLabels, hread ha, hread hb, hnotes, Walk.labelOr]

/-- Labels are told apart by what is not padding at their ends. Two texts are the same just if the
labels are, up to such padding; a text is that of the longest beginning of its label that does not
end in any. And if a label can be read on both sides, its comparison leaves a report as it is, or
writes the two texts if the labels are not the same. -/
theorem normalizeLabel_isExact (l l' : Bytes) :
    (normalizeLabel l = normalizeLabel l' ↔ SameLabel l l') ∧
    (∃ p, IsCore l p ∧ normalizeLabel l = escape p) ∧
    ∀ (s : Store) (u : User) (a b : DirectoryId) (name : Option Bytes) (path : String)
      (strict : Bool) (r : Report),
      s.storedLabel u a name = .ok l → s.storedLabel u b name = .ok l' →
      (SameLabel l l' →
        r.noteAll strict ((Walk.compareSecurityLabel u a b name path).findings s) = r) ∧
      (¬ SameLabel l l' →
        r.noteAll strict ((Walk.compareSecurityLabel u a b name path).findings s) =
          r.recordDifference path .selinux (.text (normalizeLabel l))
            (.text (normalizeLabel l'))) := by
  refine ⟨normalizeLabel_eq_iff, ⟨_, isCore_trimPadding, rfl⟩, ?_⟩
  intro s u a b name path strict r ha hb
  rw [findings_compareSecurityLabel_of_storedLabel ha hb, differing]
  constructor
  · intro hsame
    rw [if_pos (congrArg _ (normalizeLabel_eq_iff.2 hsame))]
    rfl
  · intro hdiffer
    rw [if_neg fun htext => hdiffer (normalizeLabel_eq_iff.1 (PropertyValue.text.inj htext))]
    rfl

/-- Three directories with labels: after the byte 80 the first has padding, and the second has some
inside. -/
def marked : Store where
  directories := #[⟨⟨0o755, 0, 0, [0x80, 0x0A]⟩, ∅⟩,
    ⟨⟨0o755, 0, 0, [0x80, 0x0A, 0x61, 0x00]⟩, ∅⟩, ⟨⟨0o755, 0, 0, [0x80]⟩, ∅⟩]

/-- The first directory of `marked` differs from the second in its label, and not from the third. -/
theorem normalizeLabel_marked :
    marked.storedLabel ⟨0, 0, true⟩ 0 none = .ok [0x80, 0x0A] ∧
    marked.storedLabel ⟨0, 0, true⟩ 1 none = .ok [0x80, 0x0A, 0x61, 0x00] ∧
    marked.storedLabel ⟨0, 0, true⟩ 2 none = .ok [0x80] ∧
    (∅ : Report).noteAll false
      ((Walk.compareSecurityLabel ⟨0, 0, true⟩ 0 1 none "/").findings marked) =
        (∅ : Report).recordDifference "/" .selinux (.text "\\x80") (.text "\\x80\na") ∧
    (∅ : Report).noteAll false
      ((Walk.compareSecurityLabel ⟨0, 0, true⟩ 0 2 none "/").findings marked) = ∅ := by
  refine ⟨rfl, rfl, rfl, ?_, ?_⟩
  · have hdiffer : ¬ SameLabel [0x80, 0x0A] [0x80, 0x0A, 0x61, 0x00] := by
      rw [sameLabel_iff]
      decide
    exact ((normalizeLabel_isExact _ _).2.2 marked ⟨0, 0, true⟩ 0 1 none "/" false ∅ rfl rfl).2
      hdiffer
  · have hsame : SameLabel [0x80, 0x0A] [0x80] := ⟨[0x80], [0x0A], [], rfl, rfl, by simp, by simp⟩
    exact ((normalizeLabel_isExact _ _).2.2 marked ⟨0, 0, true⟩ 0 2 none "/" false ∅ rfl rfl).1
      hsame

end Store

end TreeComparison

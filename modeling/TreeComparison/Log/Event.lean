import TreeComparison.Json.Basic
import TreeComparison.Log.Level
import TreeComparison.Walk.Basic

/-!
Log events: what is told of a comparison while it runs. Every finding but a mere record is an event,
and so are the start and the end of a comparison.
-/

namespace TreeComparison

/-- A log event. The target says which part of the program speaks. -/
structure Event where
  level : LogLevel
  target : String
  message : String
  fields : List (String × Json)

namespace Event

/-- The part of the program that was asked to compare. -/
def frontTarget : String := "tree_diff"

/-- The part of the program that walks two trees. -/
def walkTarget : String := "tree_diff::walker"

/-- The part of the program that lists a subtree. -/
def subtreeTarget : String := "tree_diff::enumerate"

/-- The part of the program that compares attributes. -/
def attributeTarget : String := "tree_diff::compare"

/-- The name of a side in log lines. -/
def sideLabel : Side → String
  | .deleted => "Deleted"
  | .added => "Added"

/-- The event of a finding; a mere record is none. -/
def ofFinding? : Finding → Option Event
  | .visiting path => some ⟨.trace, walkTarget, "visiting", [("path", .text path)]⟩
  | .enumerated path => some ⟨.trace, subtreeTarget, "enumerated", [("path", .text path)]⟩
  | .unmatched path side =>
    some ⟨.debug, walkTarget, "unmatched entry",
      [("path", .text path), ("side", .text (sideLabel side))]⟩
  | .unreadableLabel path fault =>
    some ⟨.debug, attributeTarget, "security label unreadable, treating as empty",
      [("path", .text path), ("error", .text fault.message)]⟩
  | .skipped path operation fault =>
    some ⟨.debug, attributeTarget, "skipping",
      [("path", .text path), ("operation", .text operation.label),
        ("error", .text fault.message)]⟩
  | .differs _ _ _ _ => none
  | .only _ _ => none

/-- The event at the end of a comparison. -/
def finished (s : Summary) : Event :=
  ⟨.info, walkTarget, "comparison finished", [("added", .nat s.added),
    ("deleted", .nat s.deleted), ("changed", .nat s.changed), ("skipped", .nat s.skipped)]⟩

/-- The event at the start of a comparison. -/
def started (pathA pathB : Bytes) : Event :=
  ⟨.info, frontTarget,
    "Comparing " ++ Utf8.display pathA ++ " against " ++ Utf8.display pathB, []⟩

/-- The events of a comparison with these findings that ended in this report. -/
def ofComparison (fs : List Finding) (r : Report) : List Event :=
  fs.filterMap ofFinding? ++ [finished r.summary]

end Event

end TreeComparison

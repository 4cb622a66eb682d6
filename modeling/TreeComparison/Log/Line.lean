import TreeComparison.Json.Printer
import TreeComparison.Log.Filter

/-!
Log lines. An event is one line, either a JSON object or plain text; both name the span that it
happened in.
-/

namespace TreeComparison

/-- A span as JSON: its fields and its name. -/
def Span.toJson (s : Span) : Json := .record (s.fields ++ [("name", .text s.name)])

/-- An event that happened in a span, or in none. -/
structure LogEntry where
  span : Option Span
  event : Event

namespace LogEntry

/-- An entry as JSON. -/
def toJson (l : LogEntry) : Json :=
  .record <|
    [("level", .text l.event.level.label),
      ("fields", .record (("message", .text l.event.message) :: l.event.fields)),
      ("target", .text l.event.target)] ++
    match l.span with
    | some s => [("span", s.toJson), ("spans", .array [s.toJson])]
    | none => []

/-- Fields as plain text. -/
def plainFields (fields : List (String × Json)) : String :=
  " ".intercalate <| fields.map fun f =>
    f.1 ++ "=" ++ match f.2 with
      | .string (some t) => t
      | v => v.print .compact

/-- An entry as plain text. -/
def toPlain (l : LogEntry) : String :=
  let span := match l.span with
    | some s => s.name ++ "\x7b" ++ plainFields s.fields ++ "\x7d: "
    | none => ""
  let fields := if l.event.fields.isEmpty then "" else " " ++ plainFields l.event.fields
  l.event.level.label ++ " " ++ span ++ l.event.target ++ ": " ++ l.event.message ++ fields

/-- The line of an entry. -/
def line (json : Bool) (l : LogEntry) : String :=
  if json then l.toJson.print .compact else l.toPlain

end LogEntry

/-- The entries of some events that happen in a span, or in none: those that the filter lets
through. A span that the filter does not show is not named. -/
def Filter.entries (f : Filter) (inside : Option Span) (events : List Event) : List LogEntry :=
  (events.filter (f.admits inside)).map fun e => ⟨inside.filter (f.shows ·), e⟩

end TreeComparison

import TreeComparison.Text.LowerCase

/-!
Levels of log events, with the names that they have in settings and in log lines.
-/

namespace TreeComparison

/-- How important an event is, the least important first. -/
inductive LogLevel where
  | trace
  | debug
  | info
  | warn
  | error
  deriving DecidableEq, Repr

namespace LogLevel

/-- All levels. -/
def all : List LogLevel := [.trace, .debug, .info, .warn, .error]

/-- The name of a level in settings. -/
def name : LogLevel → String
  | .trace => "trace"
  | .debug => "debug"
  | .info => "info"
  | .warn => "warn"
  | .error => "error"

/-- The name of a level in log lines. -/
def label : LogLevel → String
  | .trace => "TRACE"
  | .debug => "DEBUG"
  | .info => "INFO"
  | .warn => "WARN"
  | .error => "ERROR"

/-- How far up a level stands: the more important, the higher. -/
def rank : LogLevel → Nat
  | .trace => 1
  | .debug => 2
  | .info => 3
  | .warn => 4
  | .error => 5

/-- The level with a given name; the case of its letters does not count. -/
def ofName? (text : String) : Option LogLevel :=
  all.find? fun l => l.name = LowerCase.lower text

end LogLevel

end TreeComparison

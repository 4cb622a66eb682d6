import TreeComparison.CommandLine.Arguments
import TreeComparison.Log.Line
import TreeComparison.Report.Json
import TreeComparison.Settings.File
import TreeComparison.Walk.Run

/-!
The program as a function. The settings are found, the arguments are laid over them, the level for
the log is checked, both directories are opened and compared, and the report is printed. The first
of these steps that fails ends the run with status 2 and nothing printed.
-/

namespace TreeComparison

/-! ### Answers without a comparison -/

/-- The name of the program. -/
def programName : String := "tree-diff"

/-- How the program is called. -/
def usageLine : String := "Usage: " ++ programName ++ " [OPTIONS] <DIR1> <DIR2>"

/-- What the program says about itself. -/
def Inquiry.text : Inquiry → String
  | .version => programName ++ " 0.1.0\n"
  | .help => String.intercalate "\n"
    ["Compare two filesystem trees and print the differences as JSON",
      "",
      usageLine,
      "",
      "Arguments:",
      "  <DIR1>  First tree (entries only here are reported as deleted)",
      "  <DIR2>  Second tree (entries only here are reported as added)",
      "",
      "Options:",
      "  -c, --config <CONFIG>        Configuration file path",
      "      --hash <ALGORITHM>       Content hash algorithm (sha256, blake3)",
      "      --strict                 Report skipped entries under \"errors\" " ++
        "instead of ignoring them",
      "      --sorted                 Sort added and deleted paths",
      "      --pretty                 Pretty-print the report",
      "      --exit-code              Exit with status 1 when the trees differ",
      "      --timeout <SECS>         Abort if the comparison takes longer than this many seconds",
      "  -l, --log-level <LOG_LEVEL>  Log level (trace, debug, info, warn, error)",
      "      --log-json               Emit logs as JSON",
      "  -h, --help                   Print help",
      "  -V, --version                Print version",
      ""]

/-- The full text of a usage error. -/
def UsageError.report (e : UsageError) : String :=
  e.message ++ "\n\n" ++ usageLine ++ "\n\nFor more information, try '--help'.\n"

/-! ### Merged settings -/

/-- Settings with the arguments laid over them: values replace, flags can only switch on. -/
def Settings.merge (s : Settings) (a : Arguments) : Settings where
  compare :=
    ⟨a.hash.getD s.compare.hashAlgorithm, s.compare.strict || a.has .strict⟩
  output := ⟨s.output.pretty || a.has .pretty, s.output.sorted || a.has .sorted⟩
  logging := ⟨a.logLevel.getD s.logging.level, s.logging.json || a.has .logJson⟩

/-- The filter for the log: the one that the surroundings give, if it is a good one, else the one of
the level. -/
def Environment.filter (e : Environment) (l : LogLevel) : Filter :=
  (e.logFilter.bind Filter.parse?).getD (.ofLevel l)

/-! ### The run -/

/-- What a run comes to: its status, what it prints, the lines of its log, and what it complains
of. -/
structure Outcome where
  status : Nat
  output : String
  log : List String
  complaint : Option String
  deriving DecidableEq, Repr

/-- A run that failed. -/
def Outcome.failed (log : List String) (complaint : String) : Outcome :=
  ⟨2, "", log, some complaint⟩

/-- The text of an error together with that of the fault behind it. -/
def ComparisonError.chain (e : ComparisonError) : String :=
  match e.fault? with
  | some f => e.message ++ ": " ++ f.message
  | none => e.message

/-- The settings of a run and the level for its log. -/
def Arguments.settings (a : Arguments) (s : Store) (u : User) (start : DirectoryId)
    (e : Environment) : Except SettingsError (Settings × LogLevel) := do
  let found ← Settings.discover s u start e a.config
  let merged := found.merge a
  let level ← merged.level
  return (merged, level)

/-- The report of a comparison, in the order that the settings ask for. -/
def Settings.arrange (settings : Settings) (r : Report) : Report :=
  if settings.output.sorted then r.sort else r

/-- Compares two directories by the merged settings. -/
def Arguments.execute (a : Arguments) (s : Store) (u : User) (start : DirectoryId)
    (settings : Settings) (filter : Filter) : Outcome :=
  let lines := fun entries : List LogEntry => entries.map (·.line settings.logging.json)
  let opening := lines (filter.entries none [.started a.dir1 a.dir2])
  match s.openRoots u start a.dir1 a.dir2 with
  | .error e => .failed opening e.chain
  | .ok (x, y) =>
    let o := settings.compare
    let r := s.diff u o x y ∅
    let findings := s.compare u o.hashAlgorithm x y
    let during := filter.entries (some (.ofComparison o)) (Event.ofComparison findings r)
    { status := if a.has .exitCode && !r.isEmpty then 1 else 0
      output := (settings.arrange r).print settings.output.pretty ++ "\n"
      log := opening ++ lines during
      complaint := none }

/-- Runs the program on a file system that is at rest, for a user whose paths start at `start`. -/
def run (s : Store) (u : User) (start : DirectoryId) (e : Environment) (words : List Bytes) :
    Outcome :=
  match Arguments.parse words with
  | .error (.asked i) => ⟨0, i.text, [], none⟩
  | .error (.refused usage) => .failed [] usage.report
  | .ok a =>
    match a.settings s u start e with
    | .error problem => .failed [] problem.message
    | .ok (settings, level) => a.execute s u start settings (e.filter level)

end TreeComparison

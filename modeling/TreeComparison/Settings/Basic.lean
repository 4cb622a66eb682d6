import TreeComparison.Fault
import TreeComparison.Log.Level
import TreeComparison.Options
import TreeComparison.Toml.Document

/-!
Settings of the program, as a settings file gives them. Each of the three sections, and each field
in a section, may be left out and then has its default; a field that is there must have a value of
the right kind, and what has another name is passed over.
-/

namespace TreeComparison

/-- How a report is written. -/
structure OutputSettings where
  pretty : Bool
  sorted : Bool
  deriving DecidableEq, Repr

/-- What is logged, and how. The level is a name that need not be a good one. -/
structure LoggingSettings where
  level : String
  json : Bool
  deriving DecidableEq, Repr

/-- All settings. -/
structure Settings where
  compare : Options
  output : OutputSettings
  logging : LoggingSettings
  deriving DecidableEq, Repr

/-- Why settings cannot be used. -/
inductive SettingsError where
  | unreadable (path : Bytes) (fault : Fault)
  | malformed (path : Bytes)
  | unknownLevel (level : String)
  deriving DecidableEq, Repr

/-- The text of an error in the settings. -/
def SettingsError.message : SettingsError → String
  | .unreadable path fault =>
    "Failed to read config file " ++ Utf8.display path ++ ": " ++ fault.message
  | .malformed path => "Invalid config file " ++ Utf8.display path
  | .unknownLevel level =>
    "Invalid log level '" ++ level ++ "', expected one of: " ++
      ", ".intercalate (LogLevel.all.map LogLevel.name)

/-! ### Defaults -/

/-- By default a report is written on one line and in the order of the walk. -/
def OutputSettings.default : OutputSettings := ⟨false, false⟩

/-- By default warnings are logged, as plain text. -/
def LoggingSettings.default : LoggingSettings := ⟨LogLevel.warn.name, false⟩

/-- The default settings. -/
def Settings.default : Settings := ⟨.default, .default, .default⟩

/-! ### Reading -/

/-- Reads options from a section. -/
def Options.ofToml? (v : Toml) : Option Options :=
  match v.fields? ["hash_algorithm", "strict"] with
  | some [h, s] => do
    let h ← field? (Toml.variant? HashAlgorithm.ofTag?) default.hashAlgorithm h
    let s ← field? Toml.bool? default.strict s
    some ⟨h, s⟩
  | _ => none

/-- Reads from a section how a report is written. -/
def OutputSettings.ofToml? (v : Toml) : Option OutputSettings :=
  match v.fields? ["pretty", "sorted"] with
  | some [p, s] => do
    let p ← field? Toml.bool? default.pretty p
    let s ← field? Toml.bool? default.sorted s
    some ⟨p, s⟩
  | _ => none

/-- Reads from a section what is logged. -/
def LoggingSettings.ofToml? (v : Toml) : Option LoggingSettings :=
  match v.fields? ["level", "json"] with
  | some [l, j] => do
    let l ← field? Toml.text? default.level l
    let j ← field? Toml.bool? default.json j
    some ⟨l, j⟩
  | _ => none

namespace Settings

/-- Reads settings from a document. -/
def ofToml? (v : Toml) : Option Settings :=
  match v.fields? ["compare", "output", "logging"] with
  | some [c, o, l] => do
    let c ← field? Options.ofToml? default.compare c
    let o ← field? OutputSettings.ofToml? default.output o
    let l ← field? LoggingSettings.ofToml? default.logging l
    some ⟨c, o, l⟩
  | _ => none

/-- Reads settings from text. -/
def parse? (text : String) : Option Settings := Toml.parse? text >>= ofToml?

/-- The level that the settings name. -/
def level (s : Settings) : Except SettingsError LogLevel :=
  match LogLevel.ofName? s.logging.level with
  | some l => .ok l
  | none => .error (.unknownLevel s.logging.level)

end Settings

end TreeComparison

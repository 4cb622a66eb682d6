import TreeComparison.FileSystem.Directory
import TreeComparison.Settings.Basic

/-!
Where settings come from. A file that is named must be there and be good. Otherwise the user's own
file is read, if there is one, and else the defaults stand. A home that the surroundings do not name
is that of the user's account.
-/

namespace TreeComparison

/-- What the program is told by its surroundings: the user's directory for settings, the user's home
directory, and a log filter. -/
structure Environment where
  configHome : Option Bytes
  home : Option Bytes
  logFilter : Option String

namespace Path

/-- The path of a name in a directory. -/
def join (directory : Bytes) (name : String) : Bytes :=
  if directory = [] ∨ directory.getLast? = some 0x2F then directory ++ Utf8.encode name
  else directory ++ 0x2F :: Utf8.encode name

end Path

/-- The user's home directory: the one that the surroundings name, else that of the account. An
empty path names none. -/
def Environment.home? (e : Environment) (account : Option Bytes) : Option Bytes :=
  e.home.filter (· ≠ []) <|> account.filter (· ≠ [])

/-- Where the user's own settings lie: in the directory for settings if that is an absolute path,
else in the home directory. -/
def Environment.settingsPath? (e : Environment) (account : Option Bytes) : Option Bytes :=
  let directory := e.configHome.filter (Path.isAbsolute ·) <|>
    (e.home? account).map (Path.join · ".config")
  directory.map fun d => Path.join (Path.join d "tree-diff") "config.toml"

namespace Settings

/-- Reads the settings in a file. -/
def load (s : Store) (u : User) (start : DirectoryId) (path : Bytes) :
    Except SettingsError Settings :=
  match s.readFile u start path with
  | .error f => .error (.unreadable path f)
  | .ok content =>
    match Utf8.decode? content with
    | none => .error (.unreadable path (.told .invalidData "stream did not contain valid UTF-8"))
    | some text =>
      match parse? text with
      | none => .error (.malformed path)
      | some settings => .ok settings

/-- Finds and reads the settings. -/
def discover (s : Store) (u : User) (start : DirectoryId) (e : Environment)
    (named : Option Bytes) : Except SettingsError Settings :=
  match named with
  | some path => load s u start path
  | none =>
    match e.settingsPath? (s.homes u.uid) with
    | some path => if s.isFile u start path then load s u start path else .ok .default
    | none => .ok .default

end Settings

end TreeComparison

import TreeComparison.Digest.Algorithm

/-!
The arguments of the program. They are read one after the other. An argument that takes a value may
have it in the same word or in the next one; such a value, and a path, is looked at only when the
next argument has been understood, so an argument that nobody knows is refused first.
-/

namespace TreeComparison

/-! ### What can be given -/

/-- What takes a value. -/
inductive Slot where
  | dir1
  | dir2
  | config
  | hash
  | timeout
  | logLevel
  deriving DecidableEq, Repr

/-- What is given or not. -/
inductive Flag where
  | strict
  | sorted
  | pretty
  | exitCode
  | logJson
  deriving DecidableEq, Repr

/-- What the program can be asked about itself. -/
inductive Inquiry where
  | help
  | version
  deriving DecidableEq, Repr

/-- What a word that begins with a dash can name. -/
inductive Switch where
  | option (slot : Slot)
  | flag (flag : Flag)
  | inquiry (inquiry : Inquiry)
  deriving DecidableEq, Repr

/-- How a value is called in messages. -/
def Slot.label : Slot → String
  | .dir1 => "<DIR1>"
  | .dir2 => "<DIR2>"
  | .config => "--config <CONFIG>"
  | .hash => "--hash <ALGORITHM>"
  | .timeout => "--timeout <SECS>"
  | .logLevel => "--log-level <LOG_LEVEL>"

/-- The names of all switches. -/
def Switch.names : List (String × Switch) :=
  [("config", .option .config), ("hash", .option .hash), ("strict", .flag .strict),
    ("sorted", .flag .sorted), ("pretty", .flag .pretty), ("exit-code", .flag .exitCode),
    ("timeout", .option .timeout), ("log-level", .option .logLevel), ("log-json", .flag .logJson),
    ("help", .inquiry .help), ("version", .inquiry .version)]

/-- The switch with a name. -/
def Switch.ofName? (name : String) : Option Switch := Switch.names.lookup name

/-- The switch with a letter. -/
def Switch.ofLetter? : Char → Option Switch
  | 'c' => some (.option .config)
  | 'l' => some (.option .logLevel)
  | 'h' => some (.inquiry .help)
  | 'V' => some (.inquiry .version)
  | _ => none

/-- How a switch without value is called in messages. -/
def Switch.label (s : Switch) : String :=
  match s with
  | .option slot => slot.label
  | s => "--" ++ ((Switch.names.find? fun n => n.2 = s).map (·.1)).getD ""

/-! ### Errors -/

/-- Why a text is no number of seconds. -/
inductive NumberFault where
  | empty
  | strangeDigit
  | tooLarge
  deriving DecidableEq, Repr

/-- The text of a fault in a number. -/
def NumberFault.message : NumberFault → String
  | .empty => "cannot parse integer from empty string"
  | .strangeDigit => "invalid digit found in string"
  | .tooLarge => "number too large to fit in target type"

/-- Why arguments are refused. -/
inductive UsageError where
  | unexpectedArgument (word : String)
  | unexpectedValue (value : String) (switch : Switch)
  | missingValue (slot : Slot)
  | repeated (switch : Switch)
  | unknownAlgorithm (value : String) (error : ComparisonError)
  | badNumber (value : String) (fault : NumberFault)
  | notText
  | missingPaths (slots : List Slot)
  deriving DecidableEq, Repr

/-- The text of a usage error. -/
def UsageError.message : UsageError → String
  | .unexpectedArgument word => "unexpected argument '" ++ word ++ "' found"
  | .unexpectedValue value switch =>
    "unexpected value '" ++ value ++ "' for '" ++ switch.label
      ++ "' found; no more were expected"
  | .missingValue slot => "a value is required for '" ++ slot.label ++ "' but none was supplied"
  | .repeated switch => "the argument '" ++ switch.label ++ "' cannot be used multiple times"
  | .unknownAlgorithm value error =>
    "invalid value '" ++ value ++ "' for '" ++ Slot.hash.label ++ "': " ++ error.message
  | .badNumber value fault =>
    "invalid value '" ++ value ++ "' for '" ++ Slot.timeout.label ++ "': " ++ fault.message
  | .notText => "invalid UTF-8 was detected in one or more arguments"
  | .missingPaths slots =>
    "the following required arguments were not provided:" ++
      String.join (slots.map fun slot => "\n  " ++ slot.label)

/-- Why the program ends before it compares anything. -/
inductive Stop where
  | refused (e : UsageError)
  | asked (i : Inquiry)
  deriving DecidableEq, Repr

/-! ### Values -/

/-- What has been given so far. -/
structure Given where
  dir1 : Option Bytes
  dir2 : Option Bytes
  config : Option Bytes
  hash : Option HashAlgorithm
  timeout : Option Nat
  logLevel : Option String
  flags : List Flag
  deriving DecidableEq, Repr

/-- Adds a digit to a number that must fit in 64 bits. -/
def addDigit (n : Nat) (c : Char) : Except NumberFault Nat :=
  match Digits.valueIn? 10 c with
  | none => .error .strangeDigit
  | some d => if n * 10 + d < UInt64.size then .ok (n * 10 + d) else .error .tooLarge

/-- Reads a number of seconds; a plus sign may stand in front. -/
def seconds (cs : List Char) : Except NumberFault Nat :=
  match cs with
  | [] => .error .empty
  | ['+'] => .error .strangeDigit
  | '+' :: digits => digits.foldlM addDigit 0
  | digits => digits.foldlM addDigit 0

/-- The path that a value is; it must not be empty. -/
def pathValue (slot : Slot) (value : Bytes) : Except UsageError Bytes :=
  if value = [] then .error (.missingValue slot) else .ok value

/-- The text that a value is. -/
def textValue (value : Bytes) : Except UsageError String :=
  match Utf8.decode? value with
  | some text => .ok text
  | none => .error .notText

namespace Given

/-- Nothing has been given. -/
def nothing : Given := ⟨none, none, none, none, none, none, []⟩

/-- Whether there is a value already. -/
def has (g : Given) : Slot → Bool
  | .dir1 => g.dir1.isSome
  | .dir2 => g.dir2.isSome
  | .config => g.config.isSome
  | .hash => g.hash.isSome
  | .timeout => g.timeout.isSome
  | .logLevel => g.logLevel.isSome

/-- Takes a value. -/
def set (g : Given) (slot : Slot) (value : Bytes) : Except UsageError Given :=
  if g.has slot then .error (.repeated (.option slot))
  else match slot with
  | .dir1 => (pathValue .dir1 value).map fun p => { g with dir1 := some p }
  | .dir2 => (pathValue .dir2 value).map fun p => { g with dir2 := some p }
  | .config => (pathValue .config value).map fun p => { g with config := some p }
  | .hash => do
    let text ← textValue value
    match HashAlgorithm.ofOption text with
    | .ok a => .ok { g with hash := some a }
    | .error e => .error (.unknownAlgorithm text e)
  | .timeout => do
    let text ← textValue value
    match seconds text.toList with
    | .ok n => .ok { g with timeout := some n }
    | .error f => .error (.badNumber text f)
  | .logLevel => do
    let text ← textValue value
    .ok { g with logLevel := some text }

/-- Takes a flag. -/
def raise (g : Given) (flag : Flag) : Except UsageError Given :=
  if flag ∈ g.flags then .error (.repeated (.flag flag))
  else .ok { g with flags := flag :: g.flags }

end Given

/-! ### Words -/

/-- What an argument looks like. -/
inductive Word where
  | separator
  | long (name : Bytes) (value : Option Bytes)
  | short (letters : Bytes)
  | plain
  deriving DecidableEq, Repr

/-- What an argument looks like: two dashes alone, a name after two dashes with or without an equals
sign and a value, letters after one dash, or anything else. -/
def Word.of : Bytes → Word
  | [0x2D, 0x2D] => .separator
  | 0x2D :: 0x2D :: rest =>
    .long (rest.takeWhile (· ≠ 0x3D)) (rest.dropWhile (· ≠ 0x3D)).tail?
  | [0x2D] => .plain
  | 0x2D :: letters => .short letters
  | _ => .plain

/-- The first character of some bytes with the bytes after it, if a character stands there. -/
def firstLetter? (bytes : Bytes) : Option (Char × Bytes) :=
  match Utf8.pieces bytes with
  | .char c :: _ => some (c, bytes.drop c.utf8Size)
  | _ => none

/-! ### Reading -/

/-- How far the arguments have been read: what has been given, the value that is still to be looked
at or to come, how many paths there were, and whether all that follows is a path. -/
structure Progress where
  given : Given
  pending : Option (Slot × Option Bytes)
  paths : Nat
  onlyPaths : Bool

namespace Progress

/-- Before the first argument. -/
def start : Progress := ⟨.nothing, none, 0, false⟩

/-- Takes the value that was still to be looked at. One that was still to come is missing. -/
def settle (p : Progress) : Except UsageError Progress :=
  match p.pending with
  | none => .ok p
  | some (slot, none) => .error (.missingValue slot)
  | some (slot, some value) =>
    (p.given.set slot value).map fun g => { p with given := g, pending := none }

/-- Reads a path. -/
def path (p : Progress) (word : Bytes) : Except UsageError Progress := do
  let slot ← match p.paths with
    | 0 => .ok Slot.dir1
    | 1 => .ok Slot.dir2
    | _ => .error (.unexpectedArgument (Utf8.display word))
  let p ← p.settle
  .ok { p with pending := some (slot, some word), paths := p.paths + 1 }

/-- Reads a switch, with a value if one stands in the same word. -/
def switch (p : Progress) (s : Switch) (value : Option Bytes) : Except Stop Progress :=
  match s, value with
  | .option slot, none => (p.settle.map fun p => { p with pending := some (slot, none) }).mapError
      .refused
  | .option slot, some value => do
    let p ← p.settle.mapError .refused
    let g ← (p.given.set slot value).mapError .refused
    .ok { p with given := g }
  | s, some value => .error (.refused (.unexpectedValue (Utf8.display value) s))
  | .flag flag, none => do
    let p ← p.settle.mapError .refused
    let g ← (p.given.raise flag).mapError .refused
    .ok { p with given := g }
  | .inquiry i, none => do
    let _ ← p.settle.mapError .refused
    .error (.asked i)

/-- The value after the letter of a switch: what is left of the word, without an equals sign in
front, if anything is left. -/
def attached : Bytes → Option Bytes
  | [] => none
  | 0x3D :: value => some value
  | value => some value

/-- Reads an argument. -/
def step (p : Progress) (word : Bytes) : Except Stop Progress :=
  if p.onlyPaths then (p.path word).mapError .refused
  else match Word.of word with
  | .separator => .ok { p with onlyPaths := true }
  | .long name value =>
    match (Utf8.decode? name).bind Switch.ofName? with
    | some s => p.switch s value
    | none => .error (.refused (.unexpectedArgument ("--" ++ Utf8.display name)))
  | .short letters =>
    match firstLetter? letters with
    | none => .error (.refused (.unexpectedArgument ("-" ++ Utf8.display letters)))
    | some (c, rest) =>
      match Switch.ofLetter? c with
      | some (.option slot) => p.switch (.option slot) (attached rest)
      | some s => p.switch s none
      | none => .error (.refused (.unexpectedArgument (String.ofList ['-', c])))
  | .plain =>
    match p.pending with
    | some (slot, none) => .ok { p with pending := some (slot, some word) }
    | _ => (p.path word).mapError .refused

end Progress

/-- The arguments of a comparison. -/
structure Arguments where
  dir1 : Bytes
  dir2 : Bytes
  config : Option Bytes
  hash : Option HashAlgorithm
  timeout : Option Nat
  logLevel : Option String
  flags : List Flag
  deriving DecidableEq, Repr

namespace Arguments

/-- Whether a flag is given. -/
def has (a : Arguments) (flag : Flag) : Bool := flag ∈ a.flags

/-- The arguments that have been given; both paths must be there. -/
def ofGiven (g : Given) : Except UsageError Arguments :=
  match g.dir1, g.dir2 with
  | some a, some b => .ok ⟨a, b, g.config, g.hash, g.timeout, g.logLevel, g.flags⟩
  | a, b =>
    .error (.missingPaths
      ((if a.isNone then [.dir1] else []) ++ (if b.isNone then [.dir2] else [])))

/-- Reads arguments. -/
def parse (words : List Bytes) : Except Stop Arguments := do
  let p ← words.foldlM Progress.step .start
  let p ← p.settle.mapError .refused
  (ofGiven p.given).mapError .refused

end Arguments

end TreeComparison

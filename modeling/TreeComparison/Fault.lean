import TreeComparison.Text.Utf8

/-!
Why an operation on files failed. A fault is a refusal by the system, known by its number, or a bare
kind, or a kind with a text of its own. Each fault has one kind and one message.
-/

namespace TreeComparison

/-- The classes of faults. -/
inductive FaultKind where
  | notFound
  | permissionDenied
  | alreadyExists
  | wouldBlock
  | notADirectory
  | isADirectory
  | filesystemLoop
  | invalidInput
  | invalidData
  | timedOut
  | storageFull
  | resourceBusy
  | invalidFilename
  | tooManyOpenFiles
  | interrupted
  | unsupported
  | unexpectedEof
  | outOfMemory
  | brokenPipe
  | inputOutputError
  | other
  | uncategorized
  deriving DecidableEq, Repr

/-- The name of a class. -/
def FaultKind.name : FaultKind → String
  | .notFound => "NotFound"
  | .permissionDenied => "PermissionDenied"
  | .alreadyExists => "AlreadyExists"
  | .wouldBlock => "WouldBlock"
  | .notADirectory => "NotADirectory"
  | .isADirectory => "IsADirectory"
  | .filesystemLoop => "FilesystemLoop"
  | .invalidInput => "InvalidInput"
  | .invalidData => "InvalidData"
  | .timedOut => "TimedOut"
  | .storageFull => "StorageFull"
  | .resourceBusy => "ResourceBusy"
  | .invalidFilename => "InvalidFilename"
  | .tooManyOpenFiles => "TooManyOpenFiles"
  | .interrupted => "Interrupted"
  | .unsupported => "Unsupported"
  | .unexpectedEof => "UnexpectedEof"
  | .outOfMemory => "OutOfMemory"
  | .brokenPipe => "BrokenPipe"
  | .inputOutputError => "InputOutputError"
  | .other => "Other"
  | .uncategorized => "Uncategorized"

/-- All classes. -/
def FaultKind.all : List FaultKind :=
  [.notFound, .permissionDenied, .alreadyExists, .wouldBlock, .notADirectory, .isADirectory,
    .filesystemLoop, .invalidInput, .invalidData, .timedOut, .storageFull, .resourceBusy,
    .invalidFilename, .tooManyOpenFiles, .interrupted, .unsupported, .unexpectedEof, .outOfMemory,
    .brokenPipe, .inputOutputError, .other, .uncategorized]

/-- The class with a given name. -/
def FaultKind.ofName? (name : String) : Option FaultKind :=
  FaultKind.all.find? fun k => k.name = name

/-- What a class says of itself when nothing more is known. -/
def FaultKind.message : FaultKind → String
  | .notFound => "entity not found"
  | .permissionDenied => "permission denied"
  | .alreadyExists => "entity already exists"
  | .wouldBlock => "operation would block"
  | .notADirectory => "not a directory"
  | .isADirectory => "is a directory"
  | .filesystemLoop => "filesystem loop or indirection limit (e.g. symlink loop)"
  | .invalidInput => "invalid input parameter"
  | .invalidData => "invalid data"
  | .timedOut => "timed out"
  | .storageFull => "no storage space"
  | .resourceBusy => "resource busy"
  | .invalidFilename => "invalid filename"
  | .tooManyOpenFiles => "too many open files"
  | .interrupted => "operation interrupted"
  | .unsupported => "unsupported"
  | .unexpectedEof => "unexpected end of file"
  | .outOfMemory => "out of memory"
  | .brokenPipe => "broken pipe"
  | .inputOutputError => "input/output error"
  | .other => "other error"
  | .uncategorized => "uncategorized error"

/-- A refusal by the system. -/
inductive Refusal where
  | notPermitted
  | noEntry
  | interruptedCall
  | inputOutput
  | noDevice
  | tryAgain
  | noMemory
  | accessDenied
  | exists
  | busy
  | notDirectory
  | isDirectory
  | invalidArgument
  | tooManyFiles
  | noSpace
  | nameTooLong
  | tooManyLinks
  | notSupported
  | unlisted (code : Nat)
  deriving DecidableEq, Repr

/-- The number of a refusal. -/
def Refusal.code : Refusal → Nat
  | .notPermitted => 1
  | .noEntry => 2
  | .interruptedCall => 4
  | .inputOutput => 5
  | .noDevice => 6
  | .tryAgain => 11
  | .noMemory => 12
  | .accessDenied => 13
  | .busy => 16
  | .exists => 17
  | .notDirectory => 20
  | .isDirectory => 21
  | .invalidArgument => 22
  | .tooManyFiles => 24
  | .noSpace => 28
  | .nameTooLong => 36
  | .tooManyLinks => 40
  | .notSupported => 95
  | .unlisted code => code

/-- The refusals that have a text of their own. -/
def Refusal.listed : List Refusal :=
  [.notPermitted, .noEntry, .interruptedCall, .inputOutput, .noDevice, .tryAgain, .noMemory,
    .accessDenied, .busy, .exists, .notDirectory, .isDirectory, .invalidArgument, .tooManyFiles,
    .noSpace, .nameTooLong, .tooManyLinks, .notSupported]

/-- The refusal with a given number. -/
def Refusal.ofCode (code : Nat) : Refusal :=
  (Refusal.listed.find? fun r => r.code = code).getD (.unlisted code)

/-- The text of a refusal, without its number. -/
def Refusal.text : Refusal → String
  | .notPermitted => "Operation not permitted"
  | .noEntry => "No such file or directory"
  | .interruptedCall => "Interrupted system call"
  | .inputOutput => "Input/output error"
  | .noDevice => "No such device or address"
  | .tryAgain => "Resource temporarily unavailable"
  | .noMemory => "Cannot allocate memory"
  | .accessDenied => "Permission denied"
  | .busy => "Device or resource busy"
  | .exists => "File exists"
  | .notDirectory => "Not a directory"
  | .isDirectory => "Is a directory"
  | .invalidArgument => "Invalid argument"
  | .tooManyFiles => "Too many open files"
  | .noSpace => "No space left on device"
  | .nameTooLong => "File name too long"
  | .tooManyLinks => "Too many levels of symbolic links"
  | .notSupported => "Operation not supported"
  | .unlisted code => "Unknown error " ++ toString code

/-- The class of a refusal. -/
def Refusal.kind : Refusal → FaultKind
  | .notPermitted => .permissionDenied
  | .noEntry => .notFound
  | .interruptedCall => .interrupted
  | .inputOutput => .inputOutputError
  | .noDevice => .uncategorized
  | .tryAgain => .wouldBlock
  | .noMemory => .outOfMemory
  | .accessDenied => .permissionDenied
  | .busy => .resourceBusy
  | .exists => .alreadyExists
  | .notDirectory => .notADirectory
  | .isDirectory => .isADirectory
  | .invalidArgument => .invalidInput
  | .tooManyFiles => .tooManyOpenFiles
  | .noSpace => .storageFull
  | .nameTooLong => .invalidFilename
  | .tooManyLinks => .filesystemLoop
  | .notSupported => .unsupported
  | .unlisted _ => .uncategorized

/-- Why an operation on files failed. -/
inductive Fault where
  | system (refusal : Refusal)
  | bare (kind : FaultKind)
  | told (kind : FaultKind) (text : String)
  deriving DecidableEq, Repr

/-- The class of a fault. -/
def Fault.kind : Fault → FaultKind
  | .system r => r.kind
  | .bare k => k
  | .told k _ => k

/-- The text of a fault. A refusal shows its number. -/
def Fault.message : Fault → String
  | .system r => r.text ++ " (os error " ++ toString r.code ++ ")"
  | .bare k => k.message
  | .told _ text => text

/-- What ends a comparison, or the preparation of one. -/
inductive ComparisonError where
  | io (fault : Fault)
  | openRoot (path : Bytes) (fault : Fault)
  | serialization
  | invalidOption (text : String)
  deriving DecidableEq, Repr

/-- The fault behind an error, if there is one. -/
def ComparisonError.fault? : ComparisonError → Option Fault
  | .io f => some f
  | .openRoot _ f => some f
  | .serialization => none
  | .invalidOption _ => none

/-- The text of an error. -/
def ComparisonError.message : ComparisonError → String
  | .io f => "IO error: " ++ f.message
  | .openRoot path f =>
    "Failed to open root directory '" ++ Utf8.display path ++ "': " ++ f.message
  | .serialization => "Serialization error"
  | .invalidOption text => "Invalid option: " ++ text

end TreeComparison

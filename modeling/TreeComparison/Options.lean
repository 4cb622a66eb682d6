import TreeComparison.Digest.Algorithm
import TreeComparison.Json.Parser
import TreeComparison.Json.Printer

/-!
What a comparison can be told: which digest contents are compared by, and whether a record is kept
of skipped operations. Options are read from JSON as an object with the fields `hash_algorithm` and
`strict`, or as an array of these two in order; a field left out has its default.
-/

namespace TreeComparison

/-- A field: its value if it is given and can be read, its default if it is left out. -/
def field? (read : β → Option α) (fallback : α) : Option β → Option α
  | none => some fallback
  | some v => read v

/-- The options of a comparison. -/
structure Options where
  hashAlgorithm : HashAlgorithm
  strict : Bool
  deriving DecidableEq, Repr

namespace Options

/-- The default options. -/
def default : Options := ⟨.sha256, false⟩

instance : Inhabited Options := ⟨default⟩

/-- Reads options from a JSON value. -/
def ofJson? (j : Json) : Option Options :=
  match j.fields? ["hash_algorithm", "strict"] with
  | some [h, s] => do
    let h ← field? (Json.variant? HashAlgorithm.ofTag?) default.hashAlgorithm h
    let s ← field? Json.bool? default.strict s
    some ⟨h, s⟩
  | _ => none

/-- Reads options from JSON text. -/
def parse? (text : String) : Option Options := Json.parse? text >>= ofJson?

/-- Options as a JSON value. -/
def toJson (o : Options) : Json :=
  .record [("hash_algorithm", .text o.hashAlgorithm.tag), ("strict", .bool o.strict)]

end Options

end TreeComparison

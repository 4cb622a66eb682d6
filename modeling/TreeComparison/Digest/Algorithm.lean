import TreeComparison.Digest.Blake3
import TreeComparison.Digest.Sha256
import TreeComparison.Fault
import TreeComparison.Text.Digits
import TreeComparison.Text.LowerCase

/-!
The digests that contents can be compared by. Each has a tag, which stands in front of its digests
and is its name wherever one is written or read.
-/

namespace TreeComparison

/-- A digest for contents. -/
inductive HashAlgorithm where
  | sha256
  | blake3
  deriving DecidableEq, Repr, Inhabited

namespace HashAlgorithm

/-- All digests. -/
def all : List HashAlgorithm := [.sha256, .blake3]

/-- The name of a digest. -/
def tag : HashAlgorithm → String
  | .sha256 => "sha256"
  | .blake3 => "blake3"

/-- The digest with exactly this name. -/
def ofTag? (text : String) : Option HashAlgorithm := all.find? fun a => a.tag = text

/-- The digest that an option names; the case of its letters does not count. -/
def ofOption (text : String) : Except ComparisonError HashAlgorithm :=
  match ofTag? (LowerCase.lowerAscii text) with
  | some a => .ok a
  | none => .error (.invalidOption ("unknown hash algorithm '" ++ LowerCase.lowerAscii text ++ "'"))

/-- The digest of a content, 32 bytes. -/
def digest : HashAlgorithm → Bytes → Bytes
  | .sha256 => Digest.Sha256.digest
  | .blake3 => Digest.Blake3.digest

/-- The digest of a content as text, behind its tag. -/
def fingerprintOf (a : HashAlgorithm) (content : Bytes) : String :=
  a.tag ++ ":" ++ Digits.hex (a.digest content)

end HashAlgorithm

end TreeComparison

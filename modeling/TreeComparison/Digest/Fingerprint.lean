import TreeComparison.Digest.Algorithm

/-!
Fingerprints of a stream. A stream answers each call for bytes with some of them, with none at its
end, or with a fault. It is read in blocks until it ends; an interrupted call is made again, and any
other fault ends the reading.
-/

namespace TreeComparison

/-- What a stream has in store: bytes to hand out, or a fault. Bytes are handed out over as many
calls as they need; no bytes at all mean the end of the stream. -/
inductive Chunk where
  | data (bytes : Bytes)
  | fault (f : Fault)
  deriving DecidableEq, Repr

namespace Stream

/-- How many bytes a call asks for. -/
def blockSize : Nat := 4096

/-- Answers one call for at most `size` bytes, and says what is left of the stream. -/
def read (size : Nat) : List Chunk → Except Fault Bytes × List Chunk
  | [] => (.ok [], [])
  | .fault f :: rest => (.error f, rest)
  | .data bytes :: rest =>
    if bytes.length ≤ size then (.ok bytes, rest)
    else (.ok (bytes.take size), .data (bytes.drop size) :: rest)

/-- What a stream can still give: each chunk counts for one and for its bytes. -/
def weight : List Chunk → Nat
  | [] => 0
  | .fault _ :: rest => weight rest + 1
  | .data bytes :: rest => weight rest + bytes.length + 1

/-- What reading a stream came to. -/
structure Reading where
  /-- The bytes, or the fault that ended the reading. -/
  content : Except Fault Bytes
  /-- How many bytes each call asked for. -/
  asked : List Nat
  /-- What is left of the stream. -/
  rest : List Chunk

/-- The number of calls. -/
def Reading.calls (r : Reading) : Nat := r.asked.length

/-- The reading of a stream of which `bytes` were handed out in one more call before. -/
def Reading.after (bytes : Bytes) (r : Reading) : Reading :=
  ⟨r.content.map (bytes ++ ·), blockSize :: r.asked, r.rest⟩

theorem weight_read_of_ok {chunks rest : List Chunk} {b : UInt8} {bs : Bytes}
    (h : read blockSize chunks = (.ok (b :: bs), rest)) : weight rest < weight chunks := by
  match chunks with
  | [] => simp [read] at h
  | .fault f :: r => simp [read] at h
  | .data bytes :: r =>
    simp only [read] at h
    split at h
    · obtain ⟨-, rfl⟩ := Prod.mk.inj h
      simp only [weight]; omega
    · obtain ⟨-, rfl⟩ := Prod.mk.inj h
      simp only [weight, List.length_drop, blockSize] at *; omega

theorem weight_read_of_error {chunks rest : List Chunk} {f : Fault}
    (h : read blockSize chunks = (.error f, rest)) : weight rest < weight chunks := by
  match chunks with
  | [] => simp [read] at h
  | .fault g :: r =>
    obtain ⟨-, rfl⟩ := Prod.mk.inj (h : (Except.error g, r) = _)
    simp [weight]
  | .data bytes :: r =>
    simp only [read] at h
    split at h <;> simp at h

/-- Reads a stream to its end. -/
def drain (chunks : List Chunk) : Reading :=
  match _answer : read blockSize chunks with
  | (.ok [], rest) => ⟨.ok [], [blockSize], rest⟩
  | (.ok (b :: bs), rest) => (drain rest).after (b :: bs)
  | (.error f, rest) =>
    if f.kind = .interrupted then (drain rest).after [] else ⟨.error f, [blockSize], rest⟩
termination_by weight chunks
decreasing_by
  · exact weight_read_of_ok _answer
  · exact weight_read_of_error _answer

end Stream

/-- The fingerprint of everything a stream holds, or the fault that ended the reading. -/
def fingerprint (a : HashAlgorithm) (chunks : List Chunk) : Except Fault String :=
  (Stream.drain chunks).content.map a.fingerprintOf

end TreeComparison

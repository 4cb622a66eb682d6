import Mathlib.Algebra.GroupWithZero.Nat
import Mathlib.Data.List.DropRight
import TreeComparison.Digest.Fingerprint
import TreeComparison.Proofs.Digits

/-!
Reading a stream block by block. A stream is read up to its stop: a chunk without bytes, or a fault
that is no interruption, or else its end. Each chunk before the stop is handed out in blocks, one
call after the other, and an interruption costs a call and nothing else; so the fingerprint is that
of the bytes before the stop, however they were handed out, and what follows the stop is left in the
stream.
-/

namespace TreeComparison

/-! ### Chunks -/

namespace Chunk

/-- Whether a stream goes on after a chunk: it stops at a chunk without bytes, and at a fault that
is no interruption. -/
def goesOn : Chunk → Bool
  | .data bytes => !bytes.isEmpty
  | .fault f => f.kind = .interrupted

/-- The bytes that a chunk hands out. -/
def bytes : Chunk → Bytes
  | .data bytes => bytes
  | .fault _ => []

/-- Whether a chunk is a fault. -/
def isFault : Chunk → Bool
  | .data _ => false
  | .fault _ => true

/-- The number of blocks that the bytes of a chunk make up; the last one may be short. -/
def blocks (c : Chunk) : Nat := (c.bytes.length + (Stream.blockSize - 1)) / Stream.blockSize

/-- The number of calls that a chunk takes if the stream goes on after it. -/
def calls (c : Chunk) : Nat := c.blocks + if c.isFault then 1 else 0

theorem calls_data (bytes : Bytes) : (data bytes).calls = (data bytes).blocks := rfl

theorem blocks_fault (f : Fault) : (fault f).blocks = 0 := by
  simp [blocks, bytes, Stream.blockSize]

theorem calls_fault (f : Fault) : (fault f).calls = 1 := by
  rw [calls, blocks_fault]; rfl

theorem blocks_of_le {l : Bytes} (hpos : 0 < l.length) (hlen : l.length ≤ Stream.blockSize) :
    (data l).blocks = 1 := by
  simp only [blocks, bytes, Stream.blockSize] at *
  omega

theorem blocks_of_lt {l : Bytes} (hlen : Stream.blockSize < l.length) :
    (data l).blocks = (data (l.drop Stream.blockSize)).blocks + 1 := by
  simp only [blocks, bytes, Stream.blockSize, List.length_drop] at *
  omega

end Chunk

namespace Stream

variable {chunks rest : List Chunk} {c : Chunk} {bytes : Bytes} {f : Fault}

/-- The chunks before the stop. -/
def beforeStop (chunks : List Chunk) : List Chunk := chunks.takeWhile Chunk.goesOn

/-- The stop, if it is not the end of the stream, and all that follows it. -/
def fromStop (chunks : List Chunk) : List Chunk := chunks.dropWhile Chunk.goesOn

/-- The fault at the stop, if there is one. -/
def stopFault? (chunks : List Chunk) : Option Fault :=
  match fromStop chunks with
  | .fault f :: _ => some f
  | _ => none

/-- The bytes before the stop. -/
def contentOf (chunks : List Chunk) : Bytes := (beforeStop chunks).flatMap Chunk.bytes

/-- The stream without the interruptions before its stop. -/
def calm (chunks : List Chunk) : List Chunk :=
  (beforeStop chunks).filter (fun c => !c.isFault) ++ fromStop chunks

section Cons

variable (hc : c.goesOn = true)
include hc

theorem beforeStop_cons_of_goesOn : beforeStop (c :: chunks) = c :: beforeStop chunks :=
  List.takeWhile_cons_of_pos hc

theorem fromStop_cons_of_goesOn : fromStop (c :: chunks) = fromStop chunks :=
  List.dropWhile_cons_of_pos hc

theorem stopFault?_cons_of_goesOn : stopFault? (c :: chunks) = stopFault? chunks := by
  rw [stopFault?, fromStop_cons_of_goesOn hc, ← stopFault?]

theorem contentOf_cons_of_goesOn : contentOf (c :: chunks) = c.bytes ++ contentOf chunks := by
  rw [contentOf, beforeStop_cons_of_goesOn hc, List.flatMap_cons, ← contentOf]

end Cons

/-! ### One call -/

theorem drain_of_end (h : read blockSize chunks = (.ok [], rest)) :
    drain chunks = ⟨.ok [], [blockSize], rest⟩ := by
  rw [drain]
  split
  · rename_i r hr
    rw [h] at hr
    rw [(Prod.mk.inj hr).2]
  · rename_i b bs r hr
    rw [h] at hr; simp at hr
  · rename_i f r hr
    rw [h] at hr; simp at hr

theorem drain_of_bytes (hb : bytes ≠ []) (h : read blockSize chunks = (.ok bytes, rest)) :
    drain chunks = (drain rest).after bytes := by
  rw [drain]
  split
  · rename_i r hr
    rw [h] at hr; simp_all
  · rename_i b bs r hr
    rw [h] at hr
    simp only [Prod.mk.injEq, Except.ok.injEq] at hr
    rw [hr.1, hr.2]
  · rename_i f r hr
    rw [h] at hr; simp at hr

theorem drain_fault : drain (.fault f :: chunks) =
    if f.kind = .interrupted then (drain chunks).after [] else ⟨.error f, [blockSize], chunks⟩ := by
  rw [drain]
  split
  · rename_i r hr
    simp [read] at hr
  · rename_i b bs r hr
    simp [read] at hr
  · rename_i g r hr
    obtain ⟨hg, hr⟩ := Prod.mk.inj (hr : (Except.error f, chunks) = _)
    rw [Except.error.inj hg, hr]

/-! ### One chunk -/

/-- The reading of a stream of which `c` was handed out before. -/
def Reading.afterChunk (c : Chunk) (r : Reading) : Reading :=
  ⟨r.content.map (c.bytes ++ ·), List.replicate c.calls blockSize ++ r.asked, r.rest⟩

/-- A chunk of bytes is handed out block by block. -/
theorem drain_data_cons (hne : bytes ≠ []) :
    drain (.data bytes :: chunks) = (drain chunks).afterChunk (.data bytes) := by
  induction hn : bytes.length using Nat.strongRecOn generalizing bytes with
  | ind n ih =>
    have hpos : 0 < bytes.length := List.length_pos_iff.2 hne
    by_cases hlen : bytes.length ≤ blockSize
    · rw [drain_of_bytes hne (by rw [read, if_pos hlen]), Reading.afterChunk, Chunk.calls_data,
        Chunk.blocks_of_le hpos hlen]
      rfl
    · have hlt : blockSize < bytes.length := Nat.lt_of_not_le hlen
      have htake : bytes.take blockSize ≠ [] := by simp [List.take_eq_nil_iff, hne, blockSize]
      have hdrop : bytes.drop blockSize ≠ [] := mt List.drop_eq_nil_iff.1 hlen
      have hshort : (bytes.drop blockSize).length < n := by
        rw [← hn, List.length_drop]
        exact Nat.sub_lt hpos (by decide)
      have hread : read blockSize (.data bytes :: chunks) =
          (.ok (bytes.take blockSize), .data (bytes.drop blockSize) :: chunks) := by
        rw [read, if_neg hlen]
      rw [drain_of_bytes htake hread, ih _ hshort hdrop rfl, Reading.after, Reading.afterChunk,
        Reading.afterChunk, Chunk.calls_data, Chunk.calls_data, Chunk.blocks_of_lt hlt,
        List.replicate_succ]
      cases (drain chunks).content with
      | error f => rfl
      | ok content =>
        simp only [Except.map, Chunk.bytes, ← List.append_assoc, List.take_append_drop]
        rfl

theorem drain_cons_of_goesOn (hc : c.goesOn = true) :
    drain (c :: chunks) = (drain chunks).afterChunk c := by
  cases c with
  | data bytes =>
    refine drain_data_cons fun hnil => ?_
    rw [hnil] at hc
    cases hc
  | fault f =>
    rw [drain_fault, if_pos (of_decide_eq_true hc), Reading.afterChunk, Chunk.calls_fault]
    rfl

/-- At a stop nothing more is read. -/
theorem drain_cons_of_stop (hc : c.goesOn = false) : drain (c :: chunks) =
    ⟨(stopFault? (c :: chunks)).elim (.ok []) .error, [blockSize], chunks⟩ := by
  have hstop : fromStop (c :: chunks) = c :: chunks := List.dropWhile_cons_of_neg (by simp [hc])
  rw [stopFault?, hstop]
  cases c with
  | data bytes =>
    have hnil : bytes = [] := by simpa [Chunk.goesOn] using hc
    rw [hnil]
    exact drain_of_end rfl
  | fault f => rw [drain_fault, if_neg (of_decide_eq_false hc)]; rfl

/-! ### All chunks -/

/-- A stream is read up to its stop. -/
theorem drain_eq : drain chunks =
    ⟨(stopFault? chunks).elim (.ok (contentOf chunks)) .error,
      List.replicate (((beforeStop chunks).map Chunk.calls).sum + 1) blockSize,
      (fromStop chunks).tail⟩ := by
  induction chunks with
  | nil => exact drain_of_end rfl
  | cons c chunks ih =>
    cases hc : c.goesOn with
    | true =>
      have hasked : ∀ m n, List.replicate m blockSize ++ List.replicate n blockSize =
          List.replicate (m + n) blockSize := fun m n => List.replicate_append_replicate
      rw [drain_cons_of_goesOn hc, ih, contentOf_cons_of_goesOn hc, stopFault?_cons_of_goesOn hc,
        fromStop_cons_of_goesOn hc, beforeStop_cons_of_goesOn hc, List.map_cons, List.sum_cons,
        Reading.afterChunk, hasked, ← Nat.add_assoc]
      cases stopFault? chunks <;> rfl
    | false =>
      have hbefore : beforeStop (c :: chunks) = [] := List.takeWhile_cons_of_neg (by simp [hc])
      have hfrom : fromStop (c :: chunks) = c :: chunks :=
        List.dropWhile_cons_of_neg (by simp [hc])
      rw [drain_cons_of_stop hc, contentOf, hbefore, hfrom]
      rfl

/-- A stream of one content is read to its end. -/
theorem drain_data (content : Bytes) : (drain [.data content]).content = .ok content := by
  cases content with
  | nil => rw [drain_of_end rfl]
  | cons b bs =>
    rw [drain_data_cons (List.cons_ne_nil b bs), drain_of_end rfl]
    simp [Reading.afterChunk, Except.map, Chunk.bytes]

/-! ### Interruptions -/

theorem sum_calls (chunks : List Chunk) : (chunks.map Chunk.calls).sum =
    (chunks.map Chunk.blocks).sum + chunks.countP Chunk.isFault := by
  induction chunks with
  | nil => rfl
  | cons c chunks ih =>
    rw [List.map_cons, List.sum_cons, ih, List.map_cons, List.sum_cons, List.countP_cons,
      Chunk.calls]
    omega

section Faults

variable {l : List Chunk}

/-- A fault hands out no bytes. -/
theorem flatMap_bytes_filter :
    (l.filter fun c => !c.isFault).flatMap Chunk.bytes = l.flatMap Chunk.bytes := by
  induction l with
  | nil => rfl
  | cons c l ih =>
    cases c with
    | data bytes => rw [List.filter_cons_of_pos rfl, List.flatMap_cons, List.flatMap_cons, ih]
    | fault f => rw [List.filter_cons_of_neg Bool.false_ne_true, ih]; rfl

theorem sum_blocks_filter :
    ((l.filter fun c => !c.isFault).map Chunk.blocks).sum = (l.map Chunk.blocks).sum := by
  induction l with
  | nil => rfl
  | cons c l ih =>
    cases c with
    | data bytes => rw [List.filter_cons_of_pos rfl, List.map_cons, List.map_cons, List.sum_cons,
        List.sum_cons, ih]
    | fault f => rw [List.filter_cons_of_neg Bool.false_ne_true, ih, List.map_cons, List.sum_cons,
        Chunk.blocks_fault, Nat.zero_add]

theorem countP_isFault_filter : (l.filter fun c => !c.isFault).countP Chunk.isFault = 0 := by
  rw [List.countP_eq_zero]
  intro c hc
  simpa using (List.mem_filter.1 hc).2

end Faults

theorem fromStop_calm : fromStop (calm chunks) = fromStop chunks := by
  have hbefore : ∀ c ∈ (beforeStop chunks).filter (fun c => !c.isFault), c.goesOn = true :=
    fun c hc => List.mem_takeWhile_imp (List.mem_filter.1 hc).1
  rw [calm, fromStop, List.dropWhile_append_of_pos hbefore]
  exact List.dropWhile_idempotent _ chunks

theorem beforeStop_calm :
    beforeStop (calm chunks) = (beforeStop chunks).filter fun c => !c.isFault := by
  -- the stream is what is before its stop and what is from there on
  have hparts : beforeStop (calm chunks) ++ fromStop (calm chunks) = calm chunks :=
    List.takeWhile_append_dropWhile
  rw [fromStop_calm] at hparts
  exact List.append_cancel_right hparts

theorem calls_drain : (drain chunks).calls =
    ((beforeStop chunks).map Chunk.blocks).sum + (beforeStop chunks).countP Chunk.isFault + 1 := by
  rw [Reading.calls, drain_eq, List.length_replicate, sum_calls]

theorem asked_drain : (drain chunks).asked = List.replicate (drain chunks).calls blockSize := by
  rw [Reading.calls, drain_eq, List.length_replicate]

theorem content_drain_calm : (drain (calm chunks)).content = (drain chunks).content := by
  rw [drain_eq, drain_eq, stopFault?, fromStop_calm, contentOf, beforeStop_calm,
    flatMap_bytes_filter]
  rfl

theorem rest_drain_calm : (drain (calm chunks)).rest = (drain chunks).rest := by
  rw [drain_eq, drain_eq, fromStop_calm]

theorem calls_drain_calm : (drain chunks).calls =
    (drain (calm chunks)).calls + (beforeStop chunks).countP Chunk.isFault := by
  rw [calls_drain, calls_drain, beforeStop_calm, sum_blocks_filter, countP_isFault_filter]
  omega

end Stream

/-! ### Digests -/

theorem Digest.Blake3.length_digest (message : Bytes) : (digest message).length = 32 := by
  have hwords : ∀ b : Block, (b.compress root).length = 8 := fun b => by simp [Block.compress]
  have hbytes : ∀ ws : List UInt32, (ws.flatMap littleEndian).length = 4 * ws.length := by
    intro ws
    induction ws with
    | nil => rfl
    | cons w ws ih =>
      rw [List.flatMap_cons, List.length_append, ih, List.length_cons, littleEndian, bigEndian]
      simp only [List.length_reverse, List.length_cons, List.length_nil]
      omega
  rw [digest, hbytes, hwords]

/-- Digests are 32 bytes long. -/
theorem HashAlgorithm.length_digest (h : HashAlgorithm) (content : Bytes) :
    (h.digest content).length = 32 := by
  cases h with
  | sha256 => rfl
  | blake3 => exact Digest.Blake3.length_digest content

/-- The fingerprint of a stream of one content is that of the content. -/
theorem fingerprint_data (h : HashAlgorithm) (content : Bytes) :
    fingerprint h [.data content] = .ok (h.fingerprintOf content) := by
  rw [fingerprint, Stream.drain_data]; rfl

/-- A fingerprint depends on the bytes before the stop only. If the stop is a fault, it is this
fault; otherwise it is the tag and the 64 digits of the digest of these bytes. Nothing after the
stop is read. Each call asks for a whole block; there is one for each block of a chunk before the
stop, one for each interruption and one for the stop, and without the interruptions there would be
as many calls less and no other change. -/
theorem fingerprint_isOfContent (h : HashAlgorithm) (chunks : List Chunk) :
    (fingerprint h chunks = match Stream.stopFault? chunks with
      | some f => .error f
      | none => .ok (h.tag ++ ":" ++ Digits.hex (h.digest (Stream.contentOf chunks)))) ∧
    (Digits.hex (h.digest (Stream.contentOf chunks))).toList.length = 64 ∧
    (∀ c ∈ (Digits.hex (h.digest (Stream.contentOf chunks))).toList,
      c ∈ "0123456789abcdef".toList) ∧
    (Stream.drain chunks).rest = (Stream.fromStop chunks).tail ∧
    (Stream.drain chunks).asked = List.replicate (Stream.drain chunks).calls 4096 ∧
    (Stream.drain chunks).calls =
      ((Stream.beforeStop chunks).map fun c => (c.bytes.length + 4095) / 4096).sum +
        (Stream.beforeStop chunks).countP Chunk.isFault + 1 ∧
    fingerprint h (Stream.calm chunks) = fingerprint h chunks ∧
    (Stream.drain (Stream.calm chunks)).rest = (Stream.drain chunks).rest ∧
    (Stream.drain chunks).calls = (Stream.drain (Stream.calm chunks)).calls +
      (Stream.beforeStop chunks).countP Chunk.isFault := by
  refine ⟨?_, ?_, fun c => Digits.mem_of_mem_hex, ?_, Stream.asked_drain, Stream.calls_drain, ?_,
    Stream.rest_drain_calm, Stream.calls_drain_calm⟩
  · rw [fingerprint, Stream.drain_eq]
    cases Stream.stopFault? chunks <;> rfl
  · rw [Digits.length_hex, h.length_digest]
  · rw [Stream.drain_eq]
  · rw [fingerprint, fingerprint, Stream.content_drain_calm]

end TreeComparison

import TreeComparison.Text.Utf8

/-!
Words of 32 bits and the two ways of laying them out as bytes, and the cutting of a byte string into
blocks of equal length.
-/

namespace TreeComparison.Digest

/-- Turns a word to the right by `n` bits, for `n` between 1 and 31. -/
def rotateRight (w n : UInt32) : UInt32 := (w >>> n) ||| (w <<< (32 - n))

/-- The four bytes of a word, the most significant first. -/
def bigEndian (w : UInt32) : Bytes :=
  [(w >>> 24).toUInt8, (w >>> 16).toUInt8, (w >>> 8).toUInt8, w.toUInt8]

/-- The four bytes of a word, the least significant first. -/
def littleEndian (w : UInt32) : Bytes := (bigEndian w).reverse

/-- The words that groups of four bytes spell, the most significant byte first. A group cut short
at the end spells nothing. -/
def bigEndianWords : Bytes → List UInt32
  | a :: b :: c :: d :: rest =>
    ((a.toUInt32 <<< 24) ||| (b.toUInt32 <<< 16) ||| (c.toUInt32 <<< 8) ||| d.toUInt32)
      :: bigEndianWords rest
  | _ => []

/-- The words that groups of four bytes spell, the least significant byte first. -/
def littleEndianWords : Bytes → List UInt32
  | a :: b :: c :: d :: rest =>
    (a.toUInt32 ||| (b.toUInt32 <<< 8) ||| (c.toUInt32 <<< 16) ||| (d.toUInt32 <<< 24))
      :: littleEndianWords rest
  | _ => []

/-- Cuts a list into blocks of `size` elements; the last block may be shorter, none is empty. -/
def blocks (size : Nat) (l : List α) : List (List α) :=
  match l with
  | [] => []
  | x :: xs =>
    if size = 0 then [x :: xs]
    else (x :: xs).take size :: blocks size ((x :: xs).drop size)
termination_by l.length
decreasing_by simp [List.length_drop]; omega

end TreeComparison.Digest

import GostSuite.Bytes.Basic

/-!
# Cutting byte strings

Two ways to cut. A block mode cuts a message at every `n`-th byte: `blocks` gives the complete
blocks and what is left, `paddedBlocks` fills the last short one with zeros.

A caller hands a message over in pieces of his own choosing. `pieces` lists such a choice: ranges
that follow each other without a gap from the first byte to the last, their lengths taken in turn
from a list that starts over when it is used up. A wanted length of zero counts as one, so every
piece is nonempty and the list ends; with no lengths at all there is one piece.
-/

set_option autoImplicit false

namespace GostSuite

namespace ByteString

/-- The complete `n`-byte blocks of `s`, and the rest, which is shorter than a block. -/
def blocks (n : Nat) (s : ByteString) : List (Bytes n) × ByteString :=
  if h : 0 < n ∧ (s.take n).length = n then
    let (more, rest) := blocks n (s.drop n)
    (⟨s.take n, h.2⟩ :: more, rest)
  else
    ([], s)
termination_by s.length
decreasing_by
  have := h.2
  simp at this ⊢
  omega

/-- The blocks of `s`, the last one filled with zeros if it is short. The empty string has none. -/
def paddedBlocks (n : Nat) (s : ByteString) : List (Bytes n) :=
  let (whole, rest) := s.blocks n
  if rest.isEmpty then whole else whole ++ [Bytes.padded n rest]

def join {n : Nat} (blocks : List (Bytes n)) : ByteString := blocks.flatMap Bytes.toList

end ByteString

/-- The positions from `start` up to, and not including, `stop`. -/
structure Piece where
  start : Nat
  stop : Nat
  deriving DecidableEq

namespace Piece

def of (p : Piece) (data : ByteString) : ByteString :=
  (data.drop p.start).take (p.stop - p.start)

/-- The length of a piece for which a length was asked. If none was, it is everything. -/
def size (total : Nat) : Option UInt8 → Nat
  | some length => max length.toNat 1
  | none => total

theorem size_pos {total : Nat} (h : 0 < total) (asked : Option UInt8) : 0 < size total asked := by
  unfold size
  split <;> omega

/-- The length wanted for the `i`-th piece of `total` bytes. -/
def wanted (total : Nat) (lengths : List UInt8) (i : Nat) : Nat :=
  size total lengths[i % lengths.length]?

end Piece

/-- Lengths that are asked for one after the other, and from the first one again behind the last. -/
structure Rotation where
  all : List UInt8
  left : List UInt8

namespace Rotation

def start (lengths : List UInt8) : Rotation := ⟨lengths, lengths⟩

/-- The next length, and what follows it. There is always a next one, unless there are none at
all. -/
def next (r : Rotation) : Option UInt8 × Rotation :=
  match r.left with
  | length :: left => (some length, { r with left })
  | [] =>
    match r.all with
    | length :: left => (some length, { r with left })
    | [] => (none, r)

end Rotation

namespace Piece

/-- The pieces from position `start` on, by the lengths that are next in turn. -/
def listFrom (total : Nat) (lengths : Rotation) (start : Nat) : List Piece :=
  if start < total then
    let (asked, lengths) := lengths.next
    let stop := min (start + size total asked) total
    ⟨start, stop⟩ :: listFrom total lengths stop
  else
    []
termination_by total - start
decreasing_by
  have : 0 < size total asked := size_pos (by omega) asked
  omega

end Piece

/-- Cuts `total` bytes into pieces of the wanted lengths, used in turn. -/
def pieces (total : Nat) (lengths : List UInt8) : List Piece :=
  Piece.listFrom total (.start lengths) 0

end GostSuite

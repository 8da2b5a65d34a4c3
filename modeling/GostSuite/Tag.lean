import GostSuite.Bytes.Basic

/-!
# Tags

What a finished message leaves: the first bytes of an encrypted block, as many as were asked for.
A tag is compared as a whole, its length included.
-/

set_option autoImplicit false

namespace GostSuite

/-- The most bytes that a tag can have: a block of the longest cipher. -/
def maxTagLen : Nat := 16

structure Tag where
  bytes : ByteString
  deriving DecidableEq

namespace Tag

def ofBlock {n : Nat} (block : Bytes n) (len : Nat) : Tag := ⟨block.toList.take len⟩

/-- A tag of the length of the block is the block. -/
theorem ofBlock_whole {n : Nat} (block : Bytes n) : ofBlock block n = ⟨block.toList⟩ := by
  rw [ofBlock, List.take_of_length_le (Nat.le_of_eq block.length_toList)]

/-- Whether the tag is `expected`, in length and in every byte. -/
def verify (t : Tag) (expected : ByteString) : Bool := t.bytes == expected

theorem verify_iff (t : Tag) (expected : ByteString) :
    t.verify expected = true ↔ expected = t.bytes := by
  rw [verify, beq_iff_eq, eq_comm]

def report (t : Tag) : String := "Tag(" ++ t.bytes.hex ++ ")"

end Tag

end GostSuite

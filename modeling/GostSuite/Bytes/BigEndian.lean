import GostSuite.Bytes.Basic

/-!
# Byte strings as numbers

Blocks, counters and length fields are big-endian: the first byte weighs most. `value` reads a
string as a number and `bigEndian` writes a number into a fixed width, losing what does not fit.

`increment` is the counter step. It works on the bytes and carries from the last one, as a counter
does in memory, and leaves the bytes alone that no carry reaches; in terms of `value` it adds one
modulo `256 ^ length`. A block counter moves as a whole, or in one half only: the two halves of a
block are two independent counters.
-/

set_option autoImplicit false

namespace GostSuite

namespace ByteString

def value (s : ByteString) : Nat :=
  s.foldl (fun high b => 256 * high + b.toNat) 0

/-- The last `width` base-256 digits of `v`, most significant first. -/
def bigEndian : (width : Nat) → (v : Nat) → ByteString
  | 0, _ => []
  | width + 1, v => bigEndian width (v / 256) ++ [UInt8.ofNat v]

@[simp] theorem length_bigEndian (width v : Nat) : (bigEndian width v).length = width := by
  induction width generalizing v with
  | zero => rfl
  | succ width ih => simp [bigEndian, ih]

/-- Adds one to the byte in front. The byte behind it gets one only if this one runs over. -/
def carry : ByteString → ByteString
  | [] => []
  | b :: more => (b + 1) :: if b = 255 then carry more else more

/-- The next value of a counter, with the carry from the last byte on; a counter of all `ff` returns
to zero. -/
def increment (s : ByteString) : ByteString := (carry s.reverse).reverse

theorem length_carry (s : ByteString) : (carry s).length = s.length := by
  induction s with
  | nil => rfl
  | cons b more ih =>
    simp only [carry]
    split <;> simp [ih]

@[simp] theorem length_increment (s : ByteString) : (increment s).length = s.length := by
  simp [increment, length_carry]

end ByteString

namespace Bytes

variable {n : Nat}

/-- The block as a bit vector: bit `8 n - 1` is the top bit of the first byte. -/
def toBits (b : Bytes n) : BitVec (8 * n) := BitVec.ofNat (8 * n) b.toList.value

def ofBits (v : BitVec (8 * n)) : Bytes n :=
  ⟨ByteString.bigEndian n v.toNat, by simp⟩

def increment (b : Bytes n) : Bytes n := ⟨b.toList.increment, by simp⟩

/-- Steps the leading half as a counter of its own. -/
def incrementLeft (b : Bytes n) : Bytes n :=
  ⟨ByteString.increment (b.toList.take (n / 2)) ++ b.toList.drop (n / 2), by simp; omega⟩

/-- Steps the trailing half as a counter of its own. -/
def incrementRight (b : Bytes n) : Bytes n :=
  ⟨b.toList.take (n / 2) ++ ByteString.increment (b.toList.drop (n / 2)), by simp; omega⟩

end Bytes

end GostSuite

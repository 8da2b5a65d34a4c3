import GostSuite.Bytes.BigEndian

/-!
# Binary fields

The elements of `GF(2^w)` are bit vectors of width `w`: bit `i` is the coefficient of `x^i`, and
addition is the exclusive or. A field is fixed by its reduction polynomial, of which the leading
term `x^w` is left out and the rest is given as `tail`.

The product adds up the multiples `a · x^i` for the bits `i` of the other factor. Each multiple is
the double of the one before, and a double that outgrows the width is brought back by the tail.

Blocks take part as big-endian numbers. The two block lengths of the suite have one field each:

* `x^64 + x^4 + x^3 + x + 1` for blocks of 8 bytes,
* `x^128 + x^7 + x^2 + x + 1` for blocks of 16 bytes.
-/

set_option autoImplicit false

namespace GostSuite

namespace Field

variable {w : Nat}

/-- `a · x`. -/
def double (tail a : BitVec w) : BitVec w :=
  if a.msb then (a <<< 1) ^^^ tail else a <<< 1

/-- The sum of `a · x^i` over the bits `i` of `b` below `count`. -/
def mulBits (tail : BitVec w) : (count : Nat) → (a b : BitVec w) → BitVec w
  | 0, _, _ => 0
  | count + 1, a, b =>
    (if b.getLsbD 0 then a else 0) ^^^ mulBits tail count (double tail a) (b >>> 1)

def mul (tail a b : BitVec w) : BitVec w := mulBits tail w a b

def mul64 (a b : BitVec 64) : BitVec 64 := mul 0x1b a b

def mul128 (a b : BitVec 128) : BitVec 128 := mul 0x87 a b

/-- The tail of the field whose elements are blocks of `n` bytes. -/
def blockTail (n : Nat) : BitVec (8 * n) := if n = 16 then 0x87 else 0x1b

end Field

namespace Bytes

variable {n : Nat}

/-- The product of two blocks in the field of their length. -/
def fieldMul (a b : Bytes n) : Bytes n :=
  ofBits (Field.mul (Field.blockTail n) a.toBits b.toBits)

/-- The block times `x`. -/
def double (a : Bytes n) : Bytes n :=
  ofBits (Field.double (Field.blockTail n) a.toBits)

end Bytes

end GostSuite

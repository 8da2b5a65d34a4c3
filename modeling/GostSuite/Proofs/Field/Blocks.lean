import GostSuite.Cipher.Basic
import GostSuite.Proofs.Bytes.Adding
import GostSuite.Proofs.Field.Irreducible

/-!
# Products of blocks

A block of either length is an element of its field. The product of two blocks is taken on their
bits, so it inherits what the fields have: it is additive, and it is zero only if a factor is.

These are the two facts that an authenticated sum rests on. Additivity says that a changed block
changes the sum by the product of its factor with the change; the absence of zero divisors says
that this product vanishes only with the factor.
-/

set_option autoImplicit false

namespace GostSuite

namespace Field

/-- The modulus of the blocks of every algorithm is irreducible. -/
theorem irreducible_blockModulus (a : Algorithm) :
    Irreducible (modulus (blockTail a.blockLen)) := by
  have h64 : Irreducible (modulus (0x1b : BitVec 64)) := irreducible_modulus rfl squares_64
  have h128 : Irreducible (modulus (0x87 : BitVec 128)) := irreducible_modulus rfl squares_128
  cases a with
  | magma => exact h64
  | kuznyechik => exact h128
  | gost89 => exact h64

end Field

namespace Bytes

variable {n : Nat}

theorem fieldMul_xor [BlockSize n] (a b c : Bytes n) :
    a.fieldMul (b ^^^ c) = a.fieldMul b ^^^ a.fieldMul c := by
  have hn : 0 < n := BlockSize.pos
  apply toBits_injective
  rw [toBits_xor, fieldMul, fieldMul, fieldMul, toBits_ofBits, toBits_ofBits, toBits_ofBits,
    toBits_xor, Field.mul_xor (by omega)]

theorem fieldMul_comm [BlockSize n] (a b : Bytes n) : a.fieldMul b = b.fieldMul a := by
  have hn : 0 < n := BlockSize.pos
  rw [fieldMul, fieldMul, Field.mul_comm (by omega)]

/-- The block of the polynomial `x`. -/
def fieldX (n : Nat) : Bytes n := ofBits 2

theorem fieldX_fieldMul [BlockSize n] (b : Bytes n) : (fieldX n).fieldMul b = b.double := by
  have hn : 0 < n := BlockSize.pos
  rw [fieldMul, fieldX, toBits_ofBits, Field.two_mul (by omega), double]

theorem fieldMul_eq_zero_iff {a : Algorithm} (x y : Block a) :
    x.fieldMul y = zero a.blockLen ↔ x = zero a.blockLen ∨ y = zero a.blockLen := by
  have hn := a.blockLen_pos
  have hzero : ∀ b : Block a, b = zero a.blockLen ↔ b.toBits = 0#(8 * a.blockLen) := by
    intro b
    rw [← toBits_injective.eq_iff, toBits_zero]
  rw [hzero, hzero, hzero, fieldMul, toBits_ofBits]
  exact Field.mul_eq_zero_iff (by omega) (Field.irreducible_blockModulus a) x.toBits y.toBits

end Bytes

end GostSuite

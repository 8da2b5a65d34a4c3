import GostSuite.Proofs.Field.Blocks

/-!
# The products of the two fields

A word of 64 or 128 bits is a polynomial over `ZMod 2` of degree below its width, and it is the only
one of that degree in its class modulo the reduction polynomial. So the product of two words has a
definition that mentions no loop: multiply the polynomials, which is the product without carries, and
take the remainder (`poly_mul`). The laws of the product are those of the classes, and every class is
that of a word (`residue_bijective`). So nothing of the field is left out: the classes modulo an
irreducible polynomial have inverses, and therefore the words have inverses, although the suite
computes none.
-/

set_option autoImplicit false

namespace GostSuite

namespace Field

open Polynomial

variable {w : Nat} {tail : BitVec w}

/-! ## 1. Words are remainders -/

/-- Doubling one again and again gives the powers of `x`. -/
theorem residue_repeat_double (hw : 0 < w) (tail : BitVec w) (i : Nat) :
    residue tail (Nat.repeat (double tail) i 1) = AdjoinRoot.root (modulus tail) ^ i := by
  induction i with
  | zero => rw [Nat.repeat, residue_one hw, pow_zero]
  | succ i ih => rw [Nat.repeat, residue_double hw, ih, pow_succ']

/-- A class is a sum of powers of `x`, and so it is the class of a word. -/
theorem residue_surjective (hw : 0 < w) (tail : BitVec w) : Function.Surjective (residue tail) := by
  intro c
  obtain ⟨p, rfl⟩ := AdjoinRoot.mk_surjective c
  induction p using Polynomial.induction_on' with
  | add p q hp hq =>
    obtain ⟨a, ha⟩ := hp
    obtain ⟨b, hb⟩ := hq
    exact ⟨a ^^^ b, by rw [residue_xor, ha, hb, map_add]⟩
  | monomial i x =>
    have hx : x = 0 ∨ x = 1 := by
      revert x
      decide
    rcases hx with rfl | rfl
    · exact ⟨0#w, by rw [residue_zero, monomial_zero_right, map_zero]⟩
    · refine ⟨Nat.repeat (double tail) i 1, ?_⟩
      rw [residue_repeat_double hw, monomial_one_right_eq_X_pow, map_pow, AdjoinRoot.mk_X]

theorem residue_bijective (hw : 0 < w) (tail : BitVec w) : Function.Bijective (residue tail) :=
  ⟨residue_injective tail, residue_surjective hw tail⟩

/-- **The product is a remainder**, that of the product without carries. -/
theorem poly_mul (hw : 0 < w) (a b : BitVec w) :
    poly (mul tail a b) = (poly a * poly b) %ₘ modulus tail := by
  have hmonic := modulus_monic tail
  have hsame : modulus tail ∣ poly (mul tail a b) - poly a * poly b := by
    have hclass : residue tail (mul tail a b) = residue tail a * residue tail b :=
      residue_mul hw a b
    rw [residue, residue, residue, ← map_mul] at hclass
    exact AdjoinRoot.mk_eq_mk.mp hclass
  have hsmall : (poly (mul tail a b)).degree < (modulus tail).degree := by
    rw [degree_modulus]
    exact degree_poly_lt _
  rw [← modByMonic_eq_of_dvd_sub hmonic hsame, (modByMonic_eq_self_iff hmonic).mpr hsmall]

/-! ## 2. Laws of the product -/

/-- The inverse of a class is the class of a word. -/
theorem exists_inverse (hw : 0 < w) (hirreducible : Irreducible (modulus tail)) {a : BitVec w}
    (ha : a ≠ 0) : ∃ b, mul tail a b = 1 := by
  have : Fact (Irreducible (modulus tail)) := ⟨hirreducible⟩
  have hzero : residue tail (0#w) = 0 := residue_zero
  have hne : residue tail a ≠ 0 := by
    rw [← hzero]
    exact (residue_injective tail).ne ha
  obtain ⟨b, hb⟩ := residue_surjective hw tail (residue tail a)⁻¹
  refine ⟨b, residue_injective tail ?_⟩
  rw [residue_mul hw, hb, residue_one hw, mul_inv_cancel₀ hne]

/-- The product of the field of classes modulo `m`, on the words that are their representatives. -/
structure FieldProduct (m : (ZMod 2)[X]) (product : BitVec w → BitVec w → BitVec w) : Prop where
  irreducible : Irreducible m
  /-- Each class has one word. -/
  represents : Function.Bijective fun a : BitVec w => AdjoinRoot.mk m (poly a)
  reduced (a b : BitVec w) : poly (product a b) = (poly a * poly b) %ₘ m
  comm (a b : BitVec w) : product a b = product b a
  assoc (a b c : BitVec w) : product (product a b) c = product a (product b c)
  xor (a b c : BitVec w) : product a (b ^^^ c) = product a b ^^^ product a c
  one (a : BitVec w) : product 1 a = a
  eq_zero_iff (a b : BitVec w) : product a b = 0 ↔ a = 0 ∨ b = 0
  inverse (a : BitVec w) (h : a ≠ 0) : ∃ b, product a b = 1

theorem fieldProduct_mul (hw : 0 < w) (hirreducible : Irreducible (modulus tail)) :
    FieldProduct (modulus tail) (mul tail) where
  irreducible := hirreducible
  represents := residue_bijective hw tail
  reduced := poly_mul hw
  comm := Field.mul_comm hw
  assoc := Field.mul_assoc hw
  xor := mul_xor hw
  one := Field.one_mul hw
  eq_zero_iff := mul_eq_zero_iff hw hirreducible
  inverse _ := exists_inverse hw hirreducible

/-! ## 3. The two reduction polynomials -/

theorem modulus_64 : modulus (0x1b : BitVec 64) = X ^ 64 + X ^ 4 + X ^ 3 + X + 1 := by
  have htail : (0x1b : BitVec 64) =
      .twoPow 64 4 ^^^ .twoPow 64 3 ^^^ .twoPow 64 1 ^^^ .twoPow 64 0 := by
    decide
  rw [modulus, htail, poly_xor, poly_xor, poly_xor, poly_twoPow (by decide),
    poly_twoPow (by decide), poly_twoPow (by decide), poly_twoPow (by decide), pow_one, pow_zero]
  ring

theorem modulus_128 : modulus (0x87 : BitVec 128) = X ^ 128 + X ^ 7 + X ^ 2 + X + 1 := by
  have htail : (0x87 : BitVec 128) =
      .twoPow 128 7 ^^^ .twoPow 128 2 ^^^ .twoPow 128 1 ^^^ .twoPow 128 0 := by
    decide
  rw [modulus, htail, poly_xor, poly_xor, poly_xor, poly_twoPow (by decide),
    poly_twoPow (by decide), poly_twoPow (by decide), poly_twoPow (by decide), pow_one, pow_zero]
  ring

/-- **The products of the suite are those of two fields.** Words are read as polynomials, bit `i`
being the coefficient of `x^i`. Then the products of words are the products without carries, modulo
`x^64 + x^4 + x^3 + x + 1` and `x^128 + x^7 + x^2 + x + 1`; these are irreducible, and the products
have all laws of a field. Blocks are multiplied as the numbers that they are, and doubling a block is
multiplying it by the block of the number two. -/
theorem products_are_field_products :
    FieldProduct (X ^ 64 + X ^ 4 + X ^ 3 + X + 1) mul64 ∧
      FieldProduct (X ^ 128 + X ^ 7 + X ^ 2 + X + 1) mul128 ∧
      (∀ b c : Bytes 8, (b.fieldMul c).toBits = mul64 b.toBits c.toBits) ∧
      (∀ b c : Bytes 16, (b.fieldMul c).toBits = mul128 b.toBits c.toBits) ∧
      ∀ (a : Algorithm) (b : Block a), (Bytes.fieldX a.blockLen).toList.value = 2 ∧
        b.double = b.fieldMul (Bytes.fieldX a.blockLen) := by
  refine ⟨?_, ?_, fun b c => Bytes.toBits_ofBits _, fun b c => Bytes.toBits_ofBits _, ?_⟩
  · rw [← modulus_64]
    exact fieldProduct_mul (by decide) (irreducible_blockModulus .magma)
  · rw [← modulus_128]
    exact fieldProduct_mul (by decide) (irreducible_blockModulus .kuznyechik)
  · intro a b
    refine ⟨?_, ?_⟩
    · cases a <;> rfl
    · rw [Bytes.fieldMul_comm, Bytes.fieldX_fieldMul]

end Field

end GostSuite

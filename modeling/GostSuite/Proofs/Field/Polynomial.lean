import GostSuite.Field
import Mathlib.Algebra.CharP.Two
import Mathlib.Algebra.Field.ZMod
import Mathlib.Data.ZMod.Basic
import Mathlib.RingTheory.AdjoinRoot

/-!
# Bit vectors are polynomials

The product of the suite is a loop over bits: it doubles one factor, reduces it by the tail, and
adds up. That it is a product at all, commutative or additive or with a one, cannot be seen from
the loop. It is seen from what the bits stand for. `poly` reads a bit vector as a polynomial over
`ZMod 2`, `modulus` is the reduction polynomial with its leading term back in place, and

> `residue` takes a bit vector to its class modulo that polynomial. It is injective, it turns
> exclusive or into addition, and it turns the loop into the product of the ring
> (`residue_injective`, `residue_xor`, `residue_mul`).

Every law of the product is then the law of the ring, carried back. Nothing here asks for the
modulus to be irreducible; for any tail at all, bit vectors are a ring.
-/

set_option autoImplicit false

namespace GostSuite

namespace Field

open Polynomial

variable {w : Nat}

/-! ## 1. Reading bits as coefficients -/

/-- The polynomial of a bit vector: bit `i` is the coefficient of `X ^ i`. -/
noncomputable def poly (a : BitVec w) : (ZMod 2)[X] :=
  ∑ i ∈ Finset.range w, if a.getLsbD i then X ^ i else 0

@[simp] theorem poly_zero : poly 0#w = 0 := by
  simp [poly]

theorem poly_xor (a b : BitVec w) : poly (a ^^^ b) = poly a + poly b := by
  rw [poly, poly, poly, ← Finset.sum_add_distrib]
  refine Finset.sum_congr rfl fun i _ => ?_
  rw [BitVec.getLsbD_xor]
  cases a.getLsbD i with
  | false => cases b.getLsbD i <;> simp
  | true =>
    cases b.getLsbD i with
    | false => simp
    | true =>
      simp only [Bool.xor_self, Bool.false_eq_true, if_false, if_true]
      exact (CharTwo.add_self_eq_zero _).symm

theorem coeff_poly (a : BitVec w) (i : Nat) :
    (poly a).coeff i = if a.getLsbD i then 1 else 0 := by
  have hterm : ∀ j, (if a.getLsbD j then (X : (ZMod 2)[X]) ^ j else 0).coeff i =
      if i = j then (if a.getLsbD i then 1 else 0) else 0 := by
    intro j
    by_cases hij : i = j
    · subst hij
      cases a.getLsbD i <;> simp
    · cases a.getLsbD j <;> simp [hij, coeff_X_pow]
  rw [poly, finsetSum_coeff]
  simp only [hterm]
  rw [Finset.sum_ite_eq]
  by_cases hi : i < w
  · rw [if_pos (Finset.mem_range.mpr hi)]
  · rw [if_neg (fun h => hi (Finset.mem_range.mp h)), BitVec.getLsbD_of_ge a i (by omega)]
    rfl

theorem poly_twoPow {i : Nat} (hi : i < w) : poly (BitVec.twoPow w i) = X ^ i := by
  ext j
  rw [coeff_poly, BitVec.getLsbD_twoPow, coeff_X_pow]
  simp [hi, eq_comm]

theorem poly_injective : Function.Injective (poly (w := w)) := by
  intro a b h
  refine BitVec.eq_of_getLsbD_eq fun i _ => ?_
  have hcoeff : (poly a).coeff i = (poly b).coeff i := by rw [h]
  rw [coeff_poly, coeff_poly] at hcoeff
  -- a bit is read off its coefficient, since one is not zero in `ZMod 2`
  revert hcoeff
  cases a.getLsbD i <;> cases b.getLsbD i <;> decide

theorem degree_poly_lt (a : BitVec w) : (poly a).degree < w := by
  refine (degree_lt_iff_coeff_zero _ _).mpr fun i hi => ?_
  rw [coeff_poly, BitVec.getLsbD_of_ge a i hi]
  rfl

/-- Shifting up is multiplying by `X`, as long as the top bit is counted where it falls out. -/
theorem X_mul_poly (hw : 0 < w) (a : BitVec w) :
    X * poly a = poly (a <<< 1) + if a.msb then X ^ w else 0 := by
  ext i
  rw [coeff_add, coeff_poly, BitVec.getLsbD_shiftLeft]
  cases i with
  | zero =>
    have hw0 : ¬(0 = w) := by omega
    cases a.msb <;> simp [coeff_X_pow, hw0]
  | succ i =>
    rw [coeff_X_mul, coeff_poly, Nat.add_sub_cancel]
    have hmsb : a.msb = a.getLsbD (w - 1) := BitVec.msb_eq_getLsbD_last a
    by_cases hi : i + 1 < w
    · have hne : ¬(i + 1 = w) := by omega
      cases a.msb <;> simp [coeff_X_pow, hi, hne]
    · by_cases hlast : i + 1 = w
      · have hi1 : w - 1 = i := by omega
        rw [hmsb, hi1]
        cases a.getLsbD i <;> simp [coeff_X_pow, hlast]
      · rw [BitVec.getLsbD_of_ge a i (by omega)]
        cases a.msb <;> simp [coeff_X_pow, hi, hlast]

/-! ## 2. Classes modulo the reduction polynomial -/

/-- The reduction polynomial: its leading term and the tail. -/
noncomputable def modulus (tail : BitVec w) : (ZMod 2)[X] := X ^ w + poly tail

theorem modulus_monic (tail : BitVec w) : (modulus tail).Monic :=
  monic_X_pow_add (degree_poly_lt tail)

theorem natDegree_modulus (tail : BitVec w) : (modulus tail).natDegree = w :=
  natDegree_eq_of_degree_eq_some <| by
    rw [modulus, degree_add_eq_left_of_degree_lt, degree_X_pow]
    rw [degree_X_pow]
    exact degree_poly_lt tail

theorem degree_modulus (tail : BitVec w) : (modulus tail).degree = w := by
  rw [degree_eq_natDegree (modulus_monic tail).ne_zero, natDegree_modulus]

/-- The class of a bit vector modulo the reduction polynomial. -/
noncomputable def residue (tail a : BitVec w) : AdjoinRoot (modulus tail) :=
  AdjoinRoot.mk (modulus tail) (poly a)

variable {tail : BitVec w}

@[simp] theorem residue_zero : residue tail 0#w = 0 := by
  rw [residue, poly_zero, map_zero]

theorem residue_xor (a b : BitVec w) :
    residue tail (a ^^^ b) = residue tail a + residue tail b := by
  rw [residue, poly_xor, map_add]
  rfl

/-- A class has one representative that fits the width. -/
theorem residue_injective (tail : BitVec w) : Function.Injective (residue tail) := by
  intro a b h
  have hdvd : modulus tail ∣ poly a - poly b := AdjoinRoot.mk_eq_mk.mp h
  have hdegree : (poly a - poly b).degree < (modulus tail).degree := by
    rw [degree_modulus]
    exact (degree_sub_le _ _).trans_lt (max_lt (degree_poly_lt a) (degree_poly_lt b))
  have hzero : poly a - poly b = 0 := by
    by_contra hne
    exact (modulus_monic tail).not_dvd_of_degree_lt hne hdegree hdvd
  exact poly_injective (sub_eq_zero.mp hzero)

/-- In the classes, `X ^ w` is the tail. -/
theorem root_pow_width :
    AdjoinRoot.root (modulus tail) ^ w = residue tail tail := by
  have hmk : AdjoinRoot.mk (modulus tail) (X ^ w + poly tail) = 0 := AdjoinRoot.mk_self
  have htwo : AdjoinRoot.mk (modulus tail) (poly tail + poly tail) = 0 := by
    rw [CharTwo.add_self_eq_zero, map_zero]
  rw [map_add, map_pow, AdjoinRoot.mk_X] at hmk
  rw [map_add] at htwo
  exact add_right_cancel (hmk.trans htwo.symm)

theorem residue_double (hw : 0 < w) (a : BitVec w) :
    residue tail (double tail a) = AdjoinRoot.root (modulus tail) * residue tail a := by
  have hshift := congrArg (AdjoinRoot.mk (modulus tail)) (X_mul_poly hw a)
  rw [map_mul, AdjoinRoot.mk_X, map_add] at hshift
  change _ * residue tail a = residue tail (a <<< 1) + _ at hshift
  rw [double, hshift]
  cases a.msb with
  | true => rw [if_pos rfl, if_pos rfl, residue_xor, map_pow, AdjoinRoot.mk_X, root_pow_width]
  | false =>
    rw [if_neg Bool.false_ne_true, if_neg Bool.false_ne_true, map_zero, add_zero]

/-- The loop adds up the multiples of the first factor by the powers that the second one names. -/
theorem residue_mulBits (hw : 0 < w) (count : Nat) (a b : BitVec w) :
    residue tail (mulBits tail count a b) =
      residue tail a * ∑ i ∈ Finset.range count,
        if b.getLsbD i then AdjoinRoot.root (modulus tail) ^ i else 0 := by
  induction count generalizing a b with
  | zero => simp [mulBits]
  | succ count ih =>
    have hfirst : residue tail (if b.getLsbD 0 then a else 0) =
        residue tail a * if b.getLsbD 0 then 1 else 0 := by
      cases b.getLsbD 0 <;> simp
    have hrest : ∀ i, (if b.getLsbD (i + 1) then AdjoinRoot.root (modulus tail) ^ (i + 1) else 0) =
        AdjoinRoot.root (modulus tail) *
          if (b >>> 1).getLsbD i then AdjoinRoot.root (modulus tail) ^ i else 0 := by
      intro i
      rw [BitVec.getLsbD_ushiftRight, Nat.add_comm 1 i]
      cases b.getLsbD (i + 1) <;> simp [pow_succ']
    rw [mulBits, residue_xor, ih, residue_double hw, hfirst, Finset.sum_range_succ']
    simp only [hrest, ← Finset.mul_sum, pow_zero]
    ring

/-- **The loop is the product of the ring.** -/
theorem residue_mul (hw : 0 < w) (a b : BitVec w) :
    residue tail (mul tail a b) = residue tail a * residue tail b := by
  have hb : (∑ i ∈ Finset.range w,
      if b.getLsbD i then AdjoinRoot.root (modulus tail) ^ i else 0) = residue tail b := by
    rw [residue, poly, map_sum]
    refine Finset.sum_congr rfl fun i _ => ?_
    cases b.getLsbD i <;> simp
  rw [mul, residue_mulBits hw, hb]

/-! ## 3. Laws of the product -/

theorem residue_one (hw : 0 < w) : residue tail 1 = 1 := by
  have hone : (1 : BitVec w) = BitVec.twoPow w 0 := by
    apply BitVec.eq_of_toNat_eq
    simp [BitVec.toNat_twoPow]
  rw [residue, hone, poly_twoPow hw, pow_zero, map_one]

theorem mul_xor (hw : 0 < w) (a b c : BitVec w) :
    mul tail a (b ^^^ c) = mul tail a b ^^^ mul tail a c := by
  apply residue_injective tail
  rw [residue_xor, residue_mul hw, residue_mul hw, residue_mul hw, residue_xor, mul_add]

protected theorem mul_comm (hw : 0 < w) (a b : BitVec w) : mul tail a b = mul tail b a := by
  apply residue_injective tail
  rw [residue_mul hw, residue_mul hw, mul_comm]

protected theorem mul_assoc (hw : 0 < w) (a b c : BitVec w) :
    mul tail (mul tail a b) c = mul tail a (mul tail b c) := by
  apply residue_injective tail
  rw [residue_mul hw, residue_mul hw, residue_mul hw, residue_mul hw, mul_assoc]

protected theorem one_mul (hw : 0 < w) (a : BitVec w) : mul tail 1 a = a := by
  apply residue_injective tail
  rw [residue_mul hw, residue_one hw, one_mul]

end Field

end GostSuite

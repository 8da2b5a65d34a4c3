import GostSuite.Proofs.Field.Polynomial
import Mathlib.FieldTheory.Finite.Extension
import Mathlib.RingTheory.Polynomial.UniqueFactorization

/-!
# The two fields

Bit vectors are a ring for any tail. For the two tails of the suite they are a field, which is to
say that a product is zero only if a factor is. That is what a forgery has to get around, so it is
proved here and not taken from a table.

The width is a power of two, `w = 2 * h`, and this makes one test enough. Squaring `x` as often as
the width has bits gives `x` back, so the degree of every irreducible factor divides `w`. A factor
of smaller degree has a degree that divides `h`, and for such a factor squaring `x` only `h` times
would give `x` back. It does not: what comes out differs from `x` by a unit. So there is one factor,
the modulus itself (`irreducible_modulus`).

The test is run on the bits, with the product of the suite. `Squares` holds its two halves and the
inverse that shows the unit.
-/

set_option autoImplicit false

namespace GostSuite

namespace Field

open Polynomial

/-! ## 1. The test -/

variable {w : Nat} {tail : BitVec w}

def square (tail a : BitVec w) : BitVec w := mul tail a a

/-- `middle` is `x` squared `h` times over; the same again gives `x` back, and `middle` differs from
`x` by something that `inverse` divides. -/
structure Squares (tail : BitVec w) (h : Nat) (middle inverse : BitVec w) : Prop where
  reach : Nat.repeat (square tail) h 2 = middle
  back : Nat.repeat (square tail) h middle = 2
  unit : mul tail inverse (middle ^^^ 2) = 1

theorem residue_square (hw : 0 < w) (tail : BitVec w) (count : Nat) (a : BitVec w) :
    residue tail (Nat.repeat (square tail) count a) = residue tail a ^ 2 ^ count := by
  induction count with
  | zero => rw [pow_zero, pow_one, Nat.repeat]
  | succ count ih => rw [Nat.repeat, square, residue_mul hw, ih, ← pow_two, ← pow_mul, ← pow_succ]

theorem residue_two (hw : 1 < w) : residue tail 2 = AdjoinRoot.root (modulus tail) := by
  have htwo : (2 : BitVec w) = BitVec.twoPow w 1 := by
    apply BitVec.eq_of_toNat_eq
    simp [BitVec.toNat_twoPow]
  rw [residue, htwo, poly_twoPow hw, pow_one, AdjoinRoot.mk_X]

/-- Doubling is the product with `x`. -/
protected theorem two_mul (hw : 1 < w) (a : BitVec w) : mul tail 2 a = double tail a := by
  have hw0 : 0 < w := by omega
  apply residue_injective tail
  rw [residue_mul hw0, residue_two hw, residue_double hw0]

/-! ## 2. Irreducibility -/

/-- The modulus divides what squaring `x` through the whole width adds to `x`. -/
theorem Squares.dvd {h : Nat} {middle inverse : BitVec w}
    (hs : Squares tail h middle inverse) (hw : 1 < w) :
    modulus tail ∣ X ^ 2 ^ (h + h) - X := by
  have hw0 : 0 < w := by omega
  have hmiddle := residue_square hw0 tail h 2
  have hback := residue_square hw0 tail h middle
  rw [hs.reach, residue_two hw] at hmiddle
  rw [hs.back, residue_two hw, hmiddle, ← pow_mul, ← pow_add] at hback
  rw [← AdjoinRoot.mk_eq_zero, map_sub, map_pow, AdjoinRoot.mk_X, ← hback, sub_self]

/-- Squaring `x` half way does not give `x` back, not even modulo a factor. -/
theorem Squares.not_dvd {h : Nat} {middle inverse : BitVec w}
    (hs : Squares tail h middle inverse) (hw : 1 < w) {g : (ZMod 2)[X]}
    (hg : Irreducible g) (hdvd : g ∣ modulus tail) : ¬g ∣ X ^ 2 ^ h - X := by
  intro hhalf
  have hw0 : 0 < w := by omega
  have hmiddle := residue_square hw0 tail h 2
  have hunit := congrArg (residue tail) hs.unit
  rw [hs.reach, residue_two hw] at hmiddle
  rw [residue_mul hw0, residue_xor, hmiddle, residue_two hw, residue_one hw0] at hunit
  -- the same equation between polynomials, modulo the modulus and so modulo its factor
  have hmodulus : modulus tail ∣ poly inverse * (X ^ 2 ^ h + X) - 1 := by
    rw [← AdjoinRoot.mk_eq_zero, map_sub, map_mul, map_add, map_pow, AdjoinRoot.mk_X, map_one]
    exact sub_eq_zero.mpr hunit
  have hplus : g ∣ poly inverse * (X ^ 2 ^ h + X) := by
    rw [← CharTwo.sub_eq_add]
    exact hhalf.mul_left _
  have hone : g ∣ 1 := by
    have hsub := dvd_sub hplus (hdvd.trans hmodulus)
    rwa [sub_sub_cancel] at hsub
  exact hg.not_isUnit (isUnit_of_dvd_one hone)

/-- **A modulus whose width is a power of two, and that passes the test, is irreducible.** -/
theorem irreducible_modulus {k : Nat} {middle inverse : BitVec w} (hw : w = 2 ^ (k + 1))
    (hs : Squares tail (2 ^ k) middle inverse) : Irreducible (modulus tail) := by
  have hpos : 0 < 2 ^ k := Nat.two_pow_pos k
  have hsucc : 2 ^ (k + 1) = 2 ^ k + 2 ^ k := by rw [pow_succ]; omega
  have hw1 : 1 < w := by omega
  have hdegree := natDegree_modulus tail
  obtain ⟨g, hg, f, hgf⟩ :=
    exists_irreducible_of_natDegree_ne_zero (f := modulus tail) (by rw [hdegree]; omega)
  have hgdvd : g ∣ modulus tail := ⟨f, hgf⟩
  have hcard : Nat.card (ZMod 2) = 2 := Nat.card_zmod 2
  have hwhole := hg.natDegree_dvd_of_dvd_X_pow_card_pow_sub_X (n := 2 ^ (k + 1)) (by
    rw [hcard, hsucc]
    exact hgdvd.trans (hs.dvd hw1))
  obtain ⟨j, hj, hgdegree⟩ := (Nat.dvd_prime_pow Nat.prime_two).mp hwhole
  have hfull : g.natDegree = w := by
    rcases Nat.lt_or_ge k j with hkj | hjk
    · rw [hgdegree, hw, show j = k + 1 by omega]
    · refine absurd ?_ (hs.not_dvd hw1 hg hgdvd)
      have hhalf : g.natDegree ∣ 2 ^ k := hgdegree ▸ pow_dvd_pow 2 hjk
      have hdvd := hg.natDegree_dvd_iff_dvd_X_pow_card_pow_sub_X.mp hhalf
      rwa [hcard] at hdvd
  -- the cofactor has degree zero, so the factor is the modulus up to a unit
  have hne : modulus tail ≠ 0 := (modulus_monic tail).ne_zero
  rw [hgf] at hne
  have hcofactor : f.natDegree = 0 := by
    have hsum := natDegree_mul (left_ne_zero_of_mul hne) (right_ne_zero_of_mul hne)
    rw [← hgf, hdegree, hfull] at hsum
    omega
  have hunit : IsUnit f := by
    rw [eq_C_of_natDegree_eq_zero hcofactor, isUnit_C, isUnit_iff_ne_zero]
    intro hzero
    rw [eq_C_of_natDegree_eq_zero hcofactor, hzero, C_0, mul_zero] at hne
    exact hne rfl
  rw [hgf]
  exact (irreducible_mul_isUnit hunit).mpr hg

/-! ## 3. The fields of the suite -/

theorem squares_64 :
    Squares (0x1b : BitVec 64) (2 ^ 5) 0x5c62236777028505 0x53cad161bf5a89c7 where
  reach := by decide +kernel
  back := by decide +kernel
  unit := by decide +kernel

theorem squares_128 :
    Squares (0x87 : BitVec 128) (2 ^ 6) 0x61651fea6b5832b944e598a795a299f6
      0x9e4af928ddbc838a41a8cafd2c95b018 where
  reach := by decide +kernel
  back := by decide +kernel
  unit := by decide +kernel

/-- A tail whose modulus is irreducible leaves no zero divisors. -/
theorem mul_eq_zero_iff (hw : 0 < w) (hirreducible : Irreducible (modulus tail)) (a b : BitVec w) :
    mul tail a b = 0 ↔ a = 0 ∨ b = 0 := by
  have hzero : ∀ c : BitVec w, c = 0#w ↔ modulus tail ∣ poly c := by
    intro c
    rw [← AdjoinRoot.mk_eq_zero, ← (residue_injective tail).eq_iff (a := c), residue_zero]
    rfl
  change mul tail a b = 0#w ↔ a = 0#w ∨ b = 0#w
  rw [hzero a, hzero b, ← (residue_injective tail).eq_iff, residue_mul hw, residue_zero, residue,
    residue, ← map_mul, AdjoinRoot.mk_eq_zero, hirreducible.prime.dvd_mul]

end Field

end GostSuite

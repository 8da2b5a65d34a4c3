import GostSuite.Proofs.Bytes.Masking
import GostSuite.Proofs.Cipher.Kuznyechik
import GostSuite.Proofs.Field.Product

/-!
# The linear map of Kuznyechik

The map is computed in three ways: from tables when a block is encrypted, by multiplication when a
round constant is made, and backward when a block is decrypted. Decryption undoes encryption even if
the first two disagree, for then the round keys are wrong in both directions; so agreement has to be
shown, and it has to be agreement with something outside of all three.

That something is the register of the standard, over the field of 256 elements (`registerStep`). A
byte is the class of a polynomial modulo `x^8 + x^7 + x^6 + x + 1` (`element`), and what the register
takes in is the byte whose class is the inner product with the coefficients. No bit is shifted there
and no table is read.

Being additive is what makes the map linear. It comes from the products and goes through a step of
the register (`step_xor`), and so through sixteen.
-/

set_option autoImplicit false

namespace GostSuite

namespace Kuznyechik

open Polynomial

/-! ## 1. The field of bytes -/

/-- The polynomial that products of bytes are reduced by. -/
noncomputable def reduction : (ZMod 2)[X] := X ^ 8 + X ^ 7 + X ^ 6 + X + 1

/-- The class of a byte, bit `i` being the coefficient of `x^i`. -/
noncomputable def element (b : UInt8) : AdjoinRoot reduction :=
  AdjoinRoot.mk reduction (Field.poly b.toBitVec)

theorem modulus_8 : Field.modulus (0xc3 : BitVec 8) = reduction := by
  have htail : (0xc3 : BitVec 8) =
      .twoPow 8 7 ^^^ .twoPow 8 6 ^^^ .twoPow 8 1 ^^^ .twoPow 8 0 := by
    decide
  rw [Field.modulus, htail, Field.poly_xor, Field.poly_xor, Field.poly_xor,
    Field.poly_twoPow (by decide), Field.poly_twoPow (by decide), Field.poly_twoPow (by decide),
    Field.poly_twoPow (by decide), pow_one, pow_zero, reduction]
  ring

theorem squares_8 : Field.Squares (0xc3 : BitVec 8) (2 ^ 2) 0x1f 0x23 where
  reach := by decide +kernel
  back := by decide +kernel
  unit := by decide +kernel

theorem irreducible_reduction : Irreducible reduction := by
  rw [← modulus_8]
  exact Field.irreducible_modulus rfl squares_8

theorem element_bijective : Function.Bijective element := by
  have hbits : Function.Bijective UInt8.toBitVec :=
    ⟨fun _ _ h => UInt8.toBitVec_inj.mp h, fun v => ⟨UInt8.ofBitVec v, rfl⟩⟩
  have hclass : Function.Bijective (Field.residue (0xc3 : BitVec 8)) :=
    Field.residue_bijective (by decide) _
  unfold Field.residue at hclass
  rw [modulus_8] at hclass
  exact hclass.comp hbits

theorem element_zero : element 0 = 0 := by
  unfold element
  rw [← modulus_8]
  exact Field.residue_zero

theorem element_xor (a b : UInt8) : element (a ^^^ b) = element a + element b := by
  unfold element
  rw [← modulus_8, UInt8.toBitVec_xor]
  exact Field.residue_xor a.toBitVec b.toBitVec

theorem element_mul (a b : UInt8) : element (mul a b) = element a * element b := by
  unfold element
  rw [← modulus_8, toBitVec_mul]
  exact Field.residue_mul (by decide) a.toBitVec b.toBitVec

/-! ## 2. The register of the standard -/

/-- The byte whose class is the inner product of a state with the coefficients. -/
noncomputable def inner (s : State) : UInt8 :=
  (Equiv.ofBijective element element_bijective).symm
    (List.zipWith (fun c b => element c * element b) coefficients s.toList).sum

theorem element_inner (s : State) :
    element (inner s) =
      (List.zipWith (fun c b => element c * element b) coefficients s.toList).sum :=
  (Equiv.ofBijective element element_bijective).apply_symm_apply _

/-- `R(a_15, …, a_0) = (l(a_15, …, a_0), a_15, …, a_1)`, where `l` is the inner product. -/
noncomputable def registerStep (s : State) : State := shiftIn (inner s) s

theorem element_innerProduct (cs : List UInt8) (s : ByteString) :
    element (innerProduct mul cs s) =
      (List.zipWith (fun c b => element c * element b) cs s).sum := by
  induction cs generalizing s with
  | nil => exact element_zero
  | cons c cs ih =>
    cases s with
    | nil => exact element_zero
    | cons b s =>
      rw [innerProduct, element_xor, element_mul, ih, List.zipWith_cons_cons, List.sum_cons]

theorem combineDirect_eq (s : State) : combineDirect s.toList = inner s := by
  apply element_bijective.injective
  rw [element_inner, combineDirect, element_innerProduct]

theorem step_eq_registerStep : step = registerStep := by
  funext s
  rw [step_eq, combine_eq_combineDirect, combineDirect_eq, registerStep]

theorem stepDirect_eq_registerStep : stepDirect = registerStep := by
  funext s
  rw [stepDirect_eq, combineDirect_eq, registerStep]

/-! ## 3. Sums of states -/

theorem innerProduct_xorOnto (cs : List UInt8) {s t : ByteString} (h : s.length = t.length) :
    innerProduct mul cs (s.xorOnto t) = innerProduct mul cs s ^^^ innerProduct mul cs t := by
  induction cs generalizing s t with
  | nil => simp [innerProduct]
  | cons c cs ih =>
    cases s with
    | nil =>
      obtain rfl : t = [] := List.length_eq_zero_iff.mp h.symm
      simp [ByteString.xorOnto, innerProduct]
    | cons b s =>
      cases t with
      | nil => exact absurd h (by simp)
      | cons d t =>
        rw [ByteString.xorOnto, innerProduct, innerProduct, innerProduct, mul_xor,
          ih (by simpa using h)]
        ac_rfl

theorem shiftIn_xor (x y : UInt8) (s t : State) :
    shiftIn (x ^^^ y) (s ^^^ t) = shiftIn x s ^^^ shiftIn y t := by
  have hlen : s.toList.length = t.toList.length := by rw [s.length_toList, t.length_toList]
  apply Bytes.ext
  show (x ^^^ y) :: (s.toList.xorOnto t.toList).dropLast =
    (x ^^^ y) :: ByteString.xorOnto s.toList.dropLast t.toList.dropLast
  rw [ByteString.dropLast_xorOnto hlen]

theorem step_xor (s t : State) : step (s ^^^ t) = step s ^^^ step t := by
  have hlen : s.toList.length = t.toList.length := by rw [s.length_toList, t.length_toList]
  rw [step_eq, step_eq, step_eq, ← shiftIn_xor, combine_eq_combineDirect, combine_eq_combineDirect,
    combine_eq_combineDirect, Bytes.toList_xor, combineDirect, innerProduct_xorOnto _ hlen]
  rfl

theorem linear_xor (s t : State) : linear (s ^^^ t) = linear s ^^^ linear t := by
  have h : Function.Semiconj₂ step (· ^^^ ·) (· ^^^ ·) := step_xor
  rw [linear, linear, linear, repeat_eq_iterate, repeat_eq_iterate, repeat_eq_iterate]
  exact h.iterate 16 s t

/-! ## 4. The linear map -/

/-- **The three computations of the linear map are one.** Read from tables and multiplied out, it is
sixteen steps of the register over the field of 256 elements that `x^8 + x^7 + x^6 + x + 1` makes,
where adding bytes is adding classes and `mul` is the product. It takes sums to sums, and the
register run backward is its inverse on either side. -/
theorem linear_law :
    (Irreducible (X ^ 8 + X ^ 7 + X ^ 6 + X + 1 : (ZMod 2)[X]) ∧ Function.Bijective element ∧
      ∀ a b, element (a ^^^ b) = element a + element b ∧
        element (mul a b) = element a * element b) ∧
      (∀ s, linear s = linearDirect s ∧ linear s = registerStep^[16] s ∧
        linearDirect s = registerStep^[16] s) ∧
      (∀ s t, linear (s ^^^ t) = linear s ^^^ linear t) ∧
      ∀ s, linearInverse (linear s) = s ∧ linear (linearInverse s) = s := by
  have hlinear : ∀ s, linear s = registerStep^[16] s := by
    intro s
    rw [linear, repeat_eq_iterate, step_eq_registerStep]
  have hdirect : ∀ s, linearDirect s = registerStep^[16] s := by
    intro s
    rw [linearDirect, repeat_eq_iterate, stepDirect_eq_registerStep]
  refine ⟨⟨irreducible_reduction, element_bijective, fun a b => ?_⟩, fun s => ?_, linear_xor,
    fun s => ?_⟩
  · exact ⟨element_xor a b, element_mul a b⟩
  · exact ⟨(hlinear s).trans (hdirect s).symm, hlinear s, hdirect s⟩
  · exact ⟨linearInverse_linear s, linear_linearInverse s⟩

end Kuznyechik

end GostSuite

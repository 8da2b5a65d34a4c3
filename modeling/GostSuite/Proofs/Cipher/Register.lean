import GostSuite.Cipher.Kuznyechik
import GostSuite.Proofs.Field.Polynomial

/-!
# The register of Kuznyechik, step by step

The cipher writes its shift register down three times: one turns the state round and overwrites its
front, one copies the bytes up place by place, one turns the other way and clears the end first. It
also multiplies bytes by a loop of its own, which stops at the last bit and does not count to eight.
None of these differences can be seen from outside, and this file is where they end:

> a step forward puts a byte in front and drops the last one (`step_eq`, `stepDirect_eq`), a step
> backward drops the first one and puts a byte at the end (`toList_stepBack`), and the loop is the
> product of the field (`toBitVec_mul`).

Which byte is put there is not the matter of this file. Nothing is said of the coefficients.
-/

set_option autoImplicit false

namespace GostSuite

namespace Field

theorem mulBits_zero {w : Nat} (tail : BitVec w) (count : Nat) (a : BitVec w) :
    mulBits tail count a 0#w = 0#w := by
  induction count generalizing a with
  | zero => rfl
  | succ count ih => simp [mulBits, ih]

end Field

namespace Kuznyechik

/-! ## 1. Products of bytes -/

/-- Masking a byte with one bit leaves the mask or nothing. -/
theorem and_mask {mask : UInt8} {i : Nat} (hmask : mask.toBitVec = BitVec.twoPow 8 i) (a : UInt8) :
    a &&& mask = if a.toBitVec.getLsbD i then mask else 0 := by
  apply UInt8.toBitVec_inj.mp
  rw [UInt8.toBitVec_and, hmask, BitVec.and_twoPow]
  split
  · exact hmask.symm
  · rfl

theorem toBitVec_timesX (a : UInt8) : (timesX a).toBitVec = Field.double 0xc3 a.toBitVec := by
  have hshift : (a <<< 1).toBitVec = a.toBitVec <<< 1 := by simp
  have htop : a.toBitVec.msb = a.toBitVec.getLsbD 7 := BitVec.msb_eq_getLsbD_last _
  have hmask : (0x80 : UInt8).toBitVec = BitVec.twoPow 8 7 := by decide
  unfold timesX Field.double
  rw [and_mask hmask, htop]
  cases a.toBitVec.getLsbD 7 with
  | false => exact hshift
  | true =>
    show (a <<< 1).toBitVec ^^^ _ = _
    rw [hshift]
    rfl

/-- A loop that ends with the last bit adds up what a loop over any larger number of bits does. -/
theorem toBitVec_addProduct {count : Nat} {sum a b : UInt8} (h : b.toNat < 2 ^ count) :
    (addProduct sum a b).toBitVec =
      sum.toBitVec ^^^ Field.mulBits 0xc3 count a.toBitVec b.toBitVec := by
  induction count generalizing sum a b with
  | zero =>
    obtain rfl : b = 0 := UInt8.toNat_inj.mp (by simpa using h)
    simp [addProduct, Field.mulBits]
  | succ count ih =>
    rw [addProduct]
    split
    case isTrue hb =>
      subst hb
      simp [Field.mulBits_zero]
    case isFalse hb =>
      have hrest : (b >>> 1).toNat < 2 ^ count := by
        simp [Nat.shiftRight_eq_div_pow]
        omega
      have hshift : (b >>> 1).toBitVec = b.toBitVec >>> 1 := by simp
      have hmask : (1 : UInt8).toBitVec = BitVec.twoPow 8 0 := by decide
      rw [ih hrest, toBitVec_timesX, hshift, Field.mulBits, ← BitVec.xor_assoc, and_mask hmask]
      congr 1
      cases b.toBitVec.getLsbD 0 <;> simp

theorem toBitVec_mul (a b : UInt8) :
    (mul a b).toBitVec = Field.mul 0xc3 a.toBitVec b.toBitVec := by
  unfold mul
  rw [toBitVec_addProduct b.toNat_lt]
  exact BitVec.zero_xor

theorem mul_one_left (x : UInt8) : mul 1 x = x := by
  apply UInt8.toBitVec_inj.mp
  rw [toBitVec_mul]
  exact Field.one_mul (by decide) x.toBitVec

theorem mul_xor (a b c : UInt8) : mul a (b ^^^ c) = mul a b ^^^ mul a c := by
  apply UInt8.toBitVec_inj.mp
  rw [UInt8.toBitVec_xor, toBitVec_mul, toBitVec_mul, toBitVec_mul, UInt8.toBitVec_xor]
  exact Field.mul_xor (by decide) a.toBitVec b.toBitVec c.toBitVec

/-! ## 2. Movements -/

/-- Puts a byte in front of a state and drops its last byte. -/
def shiftIn (x : UInt8) (s : State) : State := ⟨x :: s.toList.dropLast, by simp⟩

theorem put_put (s : State) (place : Nat) (x y : UInt8) :
    put (put s place x) place y = put s place y :=
  Bytes.ext (List.set_set ..)

theorem getElem?_put (s : State) (place : Nat) (x : UInt8) (k : Nat) :
    (put s place x).toList[k]? = if place = k ∧ k < 16 then some x else s.toList[k]? := by
  show (s.toList.set place x)[k]? = _
  rw [List.getElem?_set, s.length_toList]
  by_cases hk : place = k
  · subst hk
    by_cases hlt : place < 16 <;> simp [hlt]
  · simp [hk]

/-- Copying from the last place down overwrites no byte before it has been copied. -/
theorem getElem?_moveUp {last : Nat} (hlast : last < 16) (s : State) (k : Nat) :
    (moveUp last s).toList[k]? = if 0 < k ∧ k ≤ last then s.toList[k - 1]? else s.toList[k]? := by
  induction last generalizing s with
  | zero =>
    have hk : ¬(0 < k ∧ k ≤ 0) := by omega
    rw [if_neg hk]
    rfl
  | succ last ih =>
    have hcopy : some (s.toList.getD last 0) = s.toList[last]? := by
      simp [List.getD, s.length_toList, show last < 16 by omega]
    rw [moveUp, ih (by omega), getElem?_put, getElem?_put, hcopy]
    by_cases htop : k = last + 1
    · subst htop
      simp [hlast]
    · by_cases hmoved : 0 < k ∧ k ≤ last
      · have hfree : ¬(last + 1 = k - 1 ∧ k - 1 < 16) := by omega
        rw [if_pos hmoved, if_neg hfree, if_pos ⟨hmoved.1, by omega⟩]
      · have hfree : ¬(last + 1 = k ∧ k < 16) := by omega
        rw [if_neg hmoved, if_neg hfree, if_neg (by omega)]

theorem put_moveUp (s : State) (x : UInt8) : put (moveUp 15 s) 0 x = shiftIn x s := by
  apply Bytes.ext
  apply List.ext_getElem?
  intro k
  rw [getElem?_put, getElem?_moveUp (by decide)]
  show _ = (x :: s.toList.dropLast)[k]?
  cases k with
  | zero => rfl
  | succ k =>
    rw [List.getElem?_cons_succ, List.getElem?_dropLast, s.length_toList]
    by_cases hk : k < 15
    · rw [if_neg (by omega), if_pos (by omega), if_pos hk]
      rfl
    · rw [if_neg (by omega), if_neg (by omega), if_neg hk, List.getElem?_eq_none]
      rw [s.length_toList]
      omega

theorem step_eq (s : State) : step s = shiftIn (combine s.toList) s := rfl

theorem stepDirect_eq (s : State) : stepDirect s = shiftIn (combineDirect s.toList) s :=
  put_moveUp s _

theorem toList_put_rotateLeft (s : State) (x : UInt8) :
    (put (rotateLeft s) 15 x).toList = s.toList.tail ++ [x] := by
  have hlen : s.toList.tail.length = 15 := by simp
  show (s.toList.tail ++ [s.toList.headD 0]).set 15 x = _
  rw [List.set_append_right _ _ (by omega), hlen]
  rfl

/-- The cleared place at the end is the one that the byte goes to. -/
theorem toList_stepBack (s : State) :
    (stepBack s).toList =
      s.toList.tail ++ [s.toList.headD 0 ^^^ combine (s.toList.tail ++ [0])] := by
  unfold stepBack
  simp only
  rw [put_put, toList_put_rotateLeft, toList_put_rotateLeft]

end Kuznyechik

end GostSuite

import GostSuite.Proofs.Bytes.Counting
import Mathlib.Data.Nat.Bitwise

/-!
# Adding blocks

Blocks are added byte by byte, and read as numbers bit by bit. The two agree:

> `toBits` is one to one on blocks, and takes their sum to the exclusive or of bit vectors
> (`toBits_injective`, `toBits_xor`).

So blocks of one length are a group in which every block is its own inverse, and each law of that
group is the law of bit vectors. A cipher that adds a key takes it off by adding it again; a sum of
blocks does not care for their order.
-/

set_option autoImplicit false

namespace GostSuite

namespace ByteString

/-- Numbers over one base `2 ^ k` are added digit by digit. -/
theorem xor_digits (x y : Nat) {u v k : Nat} (hu : u < 2 ^ k) (hv : v < 2 ^ k) :
    (x * 2 ^ k + u) ^^^ (y * 2 ^ k + v) = (x ^^^ y) * 2 ^ k + (u ^^^ v) := by
  have huv : u ^^^ v < 2 ^ k := Nat.xor_lt_two_pow hu hv
  apply Nat.eq_of_testBit_eq
  intro i
  rw [Nat.mul_comm x, Nat.mul_comm y, Nat.mul_comm (x ^^^ y), Nat.testBit_xor,
    Nat.testBit_two_pow_mul_add x hu, Nat.testBit_two_pow_mul_add y hv,
    Nat.testBit_two_pow_mul_add (x ^^^ y) huv]
  split
  · rw [Nat.testBit_xor]
  · rw [Nat.testBit_xor]

theorem value_xorOnto {s t : ByteString} (h : s.length = t.length) :
    value (s.xorOnto t) = value s ^^^ value t := by
  induction s generalizing t with
  | nil =>
    cases t with
    | nil => rfl
    | cons => simp at h
  | cons b s ih =>
    cases t with
    | nil => simp at h
    | cons c t =>
      have hlen : s.length = t.length := by simpa using h
      have hs := value_lt s
      have ht := value_lt t
      rw [hlen, base_pow] at hs
      rw [base_pow] at ht
      rw [xorOnto, value_cons, value_cons, value_cons, length_xorOnto, ih hlen, hlen, base_pow,
        xor_digits _ _ hs ht, UInt8.toNat_xor]

end ByteString

namespace Bytes

variable {n : Nat}

/-! ## 1. Blocks and bit vectors -/

theorem toNat_toBits (b : Bytes n) : b.toBits.toNat = b.toList.value := by
  have h := ByteString.value_lt b.toList
  rw [b.length_toList, ByteString.base_pow] at h
  rw [toBits, BitVec.toNat_ofNat, Nat.mod_eq_of_lt h]

theorem ofBits_toBits (b : Bytes n) : ofBits b.toBits = b := by
  have h := ByteString.bigEndian_value b.toList
  rw [b.length_toList] at h
  apply ext
  change ByteString.bigEndian n b.toBits.toNat = b.toList
  rw [toNat_toBits, h]

theorem toBits_ofBits (v : BitVec (8 * n)) : (ofBits v : Bytes n).toBits = v := by
  apply BitVec.eq_of_toNat_eq
  rw [toNat_toBits, ofBits, ByteString.value_bigEndian, ByteString.base_pow,
    Nat.mod_eq_of_lt v.isLt]

theorem toBits_injective : Function.Injective (toBits (n := n)) :=
  Function.LeftInverse.injective ofBits_toBits

theorem toBits_xor (a b : Bytes n) : (a ^^^ b).toBits = a.toBits ^^^ b.toBits := by
  apply BitVec.eq_of_toNat_eq
  rw [BitVec.toNat_xor, toNat_toBits, toNat_toBits, toNat_toBits, toList_xor,
    ByteString.value_xorOnto (by rw [a.length_toList, b.length_toList])]

theorem toBits_zero : (zero n).toBits = 0#(8 * n) := by
  have hvalue : ∀ k, ByteString.value (List.replicate k 0) = 0 := by
    intro k
    induction k with
    | zero => rfl
    | succ k ih => rw [List.replicate_succ, ByteString.value_cons, ih]; simp
  apply BitVec.eq_of_toNat_eq
  rw [toNat_toBits, toList_zero, hvalue, BitVec.toNat_ofNat, Nat.zero_mod]

/-! ## 2. The group of blocks -/

theorem xor_comm (a b : Bytes n) : a ^^^ b = b ^^^ a := by
  apply toBits_injective
  rw [toBits_xor, toBits_xor, BitVec.xor_comm]

theorem xor_assoc (a b c : Bytes n) : a ^^^ b ^^^ c = a ^^^ (b ^^^ c) := by
  apply toBits_injective
  rw [toBits_xor, toBits_xor, toBits_xor, toBits_xor, BitVec.xor_assoc]

theorem xor_self (a : Bytes n) : a ^^^ a = zero n := by
  apply toBits_injective
  rw [toBits_xor, BitVec.xor_self, toBits_zero]

theorem xor_zero (a : Bytes n) : a ^^^ zero n = a := by
  apply toBits_injective
  rw [toBits_xor, toBits_zero, BitVec.xor_zero]

/-- Adding a block twice takes it off again. -/
theorem xor_xor_cancel_right (a b : Bytes n) : a ^^^ b ^^^ b = a := by
  rw [xor_assoc, xor_self, xor_zero]

theorem xor_right_bijective (b : Bytes n) : Function.Bijective (· ^^^ b) :=
  Function.Involutive.bijective fun a => xor_xor_cancel_right a b

theorem xor_left_bijective (b : Bytes n) : Function.Bijective (b ^^^ ·) := by
  have hright : (b ^^^ ·) = (· ^^^ b) := funext (xor_comm b)
  rw [hright]
  exact xor_right_bijective b

theorem xor_left_inj {a b c : Bytes n} : a ^^^ c = b ^^^ c ↔ a = b := by
  constructor
  · intro h
    have hc : a ^^^ c ^^^ c = b ^^^ c ^^^ c := by rw [h]
    rwa [xor_xor_cancel_right, xor_xor_cancel_right] at hc
  · intro h
    rw [h]

theorem xor_right_inj {a b c : Bytes n} : c ^^^ a = c ^^^ b ↔ a = b := by
  rw [xor_comm c a, xor_comm c b, xor_left_inj]

theorem xor_eq_zero_iff {a b : Bytes n} : a ^^^ b = zero n ↔ a = b := by
  constructor
  · intro h
    have hb : a ^^^ b ^^^ b = zero n ^^^ b := by rw [h]
    rwa [xor_xor_cancel_right, xor_comm, xor_zero] at hb
  · intro h
    rw [h, xor_self]

/-- Adding a block changes nothing only if it is zero. -/
theorem left_eq_xor_iff {a b : Bytes n} : a = a ^^^ b ↔ b = zero n := by
  rw [← xor_eq_zero_iff, ← xor_assoc, xor_self, xor_comm, xor_zero]

end Bytes

end GostSuite

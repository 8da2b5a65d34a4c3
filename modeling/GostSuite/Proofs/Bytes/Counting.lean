import GostSuite.Bytes.BigEndian
import Mathlib.Data.List.Induction
import Mathlib.Data.Nat.ModEq
import Mathlib.Tactic.Ring

/-!
# Counters are numbers

`increment` walks over bytes and carries, and every mode of the suite steps its counter with it.
What a mode promises is said in numbers: block `i` of a stream is made from the initial counter
plus `i`, modulo a power of two. This file is the way from the one to the other.

> the `i`-th step of a counter is its value plus `i`, written in the same width
> (`increment_plus`, `incrementLeft_plusLeft`, `incrementRight_plusRight`).

The sums `plus`, `plusLeft` and `plusRight` are arithmetic and nothing else: read the bytes as a
number, add, write the number back. They are what a statement about a mode should mention, because
they can be checked against a standard without knowing how the carry is done.
-/

set_option autoImplicit false

namespace GostSuite

namespace ByteString

/-! ## 1. Reading and writing numbers -/

/-- The value with the digits so far as an accumulator; `value` starts it at zero. -/
theorem foldl_value (s : ByteString) (high : Nat) :
    s.foldl (fun high b => 256 * high + b.toNat) high = high * 256 ^ s.length + value s := by
  induction s generalizing high with
  | nil => simp [value]
  | cons b s ih =>
    rw [value, List.foldl_cons, List.foldl_cons, ih, ih (256 * 0 + b.toNat), List.length_cons]
    ring

theorem value_append (s t : ByteString) :
    value (s ++ t) = value s * 256 ^ t.length + value t := by
  rw [value, List.foldl_append, foldl_value]
  rfl

theorem value_cons (b : UInt8) (s : ByteString) :
    value (b :: s) = b.toNat * 256 ^ s.length + value s := by
  rw [← List.singleton_append, value_append]
  simp [value]

theorem value_concat (s : ByteString) (b : UInt8) : value (s ++ [b]) = value s * 256 + b.toNat := by
  rw [value_append]
  simp [value]

theorem value_lt (s : ByteString) : value s < 256 ^ s.length := by
  induction s with
  | nil => simp [value]
  | cons b s ih =>
    have hb : (b.toNat + 1) * 256 ^ s.length ≤ 256 * 256 ^ s.length :=
      Nat.mul_le_mul_right _ b.toNat_lt
    rw [value_cons, List.length_cons, pow_succ']
    rw [Nat.succ_mul] at hb
    omega

theorem base_pow (k : Nat) : 256 ^ k = 2 ^ (8 * k) := by
  rw [pow_mul]
  norm_num

theorem value_bigEndian (width v : Nat) : value (bigEndian width v) = v % 256 ^ width := by
  induction width generalizing v with
  | zero => simp [bigEndian, value, Nat.mod_one]
  | succ width ih =>
    have hlast : (UInt8.ofNat v).toNat = v % 256 := by simp
    rw [bigEndian, value_append, ih, pow_succ', Nat.mod_mul]
    simp only [value, List.foldl_cons, List.foldl_nil, List.length_singleton, pow_one, hlast]
    ring

/-- Writing a number back into the width that it was read from restores the string. -/
theorem bigEndian_value (s : ByteString) : bigEndian s.length (value s) = s := by
  induction s using List.reverseRecOn with
  | nil => rfl
  | append_singleton s b ih =>
    have hv := value_concat s b
    have hb : b.toNat < 256 := b.toNat_lt
    have hdiv : value (s ++ [b]) / 256 = value s := by omega
    have hlast : UInt8.ofNat (value (s ++ [b])) = b := by
      apply UInt8.toNat_inj.mp
      simp only [UInt8.toNat_ofNat']
      omega
    rw [List.length_append, List.length_singleton, bigEndian, hdiv, ih, hlast]

/-- What does not fit the width is lost, so a number counts modulo the width. -/
theorem bigEndian_mod (width v : Nat) : bigEndian width (v % 256 ^ width) = bigEndian width v := by
  have h := bigEndian_value (bigEndian width v)
  rwa [length_bigEndian, value_bigEndian] at h

/-- A number that fits its width is read back. -/
theorem bigEndian_injOn {width v w : Nat} (hv : v < 256 ^ width) (hw : w < 256 ^ width)
    (h : bigEndian width v = bigEndian width w) : v = w := by
  have hvalue := congrArg value h
  rwa [value_bigEndian, value_bigEndian, Nat.mod_eq_of_lt hv, Nat.mod_eq_of_lt hw] at hvalue

/-- A number is written into fewer bytes by leaving out the leading ones. -/
theorem drop_bigEndian (extra width v : Nat) :
    (bigEndian (extra + width) v).drop extra = bigEndian width v := by
  induction width generalizing v with
  | zero =>
    exact List.drop_eq_nil_of_le (Nat.le_of_eq (length_bigEndian _ v))
  | succ width ih =>
    have hle : extra ≤ (bigEndian (extra + width) (v / 256)).length := by
      rw [length_bigEndian]
      exact Nat.le_add_right ..
    change (bigEndian (extra + width) (v / 256) ++ [UInt8.ofNat v]).drop extra = _
    rw [List.drop_append_of_le_length hle, ih]
    rfl

/-! ## 2. The carry -/

/-- Read from its end, a string with a carry at its front has grown by one. -/
theorem value_carry (s : ByteString) :
    value (carry s).reverse = (value s.reverse + 1) % 256 ^ s.length := by
  induction s with
  | nil => rfl
  | cons b more ih =>
    have hmore := value_lt more.reverse
    have hb : b.toNat < 256 := b.toNat_lt
    rw [List.length_reverse] at hmore
    rw [carry, List.reverse_cons, List.reverse_cons, value_concat, value_concat, List.length_cons,
      pow_succ]
    by_cases h255 : b = 255
    · -- the byte returns to zero, and the carry counts for one in the bytes behind it
      subst h255
      have hover : ((255 : UInt8) + 1).toNat = 0 := rfl
      have hsum : value more.reverse * 256 + (255 : UInt8).toNat + 1 =
          (value more.reverse + 1) * 256 := by
        rw [show (255 : UInt8).toNat = 255 from rfl]
        omega
      rw [if_pos rfl, ih, hsum, Nat.mul_mod_mul_right, hover, Nat.add_zero]
    · have hne : b.toNat ≠ 255 := fun h => h255 (UInt8.toNat_inj.mp h)
      have hsucc : (b + 1).toNat = b.toNat + 1 := by
        rw [UInt8.toNat_add, show (1 : UInt8).toNat = 1 from rfl]
        omega
      rw [if_neg h255, hsucc, Nat.mod_eq_of_lt (by omega)]
      omega

theorem value_increment (s : ByteString) :
    value (increment s) = (value s + 1) % 256 ^ s.length := by
  have h := value_carry s.reverse
  rwa [List.reverse_reverse, List.length_reverse] at h

theorem increment_eq (s : ByteString) : increment s = bigEndian s.length (value s + 1) := by
  have h := bigEndian_value (increment s)
  rw [length_increment, value_increment, bigEndian_mod] at h
  exact h.symm

theorem increment_bigEndian (width v : Nat) :
    increment (bigEndian width v) = bigEndian width (v + 1) := by
  rw [increment_eq, length_bigEndian, value_bigEndian, ← bigEndian_mod, Nat.mod_add_mod,
    bigEndian_mod]

end ByteString

namespace Bytes

variable {n : Nat}

/-! ## 3. Counters in a block -/

/-- The block plus `k`, modulo `256 ^ n`. -/
def plus (b : Bytes n) (k : Nat) : Bytes n :=
  ⟨ByteString.bigEndian n (b.toList.value + k), by simp⟩

/-- The block with `k` added to its leading half, modulo the size of that half. -/
def plusLeft (b : Bytes n) (k : Nat) : Bytes n :=
  ⟨ByteString.bigEndian (n / 2) (ByteString.value (b.toList.take (n / 2)) + k) ++
    b.toList.drop (n / 2), by simp; omega⟩

theorem length_take_bigEndian (b : Bytes n) (v : Nat) :
    (b.toList.take (n / 2) ++ ByteString.bigEndian (n - n / 2) v).length = n := by
  simp
  omega

/-- The block with `k` added to its trailing half, modulo the size of that half. -/
def plusRight (b : Bytes n) (k : Nat) : Bytes n :=
  ⟨b.toList.take (n / 2) ++
    ByteString.bigEndian (n - n / 2) (ByteString.value (b.toList.drop (n / 2)) + k),
    length_take_bigEndian b _⟩

@[simp] theorem plus_zero (b : Bytes n) : b.plus 0 = b := by
  have h := ByteString.bigEndian_value b.toList
  rw [b.length_toList] at h
  exact ext h

@[simp] theorem plusLeft_zero (b : Bytes n) : b.plusLeft 0 = b := by
  have hlen : (b.toList.take (n / 2)).length = n / 2 := by simp; omega
  have h := ByteString.bigEndian_value (b.toList.take (n / 2))
  rw [hlen] at h
  apply ext
  simp only [plusLeft, Nat.add_zero, h, List.take_append_drop]

@[simp] theorem plusRight_zero (b : Bytes n) : b.plusRight 0 = b := by
  have hlen : (b.toList.drop (n / 2)).length = n - n / 2 := by simp
  have h := ByteString.bigEndian_value (b.toList.drop (n / 2))
  rw [hlen] at h
  apply ext
  simp only [plusRight, Nat.add_zero, h, List.take_append_drop]

theorem increment_plus (b : Bytes n) (k : Nat) : (b.plus k).increment = b.plus (k + 1) :=
  ext (ByteString.increment_bigEndian n _)

theorem incrementLeft_plusLeft (b : Bytes n) (k : Nat) :
    (b.plusLeft k).incrementLeft = b.plusLeft (k + 1) := by
  have hlen : n / 2 = (ByteString.bigEndian (n / 2)
      (ByteString.value (b.toList.take (n / 2)) + k)).length := by simp
  apply ext
  simp only [incrementLeft, plusLeft]
  rw [List.take_left' hlen.symm, List.drop_left' hlen.symm, ByteString.increment_bigEndian,
    Nat.add_assoc]

/-- A counter in the leading half comes back only after it has gone through all of its values. -/
theorem plusLeft_inj {b : Bytes n} {i j : Nat} (hi : i < 256 ^ (n / 2)) (hj : j < 256 ^ (n / 2)) :
    b.plusLeft i = b.plusLeft j ↔ i = j := by
  constructor
  · intro h
    have hlist := congrArg (fun x => ByteString.value (x.toList.take (n / 2))) h
    simp only [plusLeft] at hlist
    rw [List.take_left' (ByteString.length_bigEndian ..),
      List.take_left' (ByteString.length_bigEndian ..), ByteString.value_bigEndian,
      ByteString.value_bigEndian] at hlist
    have hmod : i ≡ j [MOD 256 ^ (n / 2)] := Nat.ModEq.add_left_cancel' _ hlist
    exact hmod.eq_of_lt_of_lt hi hj
  · intro h
    rw [h]

/-- A counter in the trailing half does not come back before that either. -/
theorem plusRight_inj {b : Bytes n} {i j : Nat} (hi : i < 256 ^ (n - n / 2))
    (hj : j < 256 ^ (n - n / 2)) : b.plusRight i = b.plusRight j ↔ i = j := by
  have hlen : (b.toList.take (n / 2)).length = n / 2 := by simp; omega
  constructor
  · intro h
    have hlist := congrArg (fun x => ByteString.value (x.toList.drop (n / 2))) h
    simp only [plusRight] at hlist
    rw [List.drop_left' hlen, List.drop_left' hlen, ByteString.value_bigEndian,
      ByteString.value_bigEndian] at hlist
    have hmod : i ≡ j [MOD 256 ^ (n - n / 2)] := Nat.ModEq.add_left_cancel' _ hlist
    exact hmod.eq_of_lt_of_lt hi hj
  · intro h
    rw [h]

theorem incrementRight_plusRight (b : Bytes n) (k : Nat) :
    (b.plusRight k).incrementRight = b.plusRight (k + 1) := by
  have hlen : (b.toList.take (n / 2)).length = n / 2 := by simp; omega
  apply ext
  simp only [incrementRight, plusRight]
  rw [List.take_left' hlen, List.drop_left' hlen, ByteString.increment_bigEndian, Nat.add_assoc]

end Bytes

end GostSuite

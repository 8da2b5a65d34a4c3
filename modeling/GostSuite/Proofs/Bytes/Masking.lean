import GostSuite.Bytes.Basic
import Mathlib.Logic.Function.Basic

/-!
# Masking with a stream

A keystream is a function from positions to bytes. It is fixed before the first call of a session
and it does not end. What a session adds onto its data is the part of it that starts where the last
call stopped, so one law carries every statement about pieces:

> masking `s ++ t` from a position on is masking `s`, and then `t` from behind `s` on
> (`mask_append`).

A mode makes its stream block by block. `streamOf` is the row of bytes that a row of blocks makes,
and `mask_eq_xorOnto` is the meeting point with a mode at work, which adds a part of one block onto
the data that it has at hand.
-/

set_option autoImplicit false

namespace GostSuite

/-- The bytes of the blocks `f 0`, `f 1`, …, written one after the other. -/
def streamOf {n : Nat} (f : Nat → Bytes n) (j : Nat) : UInt8 := (f (j / n)).toList.getD (j % n) 0

namespace ByteString

/-- The data with a stream added on, from position `start` of the stream on. -/
def mask (stream : Nat → UInt8) (start : Nat) : ByteString → ByteString
  | [] => []
  | b :: data => (b ^^^ stream start) :: mask stream (start + 1) data

variable {stream : Nat → UInt8}

@[simp] theorem length_mask (start : Nat) (data : ByteString) :
    (mask stream start data).length = data.length := by
  induction data generalizing start with
  | nil => rfl
  | cons b data ih => simp [mask, ih]

theorem mask_append (start : Nat) (s t : ByteString) :
    mask stream start (s ++ t) = mask stream start s ++ mask stream (start + s.length) t := by
  induction s generalizing start with
  | nil => rfl
  | cons b s ih =>
    have hpos : start + 1 + s.length = start + (b :: s).length := by
      rw [List.length_cons]
      omega
    rw [List.cons_append, mask, ih, hpos]
    rfl

/-- Masking twice at one place gives the data back. -/
theorem mask_mask (start : Nat) (data : ByteString) :
    mask stream start (mask stream start data) = data := by
  induction data generalizing start with
  | nil => rfl
  | cons b data ih =>
    rw [mask, mask, ih, UInt8.xor_assoc, UInt8.xor_self, UInt8.xor_zero]

theorem mask_injective (start : Nat) : Function.Injective (mask stream start) :=
  Function.LeftInverse.injective (mask_mask start)

/-- Masking keeps every byte in its place. -/
theorem getElem?_mask (start : Nat) (data : ByteString) (p : Nat) :
    (mask stream start data)[p]? = data[p]?.map (· ^^^ stream (start + p)) := by
  induction data generalizing start p with
  | nil => rfl
  | cons b data ih =>
    cases p with
    | zero => rfl
    | succ p =>
      have hpos : start + 1 + p = start + (p + 1) := by omega
      rw [mask, List.getElem?_cons_succ, List.getElem?_cons_succ, ih, hpos]

/-- Only the part of the stream that meets a byte counts. -/
theorem mask_congr {stream' : Nat → UInt8} {start : Nat} {data : ByteString}
    (h : ∀ i < data.length, stream (start + i) = stream' (start + i)) :
    mask stream start data = mask stream' start data := by
  apply List.ext_getElem?
  intro p
  rw [getElem?_mask, getElem?_mask]
  by_cases hp : p < data.length
  · rw [h p hp]
  · rw [List.getElem?_eq_none (Nat.le_of_not_lt hp)]
    rfl

/-- Masked zeros are the stream itself. -/
theorem mask_zeros (start count : Nat) :
    mask stream start (List.replicate count 0) = (List.range' start count).map stream := by
  induction count generalizing start with
  | zero => rfl
  | succ count ih =>
    rw [List.replicate_succ, mask, ih, UInt8.zero_xor, List.range'_succ]
    rfl

/-- Adding bytes onto data is masking, if they are the bytes of the stream at that place. -/
theorem mask_eq_xorOnto {start : Nat} {data bytes : ByteString} (hlen : data.length ≤ bytes.length)
    (h : ∀ i < data.length, stream (start + i) = bytes.getD i 0) :
    mask stream start data = data.xorOnto bytes := by
  induction data generalizing start bytes with
  | nil => rfl
  | cons b data ih =>
    cases bytes with
    | nil => simp at hlen
    | cons m bytes =>
      have hfirst : stream start = m := by simpa using h 0 (by simp)
      have hrest : ∀ i < data.length, stream (start + 1 + i) = bytes.getD i 0 := by
        intro i hi
        have hnext := h (i + 1) (by simpa using hi)
        rw [List.getD_cons_succ] at hnext
        rw [← hnext]
        congr 1
        omega
      rw [mask, xorOnto, hfirst, ih (by simpa using hlen) hrest]

/-- Bytes that are joined are added on one after the other. -/
theorem xorOnto_append (data bytes more : ByteString) :
    data.xorOnto (bytes ++ more) =
      ByteString.xorOnto (data.take bytes.length) bytes ++
        ByteString.xorOnto (data.drop bytes.length) more := by
  induction bytes generalizing data with
  | nil => rfl
  | cons m bytes ih =>
    cases data with
    | nil => rfl
    | cons b data =>
      rw [List.cons_append, xorOnto, ih]
      rfl

theorem take_xorOnto (k : Nat) (data bytes : ByteString) :
    ByteString.xorOnto (data.take k) bytes = (data.xorOnto bytes).take k := by
  induction data generalizing k bytes with
  | nil => simp [xorOnto]
  | cons b data ih =>
    cases k with
    | zero => rfl
    | succ k =>
      cases bytes with
      | nil => rfl
      | cons m bytes => exact congrArg (_ :: ·) (ih k bytes)

theorem dropLast_xorOnto {s t : ByteString} (h : s.length = t.length) :
    (s.xorOnto t).dropLast = xorOnto s.dropLast t.dropLast := by
  induction s generalizing t with
  | nil => rfl
  | cons b s ih =>
    cases t with
    | nil => exact absurd h (by simp)
    | cons d t =>
      have hlen : s.length = t.length := by simpa using h
      cases s with
      | nil =>
        obtain rfl : t = [] := List.length_eq_zero_iff.mp hlen.symm
        rfl
      | cons c s =>
        cases t with
        | nil => exact absurd hlen (by simp)
        | cons e t => exact congrArg (_ :: ·) (ih hlen)

/-- A cut of data that is masked in two parts cuts the second part behind the first. -/
theorem xorOnto_take_append {k : Nat} {data : ByteString} (hk : k ≤ data.length) (first : Nat)
    (bytes rest : ByteString) :
    ByteString.xorOnto ((data.take k).take first) bytes ++ rest.take (k - first) =
      (ByteString.xorOnto (data.take first) bytes ++ rest).take k := by
  have hrest : k - min first data.length = k - first := by omega
  rw [List.take_append, length_xorOnto, List.length_take, hrest, ← take_xorOnto, List.take_take,
    List.take_take, Nat.min_comm]

end ByteString

/-- A part of one block is a part of the stream. -/
theorem streamOf_within {n : Nat} {f : Nat → Bytes n} {i p : Nat} (hp : p < n) :
    streamOf f (n * i + p) = (f i).toList.getD p 0 := by
  have hn : 0 < n := by omega
  have hdiv : (n * i + p) / n = i := by
    rw [Nat.mul_add_div hn, Nat.div_eq_of_lt hp, Nat.add_zero]
  have hmod : (n * i + p) % n = p := by rw [Nat.mul_add_mod, Nat.mod_eq_of_lt hp]
  rw [streamOf, hdiv, hmod]

end GostSuite

import GostSuite.Proofs.CounterStream.Usage

/-!
# Keystream does not look ahead

A stream is asked for some bytes, and how many they are decides what it does: how many blocks it
makes, whether the last of them stays with bytes left over, whether a key is replaced on the way. It
decides nothing about the bytes that are common to a short and to a long request:

> cut data comes out as a cut of what the whole data would have come out as (`apply_take`).

A stream that has been in use since its start has a formula for its bytes, and there it is plain. The
law holds of every stream, whatever is in it.
-/

set_option autoImplicit false

namespace GostSuite

namespace CounterStream

open ByteString

variable {a : Algorithm}

theorem length_apply (s : CounterStream a) (data : ByteString) :
    (s.apply data).1.length = data.length := by
  rw [apply_eq_xorOnto, length_xorOnto]

theorem length_applyBlocks (s : CounterStream a) (data : ByteString) :
    (s.applyBlocks data).1.length = data.length := by
  rw [applyBlocks_eq_xorOnto, length_xorOnto]

/-- New blocks of keystream do not look ahead: how much data there is makes no difference to the
bytes that are there. -/
theorem applyBlocks_take (s : CounterStream a) (data : ByteString) (k : Nat) :
    (s.applyBlocks (data.take k)).1 = (s.applyBlocks data).1.take k := by
  rcases Nat.lt_or_ge k data.length with hk | hk
  · by_cases hzero : k = 0
    · simp [hzero, applyBlocks_nil]
    · have hn : 0 < a.blockLen := a.blockLen_pos
      have hdata : data ≠ [] := List.length_pos_iff.mp (by omega)
      have htake : data.take k ≠ [] := by simpa using ⟨hzero, hdata⟩
      rw [applyBlocks_of_ne s htake, applyBlocks_of_ne s hdata,
        ← xorOnto_take_append (Nat.le_of_lt hk), List.length_take_of_le (Nat.le_of_lt hk),
        List.drop_take]
      rcases Nat.le_total k a.blockLen with hle | hle
      · -- the end is in the first block
        rw [Nat.sub_eq_zero_of_le hle, List.take_zero, List.take_zero, applyBlocks_nil]
      · rw [Nat.min_eq_left hle, Nat.min_eq_left (Nat.le_trans hle (Nat.le_of_lt hk)),
          applyBlocks_take]
  · rw [List.take_of_length_le hk, List.take_of_length_le]
    rwa [length_applyBlocks]
termination_by data.length
decreasing_by
  simp only [List.length_drop]
  omega

theorem apply_fst (s : CounterStream a) (data : ByteString) :
    (s.apply data).1 =
      ByteString.xorOnto (data.take s.leftover.length) s.leftover ++
        ((s.use (data.take s.leftover.length).length).applyBlocks
          (data.drop s.leftover.length)).1 := rfl

/-- **The keystream does not look ahead.** It makes of the first bytes of some data what it would
make of them if no others followed. -/
theorem apply_take (s : CounterStream a) (data : ByteString) (k : Nat) :
    (s.apply (data.take k)).1 = (s.apply data).1.take k := by
  rcases Nat.lt_or_ge k data.length with hk | hk
  · rw [apply_fst, apply_fst, ← xorOnto_take_append (Nat.le_of_lt hk), List.drop_take]
    rcases Nat.le_total k s.leftover.length with hle | hle
    · -- the end is in what was left of the last block
      rw [Nat.sub_eq_zero_of_le hle, List.take_zero, List.take_zero, applyBlocks_nil]
    · rw [List.take_take, Nat.min_eq_left hle, applyBlocks_take]
  · rw [List.take_of_length_le hk, List.take_of_length_le]
    rwa [length_apply]

end CounterStream

end GostSuite

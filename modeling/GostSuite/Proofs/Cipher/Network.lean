import GostSuite.Cipher.Network
import GostSuite.Proofs.Bytes.Counting
import Mathlib.Logic.Function.Basic

/-!
# The network undone

A Feistel network never inverts its round function. A round adds `g b k` to one half and leaves
`b` alone, so the same addition takes it off again; what has to be right is the order of the keys
and the place of the halves. Both are one statement about any round function and any schedule:

> the schedule from its end to its start, on exchanged halves, gives the exchanged halves back
> (`rounds_reverse`).

The ciphers exchange the halves when they write them (`across`), and their backward schedule is the
forward one reversed. Nothing is asked of the tables, and nothing of the number of key words.
-/

set_option autoImplicit false

namespace GostSuite

namespace Word

/-! ## 1. Words and bytes -/

theorem ofBigEndian_bigEndian (x : Word) : ofBigEndian x.bigEndian = x := by
  have hx : x.toNat < 256 ^ 4 := x.toNat_lt
  rw [ofBigEndian, bigEndian, ByteString.value_bigEndian, Nat.mod_eq_of_lt hx]
  exact UInt32.ofNat_toNat

theorem bigEndian_ofBigEndian {s : ByteString} (h : s.length = 4) :
    (ofBigEndian s).bigEndian = s := by
  have hs := ByteString.value_lt s
  rw [h] at hs
  have hback := ByteString.bigEndian_value s
  rw [h] at hback
  rw [bigEndian, ofBigEndian, UInt32.toNat_ofNat_of_lt' hs, hback]

theorem ofLittleEndian_littleEndian (x : Word) : ofLittleEndian x.littleEndian = x := by
  rw [ofLittleEndian, littleEndian, List.reverse_reverse, ofBigEndian_bigEndian]

theorem littleEndian_ofLittleEndian {s : ByteString} (h : s.length = 4) :
    (ofLittleEndian s).littleEndian = s := by
  rw [littleEndian, ofLittleEndian, bigEndian_ofBigEndian (by rw [List.length_reverse, h]),
    List.reverse_reverse]

end Word

namespace Network

/-! ## 2. Rounds -/

theorem rounds_append (g : Word → Word → Word) (before after : List Word) (h : Halves) :
    rounds g (before ++ after) h = rounds g after (rounds g before h) := by
  induction before generalizing h with
  | nil => rfl
  | cons k before ih =>
    obtain ⟨a, b⟩ := h
    exact ih (b, a ^^^ g b k)

/-- **A schedule is undone by its reverse, on exchanged halves**, whatever the round function. -/
theorem rounds_reverse (g : Word → Word → Word) (schedule : List Word) (h : Halves) :
    rounds g schedule.reverse (rounds g schedule h).swap = h.swap := by
  induction schedule generalizing h with
  | nil => rfl
  | cons k schedule ih =>
    obtain ⟨a, b⟩ := h
    have hlast : rounds g [k] (a ^^^ g b k, b) = (b, a) := by
      change (b, a ^^^ g b k ^^^ g b k) = (b, a)
      rw [UInt32.xor_assoc, UInt32.xor_self, UInt32.xor_zero]
    rw [List.reverse_cons, rounds_append]
    change rounds g [k] (rounds g schedule.reverse
      (rounds g schedule (b, a ^^^ g b k)).swap) = (b, a)
    rw [ih]
    exact hlast

theorem rounds_bijective (g : Word → Word → Word) (schedule : List Word) :
    Function.Bijective (rounds g schedule) := by
  constructor
  · intro h h' heq
    have hback := rounds_reverse g schedule h
    rw [heq, rounds_reverse] at hback
    exact Prod.swap_injective hback.symm
  · intro h
    refine ⟨(rounds g schedule.reverse h.swap).swap, ?_⟩
    have hforth := rounds_reverse g schedule.reverse h.swap
    rwa [List.reverse_reverse, Prod.swap_swap] at hforth

theorem reverse_forward (words : List Word) : (forward words).reverse = backward words := by
  simp [forward, backward]

theorem reverse_backward (words : List Word) : (backward words).reverse = forward words := by
  rw [← reverse_forward, List.reverse_reverse]

/-! ## 3. Blocks -/

/-- A way to cut a block into halves and to write two halves as a block, exchanged. -/
structure Layout where
  split : Bytes 8 → Halves
  join : Halves → Bytes 8
  split_join : ∀ h, split (join h) = h.swap
  join_split : ∀ b, join (split b).swap = b

/-- A block through the rounds of a schedule. -/
def Layout.across (layout : Layout) (tables : ByteTables) (schedule : List Word) (b : Bytes 8) :
    Bytes 8 :=
  layout.join (rounds (mix tables) schedule (layout.split b))

theorem Layout.across_reverse (layout : Layout) (tables : ByteTables) (schedule : List Word)
    (b : Bytes 8) :
    layout.across tables schedule.reverse (layout.across tables schedule b) = b := by
  rw [across, across, layout.split_join, rounds_reverse, layout.join_split]

theorem Layout.split_bijective (layout : Layout) : Function.Bijective layout.split := by
  refine ⟨fun b b' h => ?_, fun h => ⟨layout.join h.swap, ?_⟩⟩
  · rw [← layout.join_split b, h, layout.join_split]
  · rw [layout.split_join, Prod.swap_swap]

theorem Layout.join_bijective (layout : Layout) : Function.Bijective layout.join := by
  refine ⟨fun h h' heq => ?_, fun b => ⟨(layout.split b).swap, layout.join_split b⟩⟩
  apply Prod.swap_injective
  rw [← layout.split_join, heq, layout.split_join]

/-- The two directions of a cipher are inverse to each other for any tables and any key words. -/
theorem Layout.across_inverse (layout : Layout) (tables : ByteTables) (words : List Word)
    (b : Bytes 8) :
    layout.across tables (backward words) (layout.across tables (forward words) b) = b ∧
      layout.across tables (forward words) (layout.across tables (backward words) b) = b := by
  constructor
  · rw [← reverse_forward, across_reverse]
  · rw [← reverse_backward, across_reverse]

end Network

/-! ## 4. The two layouts -/

theorem Bytes.quarter_append {s t : ByteString} (hs : s.length = 4) (ht : t.length = 4)
    (h : (s ++ t).length = 8) :
    Bytes.quarter (⟨s ++ t, h⟩ : Bytes 8) 0 = s ∧ Bytes.quarter (⟨s ++ t, h⟩ : Bytes 8) 1 = t := by
  constructor
  · rw [Bytes.quarter, Nat.mul_zero, List.drop_zero, List.take_left' hs]
  · rw [Bytes.quarter, Nat.mul_one, List.drop_left' hs, List.take_of_length_le (by omega)]

theorem Bytes.quarters_append (b : Bytes 8) : b.quarter 0 ++ b.quarter 1 = b.toList := by
  have hrest : ((b.toList.drop 4).take 4) = b.toList.drop 4 :=
    List.take_of_length_le (by rw [List.length_drop, b.length_toList])
  rw [Bytes.quarter, Bytes.quarter, Nat.mul_zero, List.drop_zero, Nat.mul_one, hrest,
    List.take_append_drop]

theorem Bytes.length_quarter (b : Bytes 8) :
    (b.quarter 0).length = 4 ∧ (b.quarter 1).length = 4 := by
  simp [Bytes.quarter]

namespace Magma

def layout : Network.Layout where
  split := split
  join := join
  split_join h := by
    obtain ⟨h0, h1⟩ := Bytes.quarter_append h.2.length_bigEndian h.1.length_bigEndian
      (join h).length_toList
    change (Word.ofBigEndian ((join h).quarter 0), Word.ofBigEndian ((join h).quarter 1)) = h.swap
    rw [join, h0, h1, Word.ofBigEndian_bigEndian, Word.ofBigEndian_bigEndian]
    rfl
  join_split b := by
    obtain ⟨h0, h1⟩ := b.length_quarter
    apply Bytes.ext
    change (Word.ofBigEndian (b.quarter 0)).bigEndian ++ (Word.ofBigEndian (b.quarter 1)).bigEndian
      = b.toList
    rw [Word.bigEndian_ofBigEndian h0, Word.bigEndian_ofBigEndian h1, b.quarters_append]

end Magma

namespace Gost89

def layout : Network.Layout where
  split := split
  join := join
  split_join h := by
    obtain ⟨h0, h1⟩ := Bytes.quarter_append h.1.length_littleEndian h.2.length_littleEndian
      (join h).length_toList
    change (Word.ofLittleEndian ((join h).quarter 1), Word.ofLittleEndian ((join h).quarter 0)) =
      h.swap
    rw [join, h0, h1, Word.ofLittleEndian_littleEndian, Word.ofLittleEndian_littleEndian]
    rfl
  join_split b := by
    obtain ⟨h0, h1⟩ := b.length_quarter
    apply Bytes.ext
    change (Word.ofLittleEndian (b.quarter 0)).littleEndian ++
      (Word.ofLittleEndian (b.quarter 1)).littleEndian = b.toList
    rw [Word.littleEndian_ofLittleEndian h0, Word.littleEndian_ofLittleEndian h1,
      b.quarters_append]

end Gost89

end GostSuite

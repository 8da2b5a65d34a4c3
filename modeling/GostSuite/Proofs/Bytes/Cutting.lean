import GostSuite.Bytes.Pieces

/-!
# Cutting into blocks, piece by piece

A context that takes a message in pieces keeps the bytes behind the last complete block and meets
them again when the next piece comes. Whether it cuts the same blocks as somebody who has the whole
message in front of him is one equation about `blocks`:

> the blocks of `s ++ t` are those of `s`, and then those of the rest of `s` followed by `t`
> (`blocks_append`).

Everything else here says which blocks a short string and a whole block make, and how long the rest
is, so that a count of bytes decides what is pending. Cut blocks put together again are the string
that was cut (`join_blocks`), and joined blocks are cut where they were joined (`blocks_join`).
-/

set_option autoImplicit false

namespace GostSuite

namespace Bytes

variable {n : Nat}

theorem toList_padded {s : ByteString} (h : s.length = n) : (padded n s).toList = s := by
  simp [padded, h, List.take_of_length_le (Nat.le_of_eq h)]

/-- Only the first `n` bytes count. -/
theorem padded_take (s : ByteString) (h : n ≤ s.length) : padded n (s.take n) = padded n s := by
  apply ext
  have h0 : n - s.length = 0 := by omega
  simp [padded, h0, List.length_take, Nat.min_eq_left h, List.take_take]

theorem padded_append (s t : ByteString) (h : n ≤ s.length) :
    padded n (s ++ t) = padded n s := by
  have h0 : n - s.length = 0 := by omega
  have h1 : n - (s.length + t.length) = 0 := by omega
  apply ext
  simp [padded, h0, h1, List.take_append_of_le_length h]

theorem padded_append_zeros (s : ByteString) (count : Nat) :
    padded n (s ++ List.replicate count 0) = padded n s := by
  apply ext
  simp only [padded, List.take_append, List.take_replicate, List.append_assoc,
    List.replicate_append_replicate, List.length_append, List.length_replicate]
  congr 2
  omega

/-- Filling up does not confuse strings of one length. -/
theorem padded_injOn {s t : ByteString} (hlen : s.length = t.length)
    (h : padded n s = padded n t) : s.take n = t.take n := by
  have hlist := congrArg toList h
  simp only [padded, hlen] at hlist
  exact List.append_cancel_right hlist

end Bytes

namespace ByteString

variable {n : Nat}

/-! ## 1. The two ways a cut can go -/

theorem blocks_of_lt {s : ByteString} (h : s.length < n) : s.blocks n = ([], s) := by
  have hcond : ¬(0 < n ∧ (s.take n).length = n) := by
    rw [List.length_take]
    omega
  rw [blocks, dif_neg hcond]

/-- A long enough string gives its first block and is cut on behind it. -/
theorem blocks_of_le (hn : 0 < n) {s : ByteString} (h : n ≤ s.length) :
    s.blocks n = (Bytes.padded n s :: (ByteString.blocks n (s.drop n)).1,
      (ByteString.blocks n (s.drop n)).2) := by
  have htake : (s.take n).length = n := by
    rw [List.length_take]
    omega
  have hfirst : (⟨s.take n, htake⟩ : Bytes n) = Bytes.padded n s := by
    rw [← Bytes.padded_take s h]
    exact Bytes.ext (Bytes.toList_padded htake).symm
  rw [blocks, dif_pos ⟨hn, htake⟩]
  simp only [hfirst]

theorem blocks_nil (hn : 0 < n) : ByteString.blocks n [] = ([], []) := blocks_of_lt hn

theorem blocks_of_length_eq (hn : 0 < n) {s : ByteString} (h : s.length = n) :
    s.blocks n = ([Bytes.padded n s], []) := by
  have hdrop : s.drop n = [] := List.drop_eq_nil_of_le (by omega)
  rw [blocks_of_le hn (by omega), hdrop, blocks_nil hn]

/-! ## 2. The law of pieces -/

/-- Cutting goes on where it stopped. -/
theorem blocks_append (hn : 0 < n) (s t : ByteString) :
    (s ++ t).blocks n =
      ((s.blocks n).1 ++ (ByteString.blocks n ((s.blocks n).2 ++ t)).1,
        (ByteString.blocks n ((s.blocks n).2 ++ t)).2) := by
  by_cases h : n ≤ s.length
  · have happ : n ≤ (s ++ t).length := by
      rw [List.length_append]
      omega
    have hdrop : (s ++ t).drop n = s.drop n ++ t := List.drop_append_of_le_length h
    rw [blocks_of_le hn happ, blocks_of_le hn h, hdrop, blocks_append hn (s.drop n) t,
      Bytes.padded_append s t h]
    rfl
  · rw [blocks_of_lt (s := s) (by omega)]
    rfl
termination_by s.length
decreasing_by simp only [List.length_drop]; omega

/-! ## 3. Counting -/

theorem length_blocks_snd (hn : 0 < n) (s : ByteString) : (s.blocks n).2.length = s.length % n := by
  by_cases h : n ≤ s.length
  · rw [blocks_of_le hn h, length_blocks_snd hn (s.drop n), List.length_drop,
      ← Nat.mod_eq_sub_mod h]
  · rw [blocks_of_lt (by omega), Nat.mod_eq_of_lt (by omega)]
termination_by s.length
decreasing_by simp only [List.length_drop]; omega

theorem length_blocks_fst (hn : 0 < n) (s : ByteString) :
    (s.blocks n).1.length = s.length / n := by
  by_cases h : n ≤ s.length
  · rw [blocks_of_le hn h, List.length_cons, length_blocks_fst hn (s.drop n), List.length_drop,
      ← Nat.div_eq_sub_div hn h]
  · rw [blocks_of_lt (by omega), Nat.div_eq_of_lt (by omega)]
    rfl
termination_by s.length
decreasing_by simp only [List.length_drop]; omega

theorem length_blocks_snd_lt (hn : 0 < n) (s : ByteString) : (s.blocks n).2.length < n := by
  rw [length_blocks_snd hn]
  exact Nat.mod_lt _ hn

/-- The rest of `s` is filled up with the first of other bytes, as many as it lacks. Either it stays
short of a block, or it becomes one. -/
theorem blocks_fill (hn : 0 < n) (s data : ByteString) :
    let taken := data.take (n - (s.blocks n).2.length)
    let rest := (s.blocks n).2 ++ taken
    (s ++ taken).blocks n =
      if rest.length < n then ((s.blocks n).1, rest)
      else ((s.blocks n).1 ++ [Bytes.padded n rest], []) := by
  intro taken rest
  have hpend := length_blocks_snd_lt hn s
  have hlen : rest.length ≤ n := by
    rw [List.length_append, List.length_take]
    omega
  rw [blocks_append hn]
  change ((s.blocks n).1 ++ (ByteString.blocks n rest).1, (ByteString.blocks n rest).2) = _
  by_cases hshort : rest.length < n
  · rw [if_pos hshort, blocks_of_lt hshort, List.append_nil]
  · rw [if_neg hshort, blocks_of_length_eq (s := rest) hn (by omega)]

/-- Nothing is left over behind complete blocks only. -/
theorem isEmpty_blocks_snd (hn : 0 < n) (s : ByteString) :
    (s.blocks n).2.isEmpty = true ↔ s.length % n = 0 := by
  rw [List.isEmpty_iff, ← List.length_eq_zero_iff, length_blocks_snd hn]

/-! ## 4. Padded blocks -/

/-- The complete blocks, and one more for the rest if there is one. -/
theorem paddedBlocks_eq (s : ByteString) :
    s.paddedBlocks n = (s.blocks n).1 ++
      (if (s.blocks n).2.isEmpty then [] else [Bytes.padded n (s.blocks n).2]) := by
  unfold paddedBlocks
  cases hrest : (s.blocks n).2.isEmpty with
  | true => simp only [hrest, if_true, List.append_nil]
  | false => simp only [hrest, Bool.false_eq_true, if_false]

@[simp] theorem paddedBlocks_nil (hn : 0 < n) : ByteString.paddedBlocks n [] = [] := by
  rw [paddedBlocks_eq, blocks_nil hn]
  rfl

/-! ## 5. Blocks put together -/

theorem join_cons (b : Bytes n) (bs : List (Bytes n)) : join (b :: bs) = b.toList ++ join bs :=
  List.flatMap_cons

theorem length_join (bs : List (Bytes n)) : (join bs).length = bs.length * n := by
  induction bs with
  | nil => rw [List.length_nil, Nat.zero_mul]; rfl
  | cons b bs ih =>
    rw [join_cons, List.length_append, ih, b.length_toList, List.length_cons, Nat.succ_mul,
      Nat.add_comm]

/-- Cutting loses nothing. -/
theorem join_blocks (hn : 0 < n) (s : ByteString) :
    join (s.blocks n).1 ++ (s.blocks n).2 = s := by
  by_cases h : n ≤ s.length
  · have htake : (s.take n).length = n := by
      rw [List.length_take]
      omega
    rw [blocks_of_le hn h, join_cons, List.append_assoc, join_blocks hn (s.drop n),
      ← Bytes.padded_take s h, Bytes.toList_padded htake, List.take_append_drop]
  · rw [blocks_of_lt (by omega)]
    rfl
termination_by s.length
decreasing_by simp only [List.length_drop]; omega

/-- Blocks that are put together are cut where they were joined. -/
theorem blocks_join (hn : 0 < n) (bs : List (Bytes n)) :
    (join bs).blocks n = (bs, []) := by
  induction bs with
  | nil => exact blocks_nil hn
  | cons b bs ih =>
    rw [join_cons, blocks_append hn, blocks_of_length_eq hn b.length_toList, List.nil_append, ih,
      Bytes.padded_toList]
    rfl

theorem join_append (bs cs : List (Bytes n)) : join (bs ++ cs) = join bs ++ join cs :=
  List.flatMap_append

/-- Block `i` is found at `i` times its length. -/
theorem take_drop_join {bs : List (Bytes n)} {i : Nat} (hi : i < bs.length) :
    ((join bs).drop (i * n)).take n = bs[i].toList := by
  induction bs generalizing i with
  | nil => exact absurd hi (Nat.not_lt_zero i)
  | cons b bs ih =>
    cases i with
    | zero => rw [join_cons, Nat.zero_mul, List.drop_zero, List.take_left' b.length_toList]; rfl
    | succ i =>
      rw [join_cons, Nat.succ_mul, Nat.add_comm, ← List.drop_drop, List.drop_left' b.length_toList,
        ih (Nat.lt_of_succ_lt_succ hi)]
      rfl

/-- A string is what its padded blocks begin with. -/
theorem prefix_join_paddedBlocks (hn : 0 < n) (s : ByteString) : s <+: join (s.paddedBlocks n) := by
  have hs := join_blocks hn s
  have hshort := length_blocks_snd_lt hn s
  rw [paddedBlocks_eq]
  by_cases hempty : (s.blocks n).2.isEmpty = true
  · rw [if_pos hempty, List.append_nil]
    rw [List.isEmpty_iff.mp hempty, List.append_nil] at hs
    exact ⟨[], by rw [List.append_nil, hs]⟩
  · have hpadded : (Bytes.padded n (s.blocks n).2).toList =
        (s.blocks n).2 ++ List.replicate (n - (s.blocks n).2.length) 0 :=
      congrArg (· ++ _) (List.take_of_length_le (Nat.le_of_lt hshort))
    have hlast : join [Bytes.padded n (s.blocks n).2] = (Bytes.padded n (s.blocks n).2).toList :=
      List.flatMap_singleton ..
    rw [if_neg hempty, join_append, hlast, hpadded, ← List.append_assoc, hs]
    exact List.prefix_append ..

/-- Zeros at the end are all that padded blocks confuse. -/
theorem paddedBlocks_injOn (hn : 0 < n) {s t : ByteString} (hlen : s.length = t.length)
    (h : s.paddedBlocks n = t.paddedBlocks n) : s = t := by
  have hs := prefix_join_paddedBlocks hn s
  have ht := prefix_join_paddedBlocks hn t
  rw [← h] at ht
  exact (List.prefix_of_prefix_length_le hs ht (Nat.le_of_eq hlen)).eq_of_length hlen

end ByteString

end GostSuite

import GostSuite.Mac.Chain
import GostSuite.Proofs.Bytes.Cutting

/-!
# What a chain holds back

A chain takes a block in when a further byte shows that it was not the last one. So after any number
of bytes it has taken in all blocks but the last, and the last one is held back, whole or not; an
empty message counts as one block, an empty one. `leading` and `held` say that of a message that is
at hand, and `after` is the state of a chain that has been fed with it:

> feeding `data` to a chain that has been fed with `s` leaves the state of a chain that has been fed
> with `s ++ data` (`feed_after`).

Nothing is said about what chaining a block does. Both message codes of the suite are instances: the
plain one, whose key stays, and the meshed one, which changes keys on the way.
-/

set_option autoImplicit false

namespace GostSuite

namespace Chain

variable {n : Nat} {κ : Type}

/-! ## 1. The last block and the ones before it -/

/-- The blocks of a message, the last one whole or not. The empty message has one. -/
def blockCount (n : Nat) (s : ByteString) : Nat := max 1 ((s.length + (n - 1)) / n)

/-- Block `i` of a message, counted from zero. -/
def blockAt (n : Nat) (s : ByteString) (i : Nat) : Bytes n := .padded n (s.drop (i * n))

/-- All blocks but the last. -/
def leading (n : Nat) (s : ByteString) : List (Bytes n) :=
  (List.range (blockCount n s - 1)).map (blockAt n s)

def held (n : Nat) (s : ByteString) : ByteString := s.drop ((blockCount n s - 1) * n)

theorem blockCount_sub_one (hn : 0 < n) (s : ByteString) :
    blockCount n s - 1 = (s.length - 1) / n := by
  rcases Nat.eq_zero_or_pos s.length with h0 | hpos
  · rw [blockCount, h0, Nat.zero_add, Nat.div_eq_of_lt (by omega), Nat.zero_sub, Nat.zero_div]
    rfl
  · have hshift : s.length + (n - 1) = s.length - 1 + n := by omega
    rw [blockCount, hshift, Nat.add_div_right _ hn, Nat.max_eq_right (Nat.succ_pos _),
      Nat.succ_sub_one]

/-- The leading blocks leave something of a message, and a block at most. -/
theorem leading_bounds (hn : 0 < n) (s : ByteString) :
    (blockCount n s - 1) * n ≤ s.length - 1 ∧ s.length - 1 < (blockCount n s - 1) * n + n := by
  have hlt := Nat.lt_mul_div_succ (s.length - 1) hn
  rw [Nat.mul_succ, Nat.mul_comm] at hlt
  rw [blockCount_sub_one hn]
  exact ⟨Nat.div_mul_le_self _ _, hlt⟩

/-- Their number is decided by a split that does so. -/
theorem blockCount_eq {s : ByteString} {i r : Nat} (hs : s.length = i * n + r) (hr : 0 < r)
    (hrn : r ≤ n) : blockCount n s - 1 = i := by
  rw [blockCount_sub_one (by omega)]
  refine Nat.div_eq_of_lt_le (by omega) ?_
  rw [Nat.succ_mul]
  omega

theorem length_eq (hn : 0 < n) (s : ByteString) :
    s.length = (blockCount n s - 1) * n + (held n s).length := by
  have hbounds := leading_bounds hn s
  rw [held, List.length_drop]
  omega

theorem length_held_le (hn : 0 < n) (s : ByteString) : (held n s).length ≤ n := by
  have hbounds := leading_bounds hn s
  have hlen := length_eq hn s
  omega

/-- The complete blocks of a message are its first ones, and the rest stands behind them. -/
theorem blocks_eq (hn : 0 < n) (s : ByteString) :
    s.blocks n = ((List.range (s.length / n)).map (blockAt n s), s.drop (s.length / n * n)) := by
  by_cases h : n ≤ s.length
  · have hcount : s.length / n = (s.drop n).length / n + 1 := by
      rw [List.length_drop]
      exact Nat.div_eq_sub_div hn h
    have hblocks : (List.range ((s.drop n).length / n)).map (blockAt n s ∘ Nat.succ) =
        (List.range ((s.drop n).length / n)).map (blockAt n (s.drop n)) := by
      refine List.map_congr_left fun i _ => ?_
      simp only [Function.comp_apply, blockAt, List.drop_drop, Nat.succ_mul, Nat.add_comm n]
    have hrest : (s.drop n).drop ((s.drop n).length / n * n) =
        s.drop (((s.drop n).length / n + 1) * n) := by
      rw [List.drop_drop, Nat.succ_mul, Nat.add_comm n]
    rw [ByteString.blocks_of_le hn h, blocks_eq hn (s.drop n), hcount, List.range_succ_eq_map,
      List.map_cons, List.map_map, hblocks, hrest, blockAt, Nat.zero_mul, List.drop_zero]
  · have hzero : s.length / n = 0 := Nat.div_eq_of_lt (by omega)
    rw [ByteString.blocks_of_lt (by omega), hzero, Nat.zero_mul, List.drop_zero]
    rfl
termination_by s.length
decreasing_by simp only [List.length_drop]; omega

/-- Zeros behind a message fill its last block as it would have been filled. -/
theorem blockAt_append_zeros (s : ByteString) (count i : Nat) :
    blockAt n (s ++ List.replicate count 0) i = blockAt n s i := by
  rw [blockAt, blockAt, List.drop_append, List.drop_replicate, Bytes.padded_append_zeros]

/-- The padded blocks of a message are its blocks, counted, the last one whole or not. -/
theorem paddedBlocks_eq_map (hn : 0 < n) (s : ByteString) :
    s.paddedBlocks n = (List.range ((s.length + (n - 1)) / n)).map (blockAt n s) := by
  have hdiv := Nat.div_add_mod s.length n
  have hmod := Nat.mod_lt s.length hn
  rw [ByteString.paddedBlocks_eq]
  by_cases hempty : (s.blocks n).2.isEmpty = true
  · have hcount : (s.length + (n - 1)) / n = s.length / n := by
      rw [ByteString.isEmpty_blocks_snd hn] at hempty
      have hshift : s.length + (n - 1) = n - 1 + n * (s.length / n) := by omega
      rw [hshift, Nat.add_mul_div_left _ _ hn, Nat.div_eq_of_lt (by omega), Nat.zero_add]
    rw [if_pos hempty, List.append_nil, blocks_eq hn, hcount]
  · have hcount : (s.length + (n - 1)) / n = s.length / n + 1 := by
      rw [ByteString.isEmpty_blocks_snd hn] at hempty
      have hshift : s.length + (n - 1) = s.length % n - 1 + n * (s.length / n + 1) := by
        rw [Nat.mul_succ]
        omega
      rw [hshift, Nat.add_mul_div_left _ _ hn, Nat.div_eq_of_lt (by omega), Nat.zero_add]
    rw [if_neg hempty, blocks_eq hn, hcount, List.range_succ, List.map_append, List.map_singleton]
    rfl

/-- A message that ends with a complete block holds that one back. -/
theorem leading_of_dvd {s : ByteString} (hs : 0 < s.length) (hdvd : n ∣ s.length) :
    leading n s = (s.blocks n).1.dropLast ∧ (held n s).length = n ∧
      Bytes.padded n (held n s) = (s.blocks n).1.getLastD (.zero n) := by
  obtain ⟨count, hcount⟩ := hdvd
  have hn : 0 < n := Nat.pos_of_ne_zero fun h => by
    rw [h, Nat.zero_mul] at hcount
    omega
  obtain ⟨i, rfl⟩ : ∃ i, count = i + 1 := Nat.exists_eq_add_one_of_ne_zero fun h => by
    rw [h, Nat.mul_zero] at hcount
    omega
  have hlast : blockCount n s - 1 = i :=
    blockCount_eq (r := n) (by rw [hcount, Nat.mul_succ, Nat.mul_comm]) hn (Nat.le_refl n)
  have hwhole : (s.blocks n).1 = (List.range i).map (blockAt n s) ++ [blockAt n s i] := by
    rw [blocks_eq hn, hcount, Nat.mul_div_cancel_left _ hn, List.range_succ, List.map_append,
      List.map_singleton]
  refine ⟨?_, ?_, ?_⟩
  · rw [hwhole, List.dropLast_concat, leading, hlast]
  · rw [held, hlast, List.length_drop, hcount, Nat.mul_succ, Nat.mul_comm]
    omega
  · rw [hwhole, List.getLastD_concat, held, hlast]
    rfl

/-- Any other message holds back what is left behind its complete blocks. -/
theorem leading_of_not_dvd (hn : 0 < n) {s : ByteString} (h : ¬(0 < s.length ∧ n ∣ s.length)) :
    leading n s = (s.blocks n).1 ∧ held n s = (s.blocks n).2 := by
  have hcount : blockCount n s - 1 = s.length / n := by
    rw [blockCount_sub_one hn]
    rcases Nat.eq_zero_or_pos s.length with h0 | hpos
    · rw [h0]
    · obtain ⟨m, hm⟩ := Nat.exists_eq_add_one_of_ne_zero (Nat.ne_of_gt hpos)
      have hndvd : ¬n ∣ m + 1 := fun hdvd => h ⟨hpos, by rwa [hm]⟩
      rw [hm, Nat.add_sub_cancel, Nat.succ_div_of_not_dvd hndvd]
  rw [blocks_eq hn, leading, held, hcount]
  exact ⟨rfl, rfl⟩

/-! ## 2. One more stretch of a message

A stretch either finds room in the block that is held back, or it finds that block full and becomes
the new one. -/

/-- A block that has all its bytes keeps them. -/
theorem blockAt_append {s t : ByteString} {i : Nat} (h : (i + 1) * n ≤ s.length) :
    blockAt n (s ++ t) i = blockAt n s i := by
  have hle : i * n ≤ s.length := by
    rw [Nat.succ_mul] at h
    omega
  rw [blockAt, blockAt, List.drop_append_of_le_length hle, Bytes.padded_append]
  rw [List.length_drop]
  rw [Nat.succ_mul] at h
  omega

theorem map_blockAt_append {s : ByteString} (t : ByteString) {count : Nat}
    (h : count * n ≤ s.length) :
    (List.range count).map (blockAt n (s ++ t)) = (List.range count).map (blockAt n s) := by
  refine List.map_congr_left fun i hi => blockAt_append ?_
  have hi' : i + 1 ≤ count := List.mem_range.mp hi
  exact Nat.le_trans (Nat.mul_le_mul_right n hi') h

theorem leading_append_of_room (hn : 0 < n) {s t : ByteString} (ht : t ≠ [])
    (hroom : (held n s).length + t.length ≤ n) :
    leading n (s ++ t) = leading n s ∧ held n (s ++ t) = held n s ++ t := by
  have hlen := length_eq hn s
  have htpos : 0 < t.length := List.length_pos_iff.mpr ht
  have hcount : blockCount n (s ++ t) - 1 = blockCount n s - 1 :=
    blockCount_eq (r := (held n s).length + t.length)
      (by rw [List.length_append]; omega) (by omega) hroom
  refine ⟨?_, ?_⟩
  · rw [leading, hcount, map_blockAt_append t (by omega), leading]
  · rw [held, hcount, List.drop_append_of_le_length (by omega), held]

theorem leading_append_of_full (hn : 0 < n) {s t : ByteString} (ht : t ≠ [])
    (hfull : (held n s).length = n) (htn : t.length ≤ n) :
    leading n (s ++ t) = leading n s ++ [Bytes.padded n (held n s)] ∧ held n (s ++ t) = t := by
  have hlen := length_eq hn s
  rw [hfull] at hlen
  have htpos : 0 < t.length := List.length_pos_iff.mpr ht
  have hcount : blockCount n (s ++ t) - 1 = blockCount n s - 1 + 1 :=
    blockCount_eq (r := t.length)
      (by rw [List.length_append, Nat.succ_mul]; omega) htpos htn
  refine ⟨?_, ?_⟩
  · have hlast : (blockCount n s - 1 + 1) * n ≤ s.length := by
      rw [Nat.succ_mul]
      omega
    rw [leading, hcount, List.range_succ, List.map_append, map_blockAt_append t (by omega),
      List.map_singleton, blockAt_append hlast]
    rfl
  · have hend : (blockCount n s - 1 + 1) * n = s.length := by
      rw [Nat.succ_mul]
      omega
    rw [held, hcount, hend, List.drop_left]

/-! ## 3. The chain after a message -/

def run (process : κ → Bytes n → Bytes n → κ × Bytes n) (r : κ × Bytes n)
    (blocks : List (Bytes n)) : κ × Bytes n :=
  blocks.foldl (fun r block => process r.1 r.2 block) r

/-- The keys and the chain after a message: the leading blocks are chained, and the last one is held
back. -/
def after [BlockSize n] (process : κ → Bytes n → Bytes n → κ × Bytes n) (k : κ) (s : ByteString) :
    κ × Chain n :=
  ((run process (k, .zero n) (leading n s)).1,
    ⟨(run process (k, .zero n) (leading n s)).2, held n s,
      length_held_le BlockSize.pos s⟩)

variable [BlockSize n] {process : κ → Bytes n → Bytes n → κ × Bytes n} {k : κ}

theorem after_nil : after process k [] = (k, start n) := by
  have hlead : leading n ([] : ByteString) = [] := by
    rw [leading, blockCount_sub_one BlockSize.pos, List.length_nil,
      Nat.zero_sub, Nat.zero_div]
    rfl
  simp only [after, hlead]
  simp [run, start, held]

/-- Making room and holding back a stretch that fits leaves the chain of the longer message. -/
theorem hold_release_after (s : ByteString) {data : ByteString} (hdata : data ≠ [])
    {r : κ × Chain n} (hr : release process (after process k s).1 (after process k s).2 = r) :
    after process k (s ++ data.take r.2.room) = (r.1, r.2.hold data) := by
  have hn : 0 < n := BlockSize.pos
  have htake : ∀ m, 0 < m → data.take m ≠ [] := by
    intro m hm h
    rcases List.take_eq_nil_iff.mp h with h0 | h0
    · omega
    · exact hdata h0
  by_cases hfull : (held n s).length = n
  · -- the block held back was not the last one
    have hrel : release process (after process k s).1 (after process k s).2 =
        ((run process (k, .zero n) (leading n s ++ [Bytes.padded n (held n s)])).1,
          ⟨(run process (k, .zero n) (leading n s ++ [Bytes.padded n (held n s)])).2, [],
            Nat.zero_le n⟩) := by
      have hf : (after process k s).2.full = true := by simpa [full, after] using hfull
      rw [release, if_pos hf, run, List.foldl_append]
      rfl
    rw [hrel] at hr
    subst hr
    obtain ⟨hlead, hheld⟩ :=
      leading_append_of_full hn (htake n hn) hfull (List.length_take_le n data)
    change after process k (s ++ data.take n) = _
    simp only [after, hlead, hheld]
    rfl
  · -- the block held back has room, and stays the last one
    have hrel : release process (after process k s).1 (after process k s).2 =
        after process k s := by
      have hf : (after process k s).2.full = false := by simpa [full, after] using hfull
      rw [release, if_neg (by simp [hf])]
    rw [hrel] at hr
    subst hr
    have hheldn := length_held_le hn s
    have hfit : (held n s).length + (data.take (n - (held n s).length)).length ≤ n := by
      rw [List.length_take]
      omega
    obtain ⟨hlead, hheld⟩ := leading_append_of_room hn (htake _ (by omega)) hfit
    change after process k (s ++ data.take (n - (held n s).length)) = _
    simp only [after, hlead, hheld]
    rfl

/-- **A chain does not see how a message is cut.** -/
theorem feed_after (s data : ByteString) :
    feed process (after process k s).1 (after process k s).2 data =
      after process k (s ++ data) := by
  by_cases hdata : data = []
  · rw [hdata, feed, dif_pos rfl, List.append_nil]
  · have hpos := room_release_pos process (after process k s).1 (after process k s).2
    have hlen : 0 < data.length := List.length_pos_iff.mpr hdata
    rw [feed, dif_neg hdata]
    generalize hr : release process (after process k s).1 (after process k s).2 = r at hpos
    have hstep := hold_release_after s hdata hr
    have hrest := feed_after (s ++ data.take r.2.room) (data.drop r.2.room)
    rw [hstep, List.append_assoc, List.take_append_drop] at hrest
    exact hrest
termination_by data.length
decreasing_by simp only [List.length_drop]; omega

end Chain

end GostSuite

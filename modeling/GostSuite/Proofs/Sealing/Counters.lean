import GostSuite.Proofs.Cipher.Permutation
import GostSuite.Proofs.Sealing.Trace

/-!
# Counters that do not come back

A nonce gives two counters, and both start at a value that nobody chooses: it is an encrypted block.
So a counter may stand just below the end of its half when a message begins, and wrap soon after.
That does no harm. Wrapped or not, the values are as far from the first one as blocks have been
counted, and two of them are equal only if a whole half of a block lies between them.

What keeps that from happening is the bound of the mode, which is written for another purpose: the
lengths in bits have to fit half a block. It leaves room for one counter to each byte, and so for
the block with the lengths besides.

A cipher is a permutation, so what is true of the counters is true of what they are encrypted to.
-/

set_option autoImplicit false

namespace GostSuite

/-! ## 1. A range of counters -/

namespace Bytes

variable {n : Nat}

theorem nodup_plusLeft (b : Bytes n) {count : Nat} (h : count ≤ 256 ^ (n / 2)) :
    ((List.range count).map b.plusLeft).Nodup := by
  refine List.Nodup.map_on (fun i hi j hj heq => ?_) List.nodup_range
  exact (plusLeft_inj (Nat.lt_of_lt_of_le (List.mem_range.mp hi) h)
    (Nat.lt_of_lt_of_le (List.mem_range.mp hj) h)).mp heq

theorem nodup_plusRight (b : Bytes n) {count : Nat} (h : count ≤ 256 ^ (n - n / 2)) :
    ((List.range count).map b.plusRight).Nodup := by
  refine List.Nodup.map_on (fun i hi j hj heq => ?_) List.nodup_range
  exact (plusRight_inj (Nat.lt_of_lt_of_le (List.mem_range.mp hi) h)
    (Nat.lt_of_lt_of_le (List.mem_range.mp hj) h)).mp heq

end Bytes

namespace Mgm

variable {a : Algorithm}

/-! ## 2. How many blocks there are -/

namespace Message

variable {n : Nat}

theorem map_counter_numbered (z : Bytes n) (blocks : List (Bytes n)) :
    (numbered z blocks).map Term.counter = (List.range blocks.length).map z.plusLeft := by
  induction blocks using List.reverseRecOn with
  | nil => rfl
  | append_singleton blocks block ih =>
    rw [numbered_concat, List.map_append, ih, List.length_append, List.length_singleton,
      List.range_succ, List.map_append]
    rfl

theorem map_block_numbered (z : Bytes n) (blocks : List (Bytes n)) :
    (numbered z blocks).map Term.block = blocks := by
  induction blocks using List.reverseRecOn with
  | nil => rfl
  | append_singleton blocks block ih => rw [numbered_concat, List.map_append, ih]; rfl

variable [BlockSize n]

theorem length_authenticated (aad ciphertext : ByteString) :
    (authenticated n aad ciphertext).length =
      madeFor n aad.length + madeFor n ciphertext.length + 1 := by
  rw [authenticated, List.length_append, List.length_append, length_paddedBlocks,
    length_paddedBlocks]
  rfl

end Message

theorem length_summed_le (aad ciphertext : ByteString) :
    (summed a.blockLen aad ciphertext).length ≤ aad.length + ciphertext.length := by
  rw [summed]
  split
  · rw [ByteString.length_blocks_fst a.blockLen_pos]
    exact Nat.le_add_right_of_le (Nat.div_le_self _ _)
  · rw [List.length_append, Message.length_paddedBlocks,
      ByteString.length_blocks_fst a.blockLen_pos]
    exact Nat.add_le_add (Message.madeFor_le _) (Nat.div_le_self _ _)

variable {m : Mgm a} {c : Cipher a} {nonce : Block a} {t : Trace a.blockLen} {tagged : Bool}

/-- The terms of a session are numbered from its nonce on, and there are not too many of them. -/
theorem Recorded.numbered (h : Recorded c nonce tagged t m) :
    ∃ blocks, t.terms = Message.numbered (firstZ c nonce) blocks ∧
      blocks.length ≤ t.aad.length + t.ciphertext.length + 1 := by
  cases h.course with
  | underway stands terms => exact ⟨_, terms, Nat.le_succ_of_le (length_summed_le _ _)⟩
  | closed phase terms =>
    refine ⟨_, terms, ?_⟩
    rw [Message.length_authenticated]
    exact Nat.succ_le_succ (Nat.add_le_add (Message.madeFor_le _) (Message.madeFor_le _))

theorem Recorded.nodup_terms (h : Recorded c nonce tagged t m) :
    (t.terms.map Term.counter).Nodup := by
  obtain ⟨blocks, hterms, hlen⟩ := h.numbered
  rw [hterms, Message.map_counter_numbered]
  exact Bytes.nodup_plusLeft _ (hlen.trans (lt_of_le_maxLen h.bounded))

theorem Recorded.nodup_counters (h : Recorded c nonce tagged t m) : t.counters.Nodup := by
  -- the trailing half is no shorter than the leading one, which the bound is about
  have hhalf : a.blockLen / 2 ≤ a.blockLen - a.blockLen / 2 := by omega
  have hlen := lt_of_le_maxLen (Nat.le_of_add_left_le h.bounded)
  have hpow := Nat.pow_le_pow_right (n := 256) (by decide) hhalf
  rw [h.counters]
  refine Bytes.nodup_plusRight _ ((Message.madeFor_le _).trans ?_)
  exact (Nat.le_of_lt hlen).trans hpow

/-- When the tag is out, the terms have all blocks that it authenticates. -/
theorem Recorded.blocks (h : Recorded c nonce true t m) :
    t.terms.map Term.block = Message.authenticated a.blockLen t.aad t.ciphertext := by
  cases h.course with
  | closed phase terms => rw [terms, Message.map_block_numbered]

/-! ## 3. The law -/

/-- **No counter comes back within a message.** After a nonce and any calls that start or drop no
message, in any order and refused or not, all counters that were encrypted to keystream differ from
each other, one for each block of the ciphertext, and so do all counters that were encrypted to
factors, one for each block that was added up. What they were encrypted to differs as well. When the
tag is out, the blocks are all that it authenticates. The counters and blocks meant are those that
the ciphertext and the tag are made of. -/
theorem counters_distinct (c : Cipher a) (m : Mgm a) (hcipher : m.cipher = some c)
    (nonce : Block a) (since : List Call) (hsince : ∀ call ∈ since, call.restarts a = false) :
    let t := m.trace (.setIv nonce.toList :: since)
    t.aad.length + t.ciphertext.length ≤ maxLen a ∧
      t.counters.Nodup ∧ (t.counters.map c.encrypt).Nodup ∧
      (t.terms.map Term.counter).Nodup ∧ ((t.terms.map Term.counter).map c.encrypt).Nodup ∧
      t.counters.length = Message.madeFor a.blockLen t.ciphertext.length ∧
      (ended a since = true →
        t.terms.map Term.block = Message.authenticated a.blockLen t.aad t.ciphertext) ∧
      Faithful c m (.setIv nonce.toList :: since) := by
  intro t
  have h : Recorded c nonce (ended a since) t _ := recorded_calls hcipher nonce since hsince
  refine ⟨h.bounded, h.nodup_counters, h.nodup_counters.map c.encrypt_injective, h.nodup_terms,
    h.nodup_terms.map c.encrypt_injective, ?_, ?_, trace_faithful hcipher nonce since hsince⟩
  · rw [h.counters, Message.countersAt, List.length_map, List.length_range]
  · intro hended
    rw [hended] at h
    exact h.blocks

/-- Associated data that comes too late is refused, and the tag comes in between. -/
theorem counters_distinct_gost89 :
    let c := Cipher.gost89OfKey (.zero 32) default
    let since : List Call :=
      [.updateAad [1, 2], .encrypt [3], .updateAad [4], .decrypt [5, 6], .finish, .encrypt [7]]
    let t := (ofCipher c).trace (.setIv (List.replicate 8 0) :: since)
    t.counters.Nodup ∧ (t.terms.map Term.counter).Nodup ∧
      t.terms.map Term.block = Message.authenticated 8 t.aad t.ciphertext ∧
      Faithful c (ofCipher c) (.setIv (List.replicate 8 0) :: since) := by
  intro c since t
  obtain ⟨-, hcounters, -, hterms, -, -, hblocks, hfaithful⟩ :=
    counters_distinct c (ofCipher c) rfl (.zero 8) since (by decide)
  exact ⟨hcounters, hterms, hblocks (by decide), hfaithful⟩

end Mgm

end GostSuite

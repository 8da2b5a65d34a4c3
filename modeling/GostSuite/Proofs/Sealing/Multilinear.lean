import GostSuite.Proofs.Bytes.Counting
import GostSuite.Proofs.Bytes.Cutting
import GostSuite.Proofs.Bytes.Masking
import GostSuite.Proofs.Sealing.Keyed

/-!
# The multilinear sum, block by block

The authenticated mode has a definition on whole messages. The ciphertext is the plaintext masked
with the encrypted values of one counter, and the tag is the encrypted sum of all blocks, block `i`
times the encrypted value `i` of another counter: first the blocks of the associated data, then
those of the ciphertext, then one with both lengths. `keystream` and `fullTag` are that definition.
Both counters begin at the encryption of a bit with the nonce behind it, and `behindBit` writes the
two down as one number. That the mode gets there by changing the first byte of the nonce is a
theorem (`withTopBit_eq`).

A message under way is a function of what has gone into it: `standing`. Two things are open while
it goes on, the stretch that is being taken (associated data first, ciphertext later) and the blocks
that were closed before that stretch began. Each operation on a message is an equation between two
values of `standing`, so nothing about a message has to be remembered from step to step except the
bytes themselves:

* `absorb_standing`: taking bytes makes the stretch longer, whatever the pieces;
* `foldPending_standing`: closing a stretch moves its padded blocks to the closed ones;
* `turnBytes_standing`: turning bytes masks them and takes their ciphertext.
-/

set_option autoImplicit false

namespace GostSuite

namespace Mgm

namespace Message

variable {n : Nat}

/-! ## 1. The sum -/

/-- The sum of the blocks, block `i` times the encrypted counter `z + i`. -/
def weightedSum (encrypt : Bytes n → Bytes n) (z : Bytes n) (blocks : List (Bytes n)) : Bytes n :=
  (blocks.mapIdx fun i block => (encrypt (z.plusLeft i)).fieldMul block).foldl (· ^^^ ·) (.zero n)

theorem weightedSum_concat (encrypt : Bytes n → Bytes n) (z : Bytes n) (blocks : List (Bytes n))
    (block : Bytes n) :
    weightedSum encrypt z (blocks ++ [block]) =
      weightedSum encrypt z blocks ^^^ (encrypt (z.plusLeft blocks.length)).fieldMul block := by
  rw [weightedSum, List.mapIdx_append, List.foldl_append]
  simp [weightedSum]

/-- The block with both lengths, in bits, half a block each. -/
def lengths (n aadLen dataLen : Nat) : Bytes n :=
  .padded n
    (ByteString.bigEndian (n / 2) (8 * aadLen) ++ ByteString.bigEndian (n / 2) (8 * dataLen))

/-- All blocks that a tag authenticates. -/
def authenticated (n : Nat) (aad ciphertext : ByteString) : List (Bytes n) :=
  aad.paddedBlocks n ++ ciphertext.paddedBlocks n ++ [lengths n aad.length ciphertext.length]

/-! ## 2. A message as a function of its bytes -/

/-- Blocks of keystream that `count` bytes need. -/
def madeFor (n count : Nat) : Nat := (count + (n - 1)) / n

variable [BlockSize n]

/-- The message after the blocks `closed` and, behind them, the bytes `stretch`, when `made` blocks
of keystream have been made. -/
def standing (encrypt : Bytes n → Bytes n) (y z : Bytes n) (closed : List (Bytes n))
    (stretch : ByteString) (aadLen dataLen made : Nat) : Message n where
  y := y.plusRight made
  z := z.plusLeft (closed ++ (stretch.blocks n).1).length
  sum := weightedSum encrypt z (closed ++ (stretch.blocks n).1)
  aadLen := aadLen
  dataLen := dataLen
  pending := (stretch.blocks n).2
  length_pending := ByteString.length_blocks_snd_lt BlockSize.pos stretch
  keystream := if made = 0 then .zero n else encrypt (y.plusRight (made - 1))

variable {encrypt : Bytes n → Bytes n} {y z : Bytes n} {closed : List (Bytes n)}
  {stretch : ByteString} {aadLen dataLen made : Nat}

/-- Adding a block to the sum gives the message in which that block has come to stand behind the
others, be it closed or at the end of the stretch. -/
theorem fold_standing {closed' : List (Bytes n)} {stretch' : ByteString} {block : Bytes n}
    (hblocks : closed' ++ (stretch'.blocks n).1 = closed ++ (stretch.blocks n).1 ++ [block])
    (hrest : (stretch'.blocks n).2 = []) :
    ((standing encrypt y z closed stretch aadLen dataLen made).fold encrypt block).clearPending =
      standing encrypt y z closed' stretch' aadLen dataLen made := by
  ext1
  · rfl
  · simp only [standing, fold, clearPending, hblocks, Bytes.incrementLeft_plusLeft,
      List.length_append, List.length_singleton]
  · simp only [standing, fold, clearPending, hblocks, weightedSum_concat]
  · rfl
  · rfl
  · simp only [standing, clearPending, hrest]
  · rfl

/-- Filling up makes the stretch longer by what there is room for. -/
theorem fill_standing (data : ByteString) :
    (standing encrypt y z closed stretch aadLen dataLen made).fill encrypt data =
      standing encrypt y z closed (stretch ++ data.take (n - (stretch.blocks n).2.length)) aadLen
        dataLen made := by
  have hblocks := ByteString.blocks_fill (n := n) BlockSize.pos stretch data
  simp only at hblocks
  rw [fill]
  -- short of a block only `pending` moves; a completed one is summed up and counted by `z`
  by_cases hshort :
      ((stretch.blocks n).2 ++ data.take (n - (stretch.blocks n).2.length)).length < n
  · rw [if_pos hshort] at hblocks
    refine (dif_pos hshort).trans ?_
    ext1 <;> simp [standing, hblocks, room]
  · rw [if_neg hshort] at hblocks
    refine (dif_neg hshort).trans (fold_standing ?_ ?_)
    · rw [hblocks, List.append_assoc]
      rfl
    · rw [hblocks]

/-- **A message does not see how a stretch is cut.** -/
theorem absorb_standing (stretch data : ByteString) :
    (standing encrypt y z closed stretch aadLen dataLen made).absorb encrypt data =
      standing encrypt y z closed (stretch ++ data) aadLen dataLen made := by
  by_cases hdata : data = []
  · rw [hdata, absorb, dif_pos rfl, List.append_nil]
  · have hn : 0 < n := BlockSize.pos
    have hpend := ByteString.length_blocks_snd_lt hn stretch
    have hlen : 0 < data.length := List.length_pos_iff.mpr hdata
    rw [absorb, dif_neg hdata, fill_standing, absorb_standing, List.append_assoc]
    change standing encrypt y z closed (stretch ++ (data.take (n - (stretch.blocks n).2.length) ++
      data.drop (n - (stretch.blocks n).2.length))) aadLen dataLen made = _
    rw [List.take_append_drop]
termination_by data.length
decreasing_by
  simp only [List.length_drop, room, standing]
  omega

theorem takeAad_standing (aad : ByteString) :
    (standing encrypt y z closed stretch aadLen dataLen made).takeAad encrypt aad =
      standing encrypt y z closed (stretch ++ aad) (aadLen + aad.length) dataLen made :=
  absorb_standing stretch aad

/-- A stretch that has ended is closed with all its blocks, the last one filled with zeros. -/
theorem foldPending_standing :
    (standing encrypt y z closed stretch aadLen dataLen made).foldPending encrypt =
      standing encrypt y z (closed ++ stretch.paddedBlocks n) [] aadLen dataLen made := by
  have hnil : ByteString.blocks n [] = ([], []) := ByteString.blocks_nil BlockSize.pos
  have hpad := ByteString.paddedBlocks_eq (n := n) stretch
  by_cases hempty : (stretch.blocks n).2 = []
  · rw [hempty, List.isEmpty_nil, if_pos rfl, List.append_nil] at hpad
    have hpending : (standing encrypt y z closed stretch aadLen dataLen made).pending.isEmpty :=
      List.isEmpty_iff.mpr hempty
    rw [foldPending, if_pos hpending]
    ext1 <;> simp [standing, hpad, hnil, hempty]
  · have hsome : (stretch.blocks n).2.isEmpty = false :=
      Bool.eq_false_iff.mpr fun h => hempty (List.isEmpty_iff.mp h)
    have hpending : ¬(standing encrypt y z closed stretch aadLen dataLen made).pending.isEmpty :=
      fun h => hempty (List.isEmpty_iff.mp h)
    rw [hsome, if_neg Bool.false_ne_true] at hpad
    rw [foldPending, if_neg hpending]
    refine fold_standing ?_ ?_
    · rw [hnil, List.append_nil, hpad, ← List.append_assoc]
      rfl
    · rw [hnil]

/-- The tag encrypts the sum of the closed blocks, those of the stretch, and the one with the
lengths. -/
theorem close_standing :
    (standing encrypt y z closed stretch aadLen dataLen made).close encrypt =
      encrypt (weightedSum encrypt z
        (closed ++ stretch.paddedBlocks n ++ [lengths n aadLen dataLen])) := by
  have hnil : ByteString.blocks n [] = ([], []) :=
    ByteString.blocks_nil BlockSize.pos
  rw [close, foldPending_standing, weightedSum_concat]
  simp only [fold, standing, hnil, List.append_nil]
  rfl

/-! ## 3. Keystream, one byte after the other

A block of keystream is made when the first byte needs it, and it stands until its block of
ciphertext is complete. So `count` bytes need `madeFor n count` blocks, and the last of them is the
one that byte `count - 1` has met. -/

theorem madeFor_succ (count : Nat) : madeFor n (count + 1) = count / n + 1 := by
  have hn : 0 < n := BlockSize.pos
  have hshift : count + 1 + (n - 1) = count + n := by omega
  rw [madeFor, hshift, Nat.add_div_right _ hn]

theorem madeFor_of_mod_eq_zero {count : Nat} (h : count % n = 0) : madeFor n count = count / n := by
  have hn : 0 < n := BlockSize.pos
  have hcount := Nat.div_add_mod count n
  rw [h, Nat.add_zero] at hcount
  have hlast : (n - 1) / n = 0 := Nat.div_eq_of_lt (Nat.sub_lt hn Nat.one_pos)
  have hdiv : (n * (count / n) + (n - 1)) / n = count / n := by
    rw [Nat.mul_add_div hn, hlast, Nat.add_zero]
  rwa [hcount] at hdiv

theorem madeFor_of_mod_ne_zero {count : Nat} (h : count % n ≠ 0) :
    madeFor n count = count / n + 1 := by
  have hn : 0 < n := BlockSize.pos
  have hlt := Nat.mod_lt count hn
  have hcount := Nat.div_add_mod count n
  have hshift : count + (n - 1) = n * (count / n + 1) + (count % n - 1) := by
    rw [Nat.mul_succ]
    omega
  have hrest : (count % n - 1) / n = 0 := Nat.div_eq_of_lt (by omega)
  rw [madeFor, hshift, Nat.mul_add_div hn, hrest, Nat.add_zero]

theorem madeFor_zero : madeFor n 0 = 0 := by
  rw [madeFor_of_mod_eq_zero (Nat.zero_mod n), Nat.zero_div]

/-- Every byte finds its block of keystream among those that were made. -/
theorem div_lt_madeFor {j count : Nat} (h : j < count) : j / n < madeFor n count := by
  cases count with
  | zero => exact absurd h (Nat.not_lt_zero j)
  | succ count =>
    rw [madeFor_succ]
    exact Nat.lt_succ_of_le (Nat.div_le_div_right (Nat.le_of_lt_succ h))

/-- No message has more blocks than bytes. -/
theorem madeFor_le (count : Nat) : madeFor n count ≤ count := by
  cases count with
  | zero => exact Nat.le_of_eq madeFor_zero
  | succ count =>
    rw [madeFor_succ]
    exact Nat.succ_le_succ (Nat.div_le_self count n)

/-- Padded blocks are counted the same way: one for every whole block and one for a rest. -/
theorem length_paddedBlocks (s : ByteString) :
    (s.paddedBlocks n).length = madeFor n s.length := by
  have hwhole := ByteString.length_blocks_fst (n := n) BlockSize.pos s
  have hrest := ByteString.isEmpty_blocks_snd (n := n) BlockSize.pos s
  rw [ByteString.paddedBlocks_eq, List.length_append, hwhole]
  by_cases h0 : s.length % n = 0
  · rw [madeFor_of_mod_eq_zero h0, if_pos (hrest.mpr h0)]
    rfl
  · rw [madeFor_of_mod_ne_zero h0, if_neg fun hempty => h0 (hrest.mp hempty)]
    rfl

/-- The keystream of a message. -/
def streamFrom (encrypt : Bytes n → Bytes n) (y : Bytes n) : Nat → UInt8 :=
  streamOf fun i => encrypt (y.plusRight i)

theorem refill_standing :
    (standing encrypt y z closed stretch aadLen dataLen (madeFor n stretch.length)).refill encrypt =
      standing encrypt y z closed stretch aadLen dataLen (madeFor n (stretch.length + 1)) := by
  have hrest := ByteString.isEmpty_blocks_snd (n := n) BlockSize.pos stretch
  rw [madeFor_succ]
  -- a block is made exactly where the count of made ones goes up
  by_cases h0 : stretch.length % n = 0
  · have hempty : (standing encrypt y z closed stretch aadLen dataLen
        (madeFor n stretch.length)).pending.isEmpty := hrest.mpr h0
    rw [refill, if_pos hempty, madeFor_of_mod_eq_zero h0]
    ext1
    · exact Bytes.incrementRight_plusRight y (stretch.length / n)
    all_goals rfl
  · have hsome : ¬(standing encrypt y z closed stretch aadLen dataLen
        (madeFor n stretch.length)).pending.isEmpty := fun hempty => h0 (hrest.mp hempty)
    rw [refill, if_neg hsome, madeFor_of_mod_ne_zero h0]

theorem keystreamByte_standing :
    (standing encrypt y z closed stretch aadLen dataLen
      (madeFor n (stretch.length + 1))).keystreamByte = streamFrom encrypt y stretch.length := by
  have hpend := ByteString.length_blocks_snd (n := n) BlockSize.pos stretch
  rw [madeFor_succ]
  change (encrypt (y.plusRight (stretch.length / n))).toList.getD (stretch.blocks n).2.length 0 = _
  rw [hpend]
  rfl

/-- There is always room for one byte. -/
theorem take_singleton (stretch : ByteString) (b : UInt8) :
    [b].take (n - (stretch.blocks n).2.length) = [b] := by
  have hpend := ByteString.length_blocks_snd_lt (n := n) BlockSize.pos stretch
  exact List.take_of_length_le (by rw [List.length_singleton]; omega)

/-- One byte of the message meets its byte of the keystream, and its ciphertext joins the
stretch. -/
theorem turnByte_standing (d : Direction) (b : UInt8) :
    (standing encrypt y z closed stretch aadLen dataLen
        (madeFor n stretch.length)).turnByte encrypt d b =
      (b ^^^ streamFrom encrypt y stretch.length,
        standing encrypt y z closed
          (stretch ++ [d.cipherByte b (b ^^^ streamFrom encrypt y stretch.length)]) aadLen dataLen
          (madeFor n (stretch.length + 1))) := by
  simp only [turnByte, refill_standing, keystreamByte_standing, fill_standing, take_singleton]

/-- The ciphertext side of a piece of the message that keystream from `start` on has turned. -/
def cipherSide (d : Direction) (ks : Nat → UInt8) (start : Nat) (data : ByteString) : ByteString :=
  match d with
  | .encrypting => data.mask ks start
  | .decrypting => data

theorem cipherSide_nil (d : Direction) (ks : Nat → UInt8) (start : Nat) :
    cipherSide d ks start [] = [] := by
  cases d with
  | encrypting => rfl
  | decrypting => rfl

theorem length_cipherSide (d : Direction) (ks : Nat → UInt8) (start : Nat) (data : ByteString) :
    (cipherSide d ks start data).length = data.length := by
  cases d with
  | encrypting => exact ByteString.length_mask start data
  | decrypting => rfl

theorem cipherSide_ne_nil {data : ByteString} (h : data ≠ []) (d : Direction) (ks : Nat → UInt8)
    (start : Nat) : cipherSide d ks start data ≠ [] := by
  rw [← List.length_pos_iff, length_cipherSide]
  exact List.length_pos_iff.mpr h

theorem cipherSide_cons (d : Direction) (ks : Nat → UInt8) (start : Nat) (b : UInt8)
    (data : ByteString) :
    cipherSide d ks start (b :: data) =
      d.cipherByte b (b ^^^ ks start) :: cipherSide d ks (start + 1) data := by
  cases d with
  | encrypting => rfl
  | decrypting => rfl

theorem cipherSide_append (d : Direction) (ks : Nat → UInt8) (start : Nat) (s t : ByteString) :
    cipherSide d ks start (s ++ t) =
      cipherSide d ks start s ++ cipherSide d ks (start + s.length) t := by
  cases d with
  | encrypting => exact ByteString.mask_append start s t
  | decrypting => rfl

/-- **A piece of the message is masked, and its ciphertext joins the stretch**, whichever way the
bytes go. -/
theorem turnBytes_standing (d : Direction) (data : ByteString) :
    (standing encrypt y z closed stretch aadLen dataLen
        (madeFor n stretch.length)).turnBytes encrypt d data =
      (data.mask (streamFrom encrypt y) stretch.length,
        standing encrypt y z closed
          (stretch ++ cipherSide d (streamFrom encrypt y) stretch.length data) aadLen dataLen
          (madeFor n (stretch.length + data.length))) := by
  induction data generalizing stretch with
  | nil =>
    rw [cipherSide_nil, List.append_nil]
    rfl
  | cons b data ih =>
    have hrest := @ih (stretch ++ [d.cipherByte b (b ^^^ streamFrom encrypt y stretch.length)])
    rw [List.length_append, List.length_singleton, List.append_assoc, List.singleton_append,
      Nat.add_assoc, Nat.add_comm 1] at hrest
    rw [turnBytes, turnByte_standing, cipherSide_cons, List.length_cons]
    simp only [hrest]
    rfl

end Message

/-! ## 4. The two counters of a nonce -/

/-- One bit, and behind it the `8 n - 1` bits of the nonce that follow its first one. -/
def behindBit {n : Nat} (bit : Bool) (nonce : Bytes n) : Bytes n :=
  ⟨ByteString.bigEndian n
    (bit.toNat * 2 ^ (8 * n - 1) + nonce.toList.value % 2 ^ (8 * n - 1)), by simp⟩

theorem toNat_topBit (bit : Bool) (b : UInt8) :
    (if bit then b ||| 0x80 else b &&& 0x7f).toNat = bit.toNat * 128 + b.toNat % 128 := by
  have hand : b.toNat &&& 127 = b.toNat % 128 := Nat.and_two_pow_sub_one_eq_mod b.toNat 7
  have hor : ∀ x < 256, x ||| 128 = 128 + x % 128 := by decide +kernel
  cases bit with
  | false => simpa using hand
  | true => simpa using hor b.toNat b.toNat_lt

/-- The bits behind the first one are the last seven of the first byte, and all bytes after it. -/
theorem value_behind_firstBit (b : UInt8) (low : ByteString) :
    ByteString.value (b :: low) % (256 ^ low.length * 128) =
      b.toNat % 128 * 256 ^ low.length + low.value := by
  have hpos : 0 < 256 ^ low.length := Nat.pow_pos (by decide)
  have hlow := ByteString.value_lt low
  rw [ByteString.value_cons, Nat.mod_mul, Nat.mul_comm b.toNat, Nat.mul_add_mod,
    Nat.mul_add_div hpos, Nat.mod_eq_of_lt hlow, Nat.div_eq_of_lt hlow, Nat.add_zero]
  ring

/-- Setting or clearing the first bit of a block leaves all bits behind it. -/
theorem withTopBit_eq {n : Nat} (bit : Bool) (nonce : Bytes n) :
    withTopBit bit nonce = behindBit bit nonce := by
  obtain ⟨s, hs⟩ := nonce
  subst hs
  cases s with
  | nil => rfl
  | cons b low =>
    -- the changed bytes are one number with the bytes on the other side, and so the same bytes
    have hbits : 8 * (b :: low).length - 1 = 8 * low.length + 7 := by
      rw [List.length_cons]
      omega
    have hpow : 2 ^ (8 * (b :: low).length - 1) = 256 ^ low.length * 128 := by
      rw [hbits, pow_add, ByteString.base_pow]
      rfl
    have hvalue : ByteString.value ((if bit then b ||| 0x80 else b &&& 0x7f) :: low) =
        bit.toNat * (256 ^ low.length * 128) +
          ByteString.value (b :: low) % (256 ^ low.length * 128) := by
      rw [value_behind_firstBit, ByteString.value_cons, toNat_topBit]
      ring
    apply Bytes.ext
    change (if bit then b ||| 0x80 else b &&& 0x7f) :: low = ByteString.bigEndian _ _
    rw [hpow, ← hvalue]
    exact (ByteString.bigEndian_value _).symm

/-! ## 5. The definition on whole messages -/

variable {a : Algorithm}

/-- The first keystream counter of a nonce. -/
def firstY (c : Cipher a) (nonce : Block a) : Block a := c.encrypt (behindBit false nonce)

/-- The first counter of the authentication factors of a nonce. -/
def firstZ (c : Cipher a) (nonce : Block a) : Block a := c.encrypt (behindBit true nonce)

def keystream (c : Cipher a) (nonce : Block a) : Nat → UInt8 :=
  Message.streamFrom c.encrypt (firstY c nonce)

/-- The whole tag of associated data and a ciphertext. -/
def fullTag (c : Cipher a) (nonce : Block a) (aad ciphertext : ByteString) : Block a :=
  c.encrypt (Message.weightedSum c.encrypt (firstZ c nonce)
    (Message.authenticated a.blockLen aad ciphertext))

end Mgm

end GostSuite

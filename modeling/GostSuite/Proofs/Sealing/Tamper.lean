import GostSuite.Proofs.Cipher.Permutation
import GostSuite.Proofs.Field.Blocks
import GostSuite.Proofs.Sealing.Session

/-!
# Changed messages

Somebody changes a message on its way and leaves the tag as it was. What happens is decided by one
number for each block, its authentication factor. The tag encrypts a sum in which every block is
multiplied by its factor, so a single changed block changes the sum by the product of the factor
with the change. A field has no zero divisors and a cipher loses nothing, and so the tag still fits
in one case only:

> the factor of the changed block is zero (`fullTag_eq_iff`).

This is a law about two runs of the mode, and it is exact. It leaves one place open at most, because
the counter of the factors does not come back within a message (`factor_zero_unique`).
-/

set_option autoImplicit false

namespace GostSuite

namespace Mgm

variable {a : Algorithm}

/-! ## 1. A sum with one block changed -/

namespace Message

variable {n : Nat} [BlockSize n] {encrypt : Bytes n → Bytes n} {z : Bytes n}

theorem weightedSum_set {blocks : List (Bytes n)} {i : Nat} {old : Bytes n}
    (hold : blocks[i]? = some old) (new : Bytes n) :
    weightedSum encrypt z (blocks.set i new) =
      weightedSum encrypt z blocks ^^^ (encrypt (z.plusLeft i)).fieldMul (old ^^^ new) := by
  induction blocks using List.reverseRecOn with
  | nil => exact absurd hold (by simp)
  | append_singleton blocks block ih =>
    rcases Nat.lt_trichotomy i blocks.length with hlt | rfl | hgt
    · -- the last block stays, and its product is moved behind the change
      rw [List.getElem?_append_left hlt] at hold
      rw [List.set_append_left _ _ hlt, weightedSum_concat, List.length_set, ih hold,
        weightedSum_concat, Bytes.xor_assoc, Bytes.xor_assoc,
        Bytes.xor_comm (Bytes.fieldMul _ (old ^^^ new))]
    · obtain rfl : block = old := by simpa using hold
      have hset : (blocks ++ [block]).set blocks.length new = blocks ++ [new] := by simp
      rw [hset, weightedSum_concat, weightedSum_concat, Bytes.fieldMul_xor, Bytes.xor_assoc,
        ← Bytes.xor_assoc (Bytes.fieldMul _ block), Bytes.xor_self,
        Bytes.xor_comm (Bytes.zero n), Bytes.xor_zero]
    · have hlen : (blocks ++ [block]).length ≤ i := by simpa using hgt
      rw [List.getElem?_eq_none hlen] at hold
      exact absurd hold (by simp)

end Message

/-- The lists differ in the block `i`, and in no other. -/
def DiffersAt {n : Nat} (i : Nat) (blocks blocks' : List (Bytes n)) : Prop :=
  ∀ j, blocks[j]? = blocks'[j]? ↔ j ≠ i

theorem DiffersAt.eq_set {n : Nat} {i : Nat} {blocks blocks' : List (Bytes n)}
    (h : DiffersAt i blocks blocks') (hlen : blocks.length = blocks'.length) :
    ∃ old new, old ≠ new ∧ blocks[i]? = some old ∧ blocks' = blocks.set i new := by
  have hne : blocks[i]? ≠ blocks'[i]? := fun heq => (h i).mp heq rfl
  have hi : i < blocks.length := by
    by_contra hge
    have hout : blocks.length ≤ i := Nat.le_of_not_lt hge
    rw [List.getElem?_eq_none hout, List.getElem?_eq_none (hlen ▸ hout)] at hne
    exact hne rfl
  have hi' : i < blocks'.length := hlen ▸ hi
  rw [List.getElem?_eq_getElem hi, List.getElem?_eq_getElem hi'] at hne
  refine ⟨blocks[i], blocks'[i], fun heq => hne (congrArg some heq),
    List.getElem?_eq_getElem hi, ?_⟩
  apply List.ext_getElem?
  intro j
  by_cases hj : j = i
  · subst hj
    rw [List.getElem?_set_self hi, List.getElem?_eq_getElem hi']
  · rw [List.getElem?_set_ne (Ne.symm hj), (h j).mpr hj]

/-! ## 2. Two messages and one tag -/

/-- The blocks of associated data and of a ciphertext, in the order in which they are summed up. -/
def pairBlocks (a : Algorithm) (aad ciphertext : ByteString) : List (Block a) :=
  aad.paddedBlocks a.blockLen ++ ciphertext.paddedBlocks a.blockLen

/-- The authentication factor of the block `i`. -/
def factor (c : Cipher a) (nonce : Block a) (i : Nat) : Block a :=
  c.encrypt ((firstZ c nonce).plusLeft i)

theorem length_pairBlocks (aad ciphertext : ByteString) :
    (pairBlocks a aad ciphertext).length =
      Message.madeFor a.blockLen aad.length + Message.madeFor a.blockLen ciphertext.length := by
  rw [pairBlocks, List.length_append, Message.length_paddedBlocks, Message.length_paddedBlocks]

variable {c : Cipher a} {nonce : Block a} {aad aad' ciphertext ciphertext' : ByteString}

/-- **Two messages that differ in one block have one tag only if the factor of that block is
zero.** -/
theorem fullTag_eq_iff {i : Nat} (haad : aad'.length = aad.length)
    (hcipher : ciphertext'.length = ciphertext.length)
    (h : DiffersAt i (pairBlocks a aad ciphertext) (pairBlocks a aad' ciphertext')) :
    fullTag c nonce aad ciphertext = fullTag c nonce aad' ciphertext' ↔
      factor c nonce i = .zero a.blockLen := by
  have hlen : (pairBlocks a aad ciphertext).length = (pairBlocks a aad' ciphertext').length := by
    rw [length_pairBlocks, length_pairBlocks, haad, hcipher]
  obtain ⟨old, new, hne, hold, hset⟩ := h.eq_set hlen
  -- the lengths are the same, so the last block is, and the change is one of the whole sum
  have hall : Message.authenticated a.blockLen aad' ciphertext' =
      (Message.authenticated a.blockLen aad ciphertext).set i new := by
    have hi : i < (pairBlocks a aad ciphertext).length := (List.getElem?_eq_some_iff.mp hold).1
    change pairBlocks a aad' ciphertext' ++ _ = (pairBlocks a aad ciphertext ++ _).set i new
    rw [haad, hcipher, hset, List.set_append_left _ _ hi]
  have hwhole : (Message.authenticated a.blockLen aad ciphertext)[i]? = some old := by
    have hi : i < (pairBlocks a aad ciphertext).length := (List.getElem?_eq_some_iff.mp hold).1
    change (pairBlocks a aad ciphertext ++ _)[i]? = _
    rw [List.getElem?_append_left hi, hold]
  have hchange : old ^^^ new ≠ Bytes.zero a.blockLen := fun hzero =>
    hne (Bytes.xor_eq_zero_iff.mp hzero)
  rw [fullTag, fullTag, c.encrypt_injective.eq_iff, hall, Message.weightedSum_set hwhole,
    Bytes.left_eq_xor_iff, Bytes.fieldMul_eq_zero_iff, or_iff_left hchange, factor]

/-- Only one block of a message can have the factor zero, the block with the lengths among them. -/
theorem factor_zero_unique (c : Cipher a) (nonce : Block a) {aad ciphertext : ByteString}
    (hlen : aad.length + ciphertext.length ≤ maxLen a) {i j : Nat}
    (hi : i ≤ (pairBlocks a aad ciphertext).length)
    (hj : j ≤ (pairBlocks a aad ciphertext).length)
    (hzero : factor c nonce i = .zero a.blockLen) (hzero' : factor c nonce j = .zero a.blockLen) :
    i = j := by
  have hcount : (pairBlocks a aad ciphertext).length < 256 ^ (a.blockLen / 2) := by
    rw [length_pairBlocks]
    exact Nat.lt_of_le_of_lt (Nat.add_le_add (Message.madeFor_le _) (Message.madeFor_le _))
      (lt_of_le_maxLen hlen)
  have hcounters : (firstZ c nonce).plusLeft i = (firstZ c nonce).plusLeft j :=
    c.encrypt_injective (hzero.trans hzero'.symm)
  exact (Bytes.plusLeft_inj (Nat.lt_of_le_of_lt hi hcount)
    (Nat.lt_of_le_of_lt hj hcount)).mp hcounters

/-! ## 3. What a reader is told -/

/-- Whoever has the key and the nonce, takes the associated data and the ciphertext in any pieces,
and has the tag `expected` verified, is given the plaintext and the answer `answer`. -/
def Judged (c : Cipher a) (nonce : Block a) (aad ciphertext expected : ByteString)
    (answer : Except Error (Option Tag)) : Prop :=
  ∀ (m : Mgm a) (opening : List Call) (pieces : List ByteString), m.cipher = some c →
    (∀ call ∈ opening, call.opens = true) → opening.flatMap Call.associated = aad →
    pieces.flatten = ciphertext →
    ∃ m', GoesThrough step m (.setIv nonce.toList :: (opening ++ pieces.map .decrypt))
        (ciphertext.mask (keystream c nonce) 0) m' ∧
      (step m' (.verify expected)).answer = answer

/-- A reader accepts the whole tag of what he has read and no other block. -/
theorem judged (c : Cipher a) (nonce : Block a) (aad ciphertext : ByteString)
    (hlen : aad.length + ciphertext.length ≤ maxLen a) (expected : Block a) :
    Judged c nonce aad ciphertext expected.toList
      (if expected = fullTag c nonce aad ciphertext then .ok none
        else .error .authenticationFailed) := by
  intro m opening pieces hcipher hopening haad hpieces
  subst haad hpieces
  obtain ⟨m₁, hopened, hstands⟩ :=
    (Stands.begin hcipher nonce).goesThrough_opens opening hopening
      (by rw [List.length_nil]; omega)
  obtain ⟨m', hpieces, hend⟩ := hstands.goesThrough_decrypt pieces (by
    rw [List.nil_append, List.length_nil]
    omega)
  refine ⟨m', GoesThrough.cons (step_setIv hcipher nonce) (hopened.append hpieces), ?_⟩
  have hbounds : Bounds.tagLen a expected.toList.length = .ok () := by
    rw [expected.length_toList]
    exact Bounds.tagLen_blockLen a
  have hwhole : expected.toList = (fullTag c nonce (opening.flatMap Call.associated)
      pieces.flatten).toList.take expected.toList.length ↔
      expected = fullTag c nonce (opening.flatMap Call.associated) pieces.flatten := by
    rw [List.take_of_length_le (by rw [Bytes.length_toList, Bytes.length_toList])]
    exact ⟨Bytes.ext, congrArg Bytes.toList⟩
  rw [step, StepOutcome.ofUnit, hend.verify hbounds]
  simp only [List.nil_append, hwhole]
  split <;> rfl

/-- **The tamper law.** A reader takes associated data and a ciphertext, in any pieces, and is shown
the tag of another pair of the same lengths that differs in the block `i` alone. He accepts the tag
if the factor of that block is zero, and otherwise he is told that it fails. For the pair itself he
accepts its tag and no other block. And in one message no two blocks can have the factor zero. -/
theorem tamper_law (c : Cipher a) (nonce : Block a) (aad ciphertext : ByteString)
    (hlen : aad.length + ciphertext.length ≤ maxLen a) :
    (∀ (aad' ciphertext' : ByteString) (i : Nat), aad'.length = aad.length →
      ciphertext'.length = ciphertext.length →
      DiffersAt i (pairBlocks a aad ciphertext) (pairBlocks a aad' ciphertext') →
      Judged c nonce aad' ciphertext' (fullTag c nonce aad ciphertext).toList
        (if factor c nonce i = .zero a.blockLen then .ok none
          else .error .authenticationFailed)) ∧
    (∀ expected : Block a, Judged c nonce aad ciphertext expected.toList
      (if expected = fullTag c nonce aad ciphertext then .ok none
        else .error .authenticationFailed)) ∧
    (∀ i j, i ≤ (pairBlocks a aad ciphertext).length → j ≤ (pairBlocks a aad ciphertext).length →
      factor c nonce i = .zero a.blockLen → factor c nonce j = .zero a.blockLen → i = j) := by
  refine ⟨?_, judged c nonce aad ciphertext hlen, fun i j => factor_zero_unique c nonce hlen⟩
  intro aad' ciphertext' i haad hcipher hdiffers
  have hread := judged c nonce aad' ciphertext' (by rwa [haad, hcipher])
    (fullTag c nonce aad ciphertext)
  simpa only [fullTag_eq_iff haad hcipher hdiffers] using hread

theorem differsAt_gost89 :
    DiffersAt 0 (pairBlocks .gost89 [1, 2] [3]) (pairBlocks .gost89 [1, 5] [3]) := by
  have hblock : ∀ s : ByteString, s ≠ [] → s.length < 8 →
      ByteString.paddedBlocks 8 s = [Bytes.padded 8 s] := by
    intro s hsome hshort
    rw [ByteString.paddedBlocks_eq, ByteString.blocks_of_lt hshort]
    exact if_neg fun hempty => hsome (List.isEmpty_iff.mp hempty)
  have hpair : ∀ s : ByteString, s ≠ [] → s.length < 8 →
      pairBlocks .gost89 s [3] = [Bytes.padded 8 s, Bytes.padded 8 [3]] := by
    intro s hsome hshort
    change ByteString.paddedBlocks 8 s ++ ByteString.paddedBlocks 8 [3] = _
    rw [hblock s hsome hshort, hblock [3] (by simp) (by decide)]
    rfl
  intro j
  rw [hpair [1, 2] (by simp) (by decide), hpair [1, 5] (by simp) (by decide)]
  match j with
  | 0 => exact iff_of_false (by decide) (by decide)
  | 1 => exact iff_of_true rfl (by decide)
  | j + 2 => exact iff_of_true rfl (by omega)

/-- A byte of the associated data is changed, and nothing else. -/
theorem tamper_law_gost89 :
    let c := Cipher.gost89OfKey (.zero 32) default
    let nonce : Block .gost89 := .zero Algorithm.gost89.blockLen
    DiffersAt 0 (pairBlocks .gost89 [1, 2] [3]) (pairBlocks .gost89 [1, 5] [3]) ∧
      Judged c nonce [1, 5] [3] (fullTag c nonce [1, 2] [3]).toList
        (if factor c nonce 0 = .zero Algorithm.gost89.blockLen then .ok none
          else .error .authenticationFailed) := by
  intro c nonce
  have hlaw := (tamper_law c nonce [1, 2] [3] (by decide)).1
  exact ⟨differsAt_gost89, hlaw [1, 5] [3] 0 rfl rfl differsAt_gost89⟩

end Mgm

end GostSuite

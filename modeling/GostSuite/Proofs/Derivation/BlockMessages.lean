import Mathlib.Data.List.Nodup
import GostSuite.Proofs.Bytes.Counting
import GostSuite.Proofs.Derivation.KeyTree

/-!
# What a tree hashes

Every derived block is the keyed code of a message of its own, and the message has two numbers in
it: the number of the block, in the width of the counter, and the bits of the whole output, as short
as they can be written. A machine makes them from words of four and of eight bytes. If a word
overflowed, or if the counter were cut below the number that it holds, two blocks would get one
message, and two keys would be the same key.

What stands against it is the check, because it comes before the first number is computed. A request
that passes it has at most as many blocks as the counter can number (`Accepted`), so its numbers fit
their words with room to spare (`Accepted.fitsWords`) and are written without loss
(`Accepted.messageOf`). From there on two messages can be told apart in the way that they are read:

> the counter is as wide as it is for all blocks, and label and seed are the same, so the number of
> the block stands in front and the length of the output is what is left (`blockMessage_inj`).

The keyed hash is not looked at. It may be any function of a key and a message.
-/

set_option autoImplicit false

namespace GostSuite

namespace ByteString

/-! ## 1. Numbers as short as they can be written -/

/-- The string is the number `v`, without zero bytes in front. Zero is the empty string. -/
structure Shortest (v : Nat) (s : ByteString) : Prop where
  value : s.value = v
  head : s.head? ≠ some 0

theorem value_dropWhile_zero (s : ByteString) : value (s.dropWhile (· == 0)) = value s := by
  induction s with
  | nil => rfl
  | cons b s ih =>
    by_cases hb : b = 0
    · subst hb
      simp [value_cons, ih]
    · simp [hb]

theorem head?_dropWhile_zero (s : ByteString) : (s.dropWhile (· == 0)).head? ≠ some 0 := by
  intro h
  have hnot := List.head?_dropWhile_not (· == (0 : UInt8)) s
  rw [h] at hnot
  simp at hnot

theorem shortest_bigEndian {width v : Nat} (hv : v < 256 ^ width) :
    Shortest v ((bigEndian width v).dropWhile (· == 0)) where
  value := by rw [value_dropWhile_zero, value_bigEndian, Nat.mod_eq_of_lt hv]
  head := head?_dropWhile_zero _

/-- A first byte that is not zero says how long the number is. -/
theorem Shortest.le_value {v : Nat} {s : ByteString} (h : Shortest v s) (hs : s ≠ []) :
    256 ^ (s.length - 1) ≤ v := by
  obtain ⟨b, low, rfl⟩ := List.exists_cons_of_ne_nil hs
  have hb : b ≠ 0 := by
    rintro rfl
    exact h.head rfl
  have hpos : 0 < b.toNat := Nat.pos_of_ne_zero fun h0 => hb (UInt8.toNat_inj.mp h0)
  rw [← h.value, value_cons]
  exact Nat.le_trans (Nat.le_mul_of_pos_left _ hpos) (Nat.le_add_right _ _)

theorem Shortest.length_le {v : Nat} {s t : ByteString} (hs : Shortest v s) (ht : Shortest v t) :
    s.length ≤ t.length := by
  by_cases hnil : s = []
  · simp [hnil]
  · by_contra hlt
    have hlow := hs.le_value hnil
    have hhigh := value_lt t
    have hpow : 256 ^ t.length ≤ 256 ^ (s.length - 1) :=
      Nat.pow_le_pow_right (by decide) (by omega)
    rw [ht.value] at hhigh
    omega

/-- There is one shortest way to write a number. -/
theorem Shortest.unique {v : Nat} {s t : ByteString} (hs : Shortest v s) (ht : Shortest v t) :
    s = t := by
  have hlen : s.length = t.length := Nat.le_antisymm (hs.length_le ht) (ht.length_le hs)
  rw [← bigEndian_value s, ← bigEndian_value t, hs.value, ht.value, hlen]

end ByteString

namespace KeyTree

open ByteString

variable {label seed : ByteString} {counterLen outLen outLen' i i' : Nat}

/-! ## 2. Requests that are accepted -/

/-- The counter has one to four bytes, the output is whole blocks, and the counter can number
them. -/
structure Accepted (counterLen outLen : Nat) : Prop where
  counter : 1 ≤ counterLen ∧ counterLen ≤ 4
  whole : outLen ≠ 0 ∧ 32 ∣ outLen
  numbered : outLen / 32 ≤ 2 ^ (8 * counterLen) - 1

theorem cut_iff (outLen : Nat) : ¬(outLen = 0 ∨ outLen % blockLen ≠ 0) ↔ outLen ≠ 0 ∧ 32 ∣ outLen := by
  rw [not_or, not_not, Nat.dvd_iff_mod_eq_zero]
  rfl

theorem accepted_iff : check counterLen outLen = .ok () ↔ Accepted counterLen outLen := by
  rw [check_eq_ok_iff, cut_iff, Nat.one_shiftLeft]
  exact ⟨fun ⟨hcounter, hwhole, hnumbered⟩ => ⟨hcounter, hwhole, hnumbered⟩,
    fun h => ⟨h.counter, h.whole, h.numbered⟩⟩

/-- The first condition that is broken decides the answer. -/
theorem check_refused (counterLen outLen : Nat) :
    (¬(1 ≤ counterLen ∧ counterLen ≤ 4) →
      check counterLen outLen = .error (.internalError "the KDF counter must be 1 to 4 bytes")) ∧
    (1 ≤ counterLen ∧ counterLen ≤ 4 → ¬(outLen ≠ 0 ∧ 32 ∣ outLen) →
      check counterLen outLen =
        .error (.internalError "KDF output must be a nonzero multiple of 32 bytes")) ∧
    (1 ≤ counterLen ∧ counterLen ≤ 4 → outLen ≠ 0 ∧ 32 ∣ outLen →
      ¬outLen / 32 ≤ 2 ^ (8 * counterLen) - 1 →
      check counterLen outLen =
        .error (.internalError "the KDF counter cannot represent the output length")) := by
  refine ⟨fun hcounter => ?_, fun hcounter hcut => ?_, fun hcounter hcut hmany => ?_⟩
  · rw [check, Bounds.counterLen, if_neg hcounter]
    rfl
  · rw [← cut_iff, not_not] at hcut
    rw [check, Bounds.counterLen, if_pos hcounter, if_pos hcut]
    rfl
  · rw [← cut_iff] at hcut
    rw [check, Bounds.counterLen, if_pos hcounter, if_neg hcut, Nat.one_shiftLeft]
    exact if_pos (Nat.lt_of_not_le hmany)

/-! ## 3. Numbers in their words -/

/-- The words of eight and of four bytes that a request is computed in hold the numbers that are
meant: one more than the highest number that a block can have, the blocks and the bits of the
output, and the number of each block, counted from zero and then from one. That last one fits the
bytes of the counter as well. -/
structure FitsWords (counterLen outLen : Nat) : Prop where
  numbers : ((1 : UInt64) <<< UInt64.ofNat (8 * counterLen)).toNat = 2 ^ (8 * counterLen)
  count : (UInt64.ofNat outLen / 32).toNat = outLen / 32
  bits : (UInt64.ofNat outLen * 8).toNat = 8 * outLen
  number : ∀ i < outLen / 32, (UInt32.ofNat i + 1).toNat = i + 1
  counter : ∀ i < outLen / 32, i + 1 < 256 ^ counterLen

theorem Accepted.number_lt (h : Accepted counterLen outLen) (hi : i ≤ outLen / 32) :
    i < 2 ^ (8 * counterLen) := by
  have hnumbered := h.numbered
  have hpos : 0 < 2 ^ (8 * counterLen) := Nat.two_pow_pos _
  omega

/-- The widest counter has the size of a word. -/
theorem Accepted.numbers_le (h : Accepted counterLen outLen) : 2 ^ (8 * counterLen) ≤ 2 ^ 32 := by
  have hcounter := h.counter
  exact Nat.pow_le_pow_right (by decide) (by omega)

theorem Accepted.outLen_lt (h : Accepted counterLen outLen) : outLen < 2 ^ 37 := by
  have hlt := h.number_lt (Nat.le_refl _)
  have hword := h.numbers_le
  have hwhole : outLen / 32 * 32 = outLen := Nat.div_mul_cancel h.whole.2
  omega

theorem Accepted.fitsWords (h : Accepted counterLen outLen) : FitsWords counterLen outLen where
  numbers := by
    have hword := h.numbers_le
    have hcounter := h.counter
    have hshift : (UInt64.ofNat (8 * counterLen)).toNat = 8 * counterLen := by
      rw [UInt64.toNat_ofNat']
      omega
    rw [UInt64.toNat_shiftLeft, hshift, Nat.mod_eq_of_lt (by omega : 8 * counterLen < 64),
      UInt64.toNat_one, Nat.one_shiftLeft, Nat.mod_eq_of_lt (by omega)]
  count := by
    have hlen := h.outLen_lt
    rw [UInt64.toNat_div, UInt64.toNat_ofNat', Nat.mod_eq_of_lt (by omega : outLen < 2 ^ 64)]
    rfl
  bits := by
    have hlen := h.outLen_lt
    rw [UInt64.toNat_mul, UInt64.toNat_ofNat', Nat.mod_eq_of_lt (by omega : outLen < 2 ^ 64)]
    change outLen * 8 % 2 ^ 64 = _
    omega
  number i hi := by
    have hlt := h.number_lt hi
    have hword := h.numbers_le
    rw [UInt32.toNat_add, UInt32.toNat_ofNat', Nat.mod_eq_of_lt (by omega : i < 2 ^ 32)]
    change (i + 1) % 2 ^ 32 = _
    omega
  counter i hi := by
    rw [base_pow]
    exact h.number_lt hi

/-! ## 4. The message of a block -/

/-- The message of block `i`: its number in the width of the counter, the label, a zero byte, the
seed, and the bits of the output, as short as they can be written. -/
def MessageOf (label seed : ByteString) (counterLen outLen i : Nat) (message : ByteString) : Prop :=
  ∃ counter bits : ByteString, counter.length = counterLen ∧ counter.value = i ∧
    Shortest (8 * outLen) bits ∧ message = counter ++ label ++ [0] ++ seed ++ bits

theorem MessageOf.unique {m m' : ByteString} (h : MessageOf label seed counterLen outLen i m)
    (h' : MessageOf label seed counterLen outLen i m') : m = m' := by
  obtain ⟨counter, bits, hlen, hvalue, hbits, rfl⟩ := h
  obtain ⟨counter', bits', hlen', hvalue', hbits', rfl⟩ := h'
  have hcounter : counter = counter' := by
    rw [← bigEndian_value counter, ← bigEndian_value counter', hlen, hlen', hvalue, hvalue']
  rw [hcounter, hbits.unique hbits']

theorem Accepted.shortest (h : Accepted counterLen outLen) :
    Shortest (8 * outLen) (lengthField outLen) := by
  have hlen := h.outLen_lt
  exact shortest_bigEndian (by omega)

theorem Accepted.value_counter (h : Accepted counterLen outLen) (hi : i ≤ outLen / 32) :
    value (bigEndian counterLen i) = i := by
  rw [value_bigEndian, base_pow, Nat.mod_eq_of_lt (h.number_lt hi)]

/-- What is hashed for a block is its message: no number in it has lost anything. -/
theorem Accepted.messageOf (h : Accepted counterLen outLen) (hi : i ≤ outLen / 32) :
    MessageOf label seed counterLen outLen i (blockMessage label seed counterLen outLen i) :=
  ⟨bigEndian counterLen i, lengthField outLen, length_bigEndian _ _, h.value_counter hi, h.shortest,
    rfl⟩

/-- The message of the block after `i` others, out of words: the number of the block has four bytes,
of which the last ones are used, and the bits of the output have eight. -/
def wordMessage (label seed : ByteString) (counterLen : Nat) (outLen : UInt64) (i : UInt32) :
    ByteString :=
  (bigEndian 4 (i + 1).toNat).drop (4 - counterLen) ++ label ++ [0] ++ seed ++
    (bigEndian 8 (outLen * 8).toNat).dropWhile (· == 0)

/-- The words make the message that is meant. -/
theorem Accepted.wordMessage_eq (h : Accepted counterLen outLen) (hi : i < outLen / 32) :
    wordMessage label seed counterLen (.ofNat outLen) (.ofNat i) =
      blockMessage label seed counterLen outLen (i + 1) := by
  have hcut : (bigEndian 4 (i + 1)).drop (4 - counterLen) = bigEndian counterLen (i + 1) := by
    have hdrop := drop_bigEndian (4 - counterLen) counterLen (i + 1)
    rwa [Nat.sub_add_cancel h.counter.2] at hdrop
  rw [wordMessage, h.fitsWords.number i hi, h.fitsWords.bits, hcut]
  rfl

/-- **A message has one place.** It says the number of its block and the length of the output. -/
theorem blockMessage_inj (h : Accepted counterLen outLen) (h' : Accepted counterLen outLen')
    (hi : i ≤ outLen / 32) (hi' : i' ≤ outLen' / 32)
    (heq : blockMessage label seed counterLen outLen i =
      blockMessage label seed counterLen outLen' i') :
    outLen = outLen' ∧ i = i' := by
  simp only [blockMessage, List.append_assoc] at heq
  obtain ⟨hcounter, hrest⟩ := List.append_inj heq (by simp)
  constructor
  · -- behind equal counters, labels and seeds there is only the length
    have hbits : lengthField outLen = lengthField outLen' :=
      List.append_cancel_left (List.append_cancel_left (List.append_cancel_left hrest))
    have hvalue := congrArg value hbits
    rw [h.shortest.value, h'.shortest.value] at hvalue
    omega
  · have hvalue := congrArg value hcounter
    rwa [h.value_counter hi, h'.value_counter hi'] at hvalue

/-! ## 5. The blocks of an output -/

/-- The messages of an output, in the order of its blocks. -/
def messages (label seed : ByteString) (counterLen outLen : Nat) : List ByteString :=
  (List.range' 1 (outLen / 32)).map (blockMessage label seed counterLen outLen)

theorem mem_messages {message : ByteString} :
    message ∈ messages label seed counterLen outLen ↔
      ∃ i, (1 ≤ i ∧ i ≤ outLen / 32) ∧ blockMessage label seed counterLen outLen i = message := by
  simp only [messages, List.mem_map, List.mem_range'_1]
  constructor
  · rintro ⟨i, ⟨hpos, hi⟩, heq⟩
    exact ⟨i, ⟨hpos, by omega⟩, heq⟩
  · rintro ⟨i, ⟨hpos, hi⟩, heq⟩
    exact ⟨i, ⟨hpos, by omega⟩, heq⟩

theorem blocks_eq_map (key label seed : ByteString) (counterLen outLen : Nat) :
    blocks key label seed counterLen outLen =
      (messages label seed counterLen outLen).map (hmac key) := by
  rw [blocks, messages, List.range'_eq_map_range, List.map_map, List.map_map]
  refine List.map_congr_left fun i _ => ?_
  simp only [Function.comp_apply, Nat.add_comm 1 i]
  rfl

theorem Accepted.nodup_messages (h : Accepted counterLen outLen) :
    (messages label seed counterLen outLen).Nodup := by
  refine List.Nodup.map_on (fun i hi i' hi' heq => ?_) List.nodup_range'
  rw [List.mem_range'_1] at hi hi'
  exact (blockMessage_inj h h (by omega) (by omega) heq).2

theorem Accepted.disjoint_messages (h : Accepted counterLen outLen)
    (h' : Accepted counterLen outLen') (hne : outLen ≠ outLen') :
    (messages label seed counterLen outLen).Disjoint
      (messages label seed counterLen outLen') := by
  intro message hmem hmem'
  obtain ⟨i, hi, rfl⟩ := mem_messages.mp hmem
  obtain ⟨i', hi', heq⟩ := mem_messages.mp hmem'
  exact hne (blockMessage_inj h' h hi'.2 hi.2 heq).1.symm

theorem block_of_derive {key out : ByteString} (hout : derive key label seed counterLen outLen = .ok out)
    (hpos : 1 ≤ i) (hi : i ≤ outLen / 32) :
    (out.drop ((i - 1) * 32)).take 32 =
      (hmac key (blockMessage label seed counterLen outLen i)).toList := by
  obtain ⟨-, rfl⟩ := derive_eq_ok_iff.mp hout
  have hlen : i - 1 < ((messages label seed counterLen outLen).map (hmac key)).length := by
    simp only [messages, List.length_map, List.length_range']
    omega
  rw [blocks_eq_map, take_drop_join hlen]
  simp only [messages, List.getElem_map, List.getElem_range']
  rw [Nat.one_mul, Nat.add_sub_cancel' hpos]

variable {key buffer : ByteString} {e : Error}

theorem fill_refused (h : check counterLen buffer.length = .error e) :
    fill key label seed counterLen buffer = .refused buffer e := by
  simp only [fill, h]

theorem derive_of_fill (h : check counterLen buffer.length = .ok ()) :
    derive key label seed counterLen buffer.length =
      .ok (fill key label seed counterLen buffer).after := by
  have hderive : derive key label seed counterLen buffer.length = .ok _ :=
    derive_eq_ok_iff.mpr ⟨h, rfl⟩
  rw [fill_eq, hderive]
  rfl

theorem fill_answer_iff :
    (fill key label seed counterLen buffer).answer = .ok () ↔
      check counterLen buffer.length = .ok () := by
  cases hcheck : check counterLen buffer.length with
  | error e => simp [fill_refused hcheck, Outcome.refused]
  | ok _ => simp [fill, hcheck, Outcome.done]

/-! ## 6. The two laws -/

/-- **A tree fills a buffer, or says why it does not.** The buffer is filled if and only if the
request is accepted. Then no word overflows, and block `i` is the keyed code of its message, which
the words have made. A request that is not accepted leaves the buffer as it was, and the first
condition that it breaks is the answer. -/
theorem fill_law (key label seed buffer : ByteString) (counterLen : Nat) :
    let outLen := buffer.length
    let filled := fill key label seed counterLen buffer
    (filled.answer = .ok () ↔
      (1 ≤ counterLen ∧ counterLen ≤ 4) ∧ (outLen ≠ 0 ∧ 32 ∣ outLen) ∧
        outLen / 32 ≤ 2 ^ (8 * counterLen) - 1) ∧
    (filled.answer = .ok () →
      FitsWords counterLen outLen ∧ filled.after.length = outLen ∧
      ∀ i, 1 ≤ i → i ≤ outLen / 32 →
        ∃ message, MessageOf label seed counterLen outLen i message ∧
          wordMessage label seed counterLen (.ofNat outLen) (.ofNat (i - 1)) = message ∧
          (filled.after.drop ((i - 1) * 32)).take 32 = (hmac key message).toList) ∧
    (¬(1 ≤ counterLen ∧ counterLen ≤ 4) →
      filled = .refused buffer (.internalError "the KDF counter must be 1 to 4 bytes")) ∧
    (1 ≤ counterLen ∧ counterLen ≤ 4 → ¬(outLen ≠ 0 ∧ 32 ∣ outLen) →
      filled = .refused buffer
        (.internalError "KDF output must be a nonzero multiple of 32 bytes")) ∧
    (1 ≤ counterLen ∧ counterLen ≤ 4 → outLen ≠ 0 ∧ 32 ∣ outLen →
      ¬outLen / 32 ≤ 2 ^ (8 * counterLen) - 1 →
      filled = .refused buffer
        (.internalError "the KDF counter cannot represent the output length")) := by
  intro outLen filled
  have hfilled : filled = fill key label seed counterLen buffer := rfl
  obtain ⟨hcounter, hcut, hmany⟩ := check_refused counterLen outLen
  refine ⟨?_, fun hok => ?_, fun h => fill_refused (hcounter h), fun h h' => fill_refused (hcut h h'),
    fun h h' h'' => fill_refused (hmany h h' h'')⟩
  · rw [hfilled, fill_answer_iff, accepted_iff]
    exact ⟨fun h => ⟨h.counter, h.whole, h.numbered⟩, fun ⟨h, h', h''⟩ => ⟨h, h', h''⟩⟩
  · have hcheck : check counterLen outLen = .ok () := fill_answer_iff.mp hok
    have hacc : Accepted counterLen outLen := accepted_iff.mp hcheck
    have hderive : derive key label seed counterLen outLen = .ok filled.after :=
      derive_of_fill hcheck
    refine ⟨hacc.fitsWords, length_of_derive hderive, fun i hpos hi => ?_⟩
    have hword : wordMessage label seed counterLen (.ofNat outLen) (.ofNat (i - 1)) =
        blockMessage label seed counterLen outLen (i - 1 + 1) := hacc.wordMessage_eq (by omega)
    rw [Nat.sub_add_cancel hpos] at hword
    exact ⟨_, hacc.messageOf hi, hword, block_of_derive hderive hpos hi⟩

/-- Two blocks with a counter of one byte: the second message has a two in front and two bytes of
length behind. A counter of five bytes is refused, whatever the buffer. -/
theorem fill_two_blocks :
    let key : ByteString := [1]
    let buffer : ByteString := List.replicate 64 0
    let filled := fill key [0xaa] [0xbb] 1 buffer
    filled.answer = .ok () ∧
      (filled.after.drop 32).take 32 = (hmac key [2, 0xaa, 0, 0xbb, 2, 0]).toList ∧
      fill key [0xaa] [0xbb] 5 buffer =
        .refused buffer (.internalError "the KDF counter must be 1 to 4 bytes") := by
  intro key buffer filled
  have hlen : buffer.length = 64 := List.length_replicate
  obtain ⟨haccepted, hblocks, -⟩ := fill_law key [0xaa] [0xbb] buffer 1
  obtain ⟨-, -, hrefused, -⟩ := fill_law key [0xaa] [0xbb] buffer 5
  have hok : filled.answer = .ok () := haccepted.mpr (by rw [hlen]; decide)
  obtain ⟨-, -, hblock⟩ := hblocks hok
  obtain ⟨message, hmessage, -, hcode⟩ := hblock 2 (by decide) (by rw [hlen])
  rw [hlen] at hmessage
  have hsecond : MessageOf [0xaa] [0xbb] 1 64 2 [2, 0xaa, 0, 0xbb, 2, 0] :=
    ⟨[2], [2, 0], rfl, rfl, ⟨rfl, by decide⟩, rfl⟩
  rw [hmessage.unique hsecond] at hcode
  exact ⟨hok, hcode, hrefused (by decide)⟩

/-- **No message is made twice.** Under one label, one seed and one width of the counter, a message
says the length of the output and the number of the block. So the codes that a buffer is filled with
are codes of different messages, and buffers of different lengths have no message in common. -/
theorem messages_unique (label seed : ByteString) (counterLen : Nat) :
    (∀ outLen outLen' i i' : Nat,
      check counterLen outLen = .ok () → check counterLen outLen' = .ok () →
      1 ≤ i ∧ i ≤ outLen / 32 → 1 ≤ i' ∧ i' ≤ outLen' / 32 →
        (blockMessage label seed counterLen outLen i =
            blockMessage label seed counterLen outLen' i' ↔ outLen = outLen' ∧ i = i')) ∧
    (∀ key buffer : ByteString, (fill key label seed counterLen buffer).answer = .ok () →
      (fill key label seed counterLen buffer).after =
          .join ((messages label seed counterLen buffer.length).map (hmac key)) ∧
        (messages label seed counterLen buffer.length).Nodup) ∧
    (∀ outLen outLen' : Nat,
      check counterLen outLen = .ok () → check counterLen outLen' = .ok () → outLen ≠ outLen' →
        (messages label seed counterLen outLen).Disjoint
          (messages label seed counterLen outLen')) := by
  refine ⟨fun outLen outLen' i i' h h' hi hi' => ?_, fun key buffer hok => ?_,
    fun outLen outLen' h h' hne => ?_⟩
  · constructor
    · exact blockMessage_inj (accepted_iff.mp h) (accepted_iff.mp h') hi.2 hi'.2
    · rintro ⟨rfl, rfl⟩
      rfl
  · have hcheck := fill_answer_iff.mp hok
    have hderive : derive key label seed counterLen buffer.length = .ok _ := derive_of_fill hcheck
    obtain ⟨-, hafter⟩ := derive_eq_ok_iff.mp hderive
    exact ⟨by rw [hafter, blocks_eq_map], (accepted_iff.mp hcheck).nodup_messages⟩
  · exact (accepted_iff.mp h).disjoint_messages (accepted_iff.mp h') hne

/-- With one byte for the counter, the longest output that can be numbered shares no message with
one that is a block shorter, and its last two blocks have different messages. -/
theorem messages_of_longest :
    (messages [] [] 1 (255 * 32)).Disjoint (messages [] [] 1 (254 * 32)) ∧
      blockMessage [] [] 1 (255 * 32) 254 ≠ blockMessage [] [] 1 (255 * 32) 255 := by
  obtain ⟨hmessage, -, hdisjoint⟩ := messages_unique [] [] 1
  have hlong : check 1 (255 * 32) = .ok () := rfl
  have hshort : check 1 (254 * 32) = .ok () := rfl
  refine ⟨hdisjoint _ _ hlong hshort (by decide), fun heq => ?_⟩
  have hsame := (hmessage _ _ 254 255 hlong hlong (by decide) (by decide)).mp heq
  exact absurd hsame.2 (by decide)

end KeyTree

end GostSuite

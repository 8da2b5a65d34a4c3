import GostSuite.Proofs.Calls
import GostSuite.Proofs.CounterStream.Keystream

/-!
# A counter stream is its keystream

A call on a stream takes three kinds of steps: it uses up what is left of the last block, it makes a
block for every whole block of data, and it makes one more for a short end. Each kind adds a
stretch of the keystream onto a stretch of the data, and the stretches follow each other without a
gap. So a call is one masking from the place where the last call stopped (`apply_eq_mask`), and a
session is one masking from place zero, however it is cut and whatever the sections.

`Consumed` is what one call hands over to the next. It ties the position inside the last block to
the number of bytes given out: the blocks made and the bytes not yet used of the last one balance.
-/

set_option autoImplicit false

namespace GostSuite

namespace CounterStream

variable {a : Algorithm} {c : Cipher a} {iv : ByteString} {perSection : Nat}

/-! ## 1. The three kinds of steps, unfolded -/

theorem applyBlocks_nil (s : CounterStream a) : s.applyBlocks [] = ([], s) := by
  have hn : ¬(([] : ByteString).take a.blockLen).length = a.blockLen := by
    have := a.blockLen_pos
    simp
    omega
  rw [applyBlocks, dif_neg hn]
  rfl

theorem applyBlocks_of_lt (s : CounterStream a) {data : ByteString} (hne : data ≠ [])
    (hlt : data.length < a.blockLen) :
    s.applyBlocks data =
      (data.xorOnto (s.openBlock data.length).keystream.toList, s.openBlock data.length) := by
  have hshort : ¬(data.take a.blockLen).length = a.blockLen := by
    rw [List.length_take]
    omega
  have hsome : ¬(data.isEmpty = true) := by simpa using hne
  rw [applyBlocks, dif_neg hshort, if_neg hsome]

theorem applyBlocks_of_le (s : CounterStream a) {data : ByteString}
    (hle : a.blockLen ≤ data.length) :
    s.applyBlocks data =
      (ByteString.xorOnto (data.take a.blockLen) (s.openBlock a.blockLen).keystream.toList ++
          ((s.openBlock a.blockLen).applyBlocks (data.drop a.blockLen)).1,
        ((s.openBlock a.blockLen).applyBlocks (data.drop a.blockLen)).2) := by
  have hwhole : (data.take a.blockLen).length = a.blockLen := by
    rw [List.length_take]
    omega
  rw [applyBlocks, dif_pos hwhole]

/-! ## 2. One call -/

/-- `count` bytes of the keystream have been given out, and the next one is at its place in the last
block, or in a block yet to be made. -/
def Consumed (c : Cipher a) (iv : ByteString) (perSection count : Nat) (s : CounterStream a) :
    Prop :=
  ∃ made, Stands c iv perSection made s ∧ count + a.blockLen = a.blockLen * made + s.position ∧
    s.position ≤ a.blockLen

theorem Consumed.start (c : Cipher a) (iv : ByteString) (perSection : Nat) :
    Consumed c iv perSection 0 (start c iv (a.blockLen * perSection)) :=
  ⟨0, Stands.start c iv perSection, by simp [CounterStream.start], Nat.le_refl _⟩

/-- The first bytes of a new block, added onto data, are the keystream from that block on. -/
theorem mask_openBlock {made : Nat} {s : CounterStream a} (h : Stands c iv perSection made s)
    (count : Nat) {chunk : ByteString} (hlen : chunk.length ≤ a.blockLen) :
    ByteString.mask (streamOf (keystreamBlock c iv perSection)) (a.blockLen * made) chunk =
      chunk.xorOnto (s.openBlock count).keystream.toList := by
  have hblock : (s.openBlock count).keystream = keystreamBlock c iv perSection made :=
    (h.openBlock count).keystream (Nat.succ_pos made)
  refine ByteString.mask_eq_xorOnto (by simpa using hlen) fun i hi => ?_
  rw [hblock, streamOf_within (by omega)]

/-- Whole blocks and a short end, from the beginning of a block on. -/
theorem applyBlocks_eq_mask {made : Nat} {s : CounterStream a} (h : Stands c iv perSection made s)
    (hpos : s.position = a.blockLen) (data : ByteString) :
    (s.applyBlocks data).1 =
        ByteString.mask (streamOf (keystreamBlock c iv perSection)) (a.blockLen * made) data ∧
      Consumed c iv perSection (a.blockLen * made + data.length) (s.applyBlocks data).2 := by
  by_cases hle : a.blockLen ≤ data.length
  · have hn : 0 < a.blockLen := a.blockLen_pos
    have htake : (data.take a.blockLen).length = a.blockLen := by
      rw [List.length_take]
      omega
    have hdrop : (data.drop a.blockLen).length = data.length - a.blockLen := List.length_drop
    obtain ⟨hout, hcons⟩ :=
      applyBlocks_eq_mask (h.openBlock a.blockLen) rfl (data.drop a.blockLen)
    rw [applyBlocks_of_le s hle]
    refine ⟨?_, ?_⟩
    · conv_rhs => rw [← List.take_append_drop a.blockLen data]
      rw [hout, ByteString.mask_append, htake,
        mask_openBlock h a.blockLen (Nat.le_of_eq htake), ← Nat.mul_succ]
    · have hcount : a.blockLen * made + data.length =
          a.blockLen * (made + 1) + (data.drop a.blockLen).length := by
        rw [hdrop, Nat.mul_succ]
        omega
      rw [hcount]
      exact hcons
  · rcases List.eq_nil_or_concat data with rfl | ⟨_, _, hconcat⟩
    · rw [applyBlocks_nil]
      exact ⟨rfl, made, h, by simp [hpos], Nat.le_of_eq hpos⟩
    · have hne : data ≠ [] := by
        rw [hconcat]
        simp
      rw [applyBlocks_of_lt s hne (by omega)]
      refine ⟨(mask_openBlock h data.length (by omega)).symm,
        made + 1, h.openBlock data.length, ?_, ?_⟩
      · change _ = a.blockLen * (made + 1) + data.length
        rw [Nat.mul_succ]
        omega
      · change data.length ≤ a.blockLen
        omega
termination_by data.length

theorem mask_leftover {count : Nat} {s : CounterStream a} (h : Consumed c iv perSection count s)
    (head : ByteString) (hlen : head.length ≤ s.leftover.length) :
    ByteString.mask (streamOf (keystreamBlock c iv perSection)) count head =
      head.xorOnto s.leftover := by
  obtain ⟨made, hstands, hcount, hpos⟩ := h
  have hleft : s.leftover.length = a.blockLen - s.position := by
    rw [leftover, List.length_drop, Bytes.length_toList]
  refine ByteString.mask_eq_xorOnto hlen fun i hi => ?_
  have hmade : 0 < made := by
    rcases Nat.eq_zero_or_pos made with rfl | hmade
    · rw [Nat.mul_zero] at hcount
      omega
    · exact hmade
  have hplace : count + i = a.blockLen * (made - 1) + (s.position + i) := by
    rw [Nat.mul_sub, Nat.mul_one]
    have hblock : a.blockLen ≤ a.blockLen * made := Nat.le_mul_of_pos_right _ hmade
    omega
  rw [hplace, streamOf_within (by omega), ← hstands.keystream hmade, leftover]
  simp [List.getD_eq_getElem?_getD, List.getElem?_drop]

/-- **One call.** It masks its data from the present place of the keystream on, and moves the place
by the length of its data. -/
theorem apply_eq_mask {count : Nat} {s : CounterStream a} (h : Consumed c iv perSection count s)
    (data : ByteString) :
    (s.apply data).1 =
        ByteString.mask (streamOf (keystreamBlock c iv perSection)) count data ∧
      Consumed c iv perSection (count + data.length) (s.apply data).2 := by
  have hhead := mask_leftover h (data.take s.leftover.length) (by simp)
  obtain ⟨made, hstands, hcount, hpos⟩ := h
  have hleft : s.leftover.length = a.blockLen - s.position := by
    rw [leftover, List.length_drop, Bytes.length_toList]
  simp only [apply]
  by_cases hfits : data.length ≤ s.leftover.length
  · -- the last block is enough
    have htake : data.take s.leftover.length = data := List.take_of_length_le hfits
    rw [htake] at hhead
    rw [htake, List.drop_eq_nil_of_le hfits, applyBlocks_nil, List.append_nil]
    refine ⟨hhead.symm, made, hstands.use data.length, ?_, ?_⟩
    · change _ = a.blockLen * made + (s.position + data.length)
      omega
    · change s.position + data.length ≤ a.blockLen
      omega
  · -- it is used up, and what follows begins with a block of its own
    have htake : (data.take s.leftover.length).length = s.leftover.length := by
      rw [List.length_take]
      omega
    have hend : count + s.leftover.length = a.blockLen * made := by omega
    have hused : (s.use s.leftover.length).position = a.blockLen := by
      change s.position + s.leftover.length = a.blockLen
      omega
    obtain ⟨hout, hcons⟩ :=
      applyBlocks_eq_mask (hstands.use s.leftover.length) hused (data.drop s.leftover.length)
    rw [htake]
    refine ⟨?_, ?_⟩
    · conv_rhs => rw [← List.take_append_drop s.leftover.length data]
      rw [ByteString.mask_append, htake, hend, hhead, hout]
    · have hmove : count + data.length =
          a.blockLen * made + (data.drop s.leftover.length).length := by
        rw [List.length_drop]
        omega
      rw [hmove]
      exact hcons

/-! ## 3. Sessions -/

/-- Whether a call reads the keystream, and does not set the section length. -/
def Call.reads : Call → Bool
  | .apply _ | .keystream _ => true
  | .setSection _ => false

def Call.size : Call → Nat
  | .apply data | .keystream data => data.length
  | .setSection _ => 0

/-- What a call gives back that reads `stream` from position `start` on: masked data, or the stream
itself, whatever the buffer held. -/
def Call.reading (stream : Nat → UInt8) (start : Nat) : Call → ByteString
  | .apply data => ByteString.mask stream start data
  | .keystream data => (List.range' start data.length).map stream
  | .setSection _ => []

/-- What a list of calls gives back that reads `stream` from position `start` on. -/
def readings (stream : Nat → UInt8) : (start : Nat) → List Call → ByteString
  | _, [] => []
  | start, call :: calls => call.reading stream start ++ readings stream (start + call.size) calls

/-- A cut message is masked like the whole one. -/
theorem readings_pieces (stream : Nat → UInt8) (start : Nat) (pieces : List ByteString) :
    readings stream start (pieces.map .apply) = ByteString.mask stream start pieces.flatten := by
  induction pieces generalizing start with
  | nil => rfl
  | cons piece pieces ih =>
    rw [List.map_cons, readings, ih, List.flatten_cons, ByteString.mask_append]
    rfl

theorem step_reads {count : Nat} {s : CounterStream a} (h : Consumed c iv perSection count s)
    {call : Call} (hcall : call.reads = true) :
    ∃ s', step s call =
        .done (s', call.reading (streamOf (keystreamBlock c iv perSection)) count) none ∧
      Consumed c iv perSection (count + call.size) s' := by
  cases call with
  | apply data =>
    obtain ⟨hout, hcons⟩ := apply_eq_mask h data
    have hrun : step s (.apply data) = .done ((s.apply data).2, (s.apply data).1) none := rfl
    rw [hout] at hrun
    exact ⟨(s.apply data).2, hrun, hcons⟩
  | keystream data =>
    obtain ⟨hout, hcons⟩ := apply_eq_mask h (List.replicate data.length 0)
    have hrun : step s (.keystream data) =
        .done ((s.draw data.length).2, (s.draw data.length).1) none := rfl
    rw [List.length_replicate] at hcons
    rw [draw, hout, ByteString.mask_zeros] at hrun
    exact ⟨_, hrun, hcons⟩
  | setSection sectionLen => exact absurd hcall (by simp [Call.reads])

theorem goesThrough_reads {count : Nat} {s : CounterStream a}
    (h : Consumed c iv perSection count s) (calls : List Call)
    (hcalls : ∀ call ∈ calls, call.reads = true) :
    ∃ s', GoesThrough step s calls
        (readings (streamOf (keystreamBlock c iv perSection)) count calls) s' ∧
      ∃ count', Consumed c iv perSection count' s' := by
  induction calls generalizing count s with
  | nil => exact ⟨s, GoesThrough.nil s, count, h⟩
  | cons call calls ih =>
    obtain ⟨s₁, hstep, hcons⟩ := step_reads h (hcalls call (List.mem_cons_self ..))
    obtain ⟨s', hgo, hend⟩ := ih hcons fun next hnext => hcalls next (List.mem_cons_of_mem _ hnext)
    exact ⟨s', GoesThrough.cons hstep hgo, hend⟩

/-- Keystream comes off where it was put on. -/
theorem apply_apply {count : Nat} {s : CounterStream a} (h : Consumed c iv perSection count s)
    (data : ByteString) : (s.apply (s.apply data).1).1 = data := by
  rw [(apply_eq_mask h _).1, (apply_eq_mask h data).1, ByteString.mask_mask]

theorem ofCipher_ok (c : Cipher a) {iv : ByteString} {sectionLen : Nat}
    (hiv : iv.length = a.halfBlockLen) (hsection : sectionLen % a.blockLen = 0) :
    ofCipher c iv sectionLen = .ok (start c iv sectionLen) := by
  simp [ofCipher, Bounds.streamSection, hsection, hiv]

theorem ofCipher_wrong_length (c : Cipher a) {iv : ByteString} {sectionLen : Nat}
    (hiv : iv.length ≠ a.halfBlockLen) (hsection : sectionLen % a.blockLen = 0) :
    ofCipher c iv sectionLen = .error (.invalidLength a.halfBlockLen iv.length) := by
  simp [ofCipher, Bounds.streamSection, hsection, hiv]
  rfl

theorem ofCipher_eq_ok_iff {c : Cipher a} {iv : ByteString} {sectionLen : Nat}
    {s : CounterStream a} :
    ofCipher c iv sectionLen = .ok s ↔
      sectionLen % a.blockLen = 0 ∧ iv.length = a.halfBlockLen ∧ s = start c iv sectionLen := by
  rw [ofCipher, bind_eq_ok_iff]
  constructor
  · rintro ⟨⟨⟩, hsection, hrest⟩
    obtain ⟨hiv, hstart⟩ := refused_eq_ok_iff.mp hrest
    exact ⟨(accepted_eq_ok_iff.mp hsection).1, not_not.mp hiv, (Except.ok.inj hstart).symm⟩
  · rintro ⟨hsection, hiv, rfl⟩
    exact bind_eq_ok_iff.mp (ofCipher_ok c hiv hsection)

/-- `count` bytes have been given out of the keystream of a section length that is whole blocks. -/
def Given (c : Cipher a) (iv : ByteString) (sectionLen count : Nat) (s : CounterStream a) : Prop :=
  sectionLen % a.blockLen = 0 ∧ Consumed c iv (sectionLen / a.blockLen) count s

theorem Given.start (c : Cipher a) (iv : ByteString) {sectionLen : Nat}
    (hsection : sectionLen % a.blockLen = 0) : Given c iv sectionLen 0 (start c iv sectionLen) := by
  have hstart := Consumed.start c iv (sectionLen / a.blockLen)
  rw [Nat.mul_div_cancel' (Nat.dvd_of_mod_eq_zero hsection)] at hstart
  exact ⟨hsection, hstart⟩

/-- A call masks its data from the present place of the keystream on. -/
theorem Given.apply {sectionLen count : Nat} {s : CounterStream a}
    (h : Given c iv sectionLen count s) (data : ByteString) :
    ∃ s', s.apply data = (data.mask (keystreamByte c iv sectionLen) count, s') ∧
      Given c iv sectionLen (count + data.length) s' := by
  obtain ⟨hsection, hconsumed⟩ := h
  have hbyte := keystreamByte_eq c iv (sectionLen / a.blockLen)
  rw [Nat.mul_div_cancel' (Nat.dvd_of_mod_eq_zero hsection)] at hbyte
  obtain ⟨hout, hnext⟩ := apply_eq_mask hconsumed data
  rw [← hbyte] at hout
  exact ⟨(s.apply data).2, Prod.ext hout rfl, hsection, hnext⟩

/-- **The keystream law.** A stream is made of any cipher and key, an initial value of half a block
and a section length that is zero or a multiple of the block. Then every list of reading calls goes
through and gives back the keystream bytes of its places, added onto the data or as they are; the
state that is reached undoes what it does; and a message is masked alike in whatever pieces. -/
theorem session_eq_mask (u : Cipher.Unkeyed a) (key : Key) (iv : ByteString) (sectionLen : Nat)
    (hiv : iv.length = a.halfBlockLen) (hsection : sectionLen % a.blockLen = 0)
    (calls : List Call) (hcalls : ∀ call ∈ calls, call.reads = true) :
    ∃ s, ofCipher (u.withKey key) iv sectionLen = .ok s ∧
      (∃ s', GoesThrough step s calls (readings (keystreamOfKey u key iv sectionLen) 0 calls) s' ∧
        ∀ data, (s'.apply (s'.apply data).1).1 = data) ∧
      ∀ pieces : List ByteString, ∃ s', GoesThrough step s (pieces.map .apply)
        (ByteString.mask (keystreamOfKey u key iv sectionLen) 0 pieces.flatten) s' := by
  obtain ⟨perSection, rfl⟩ := Nat.dvd_of_mod_eq_zero hsection
  have hstart := Consumed.start (u.withKey key) iv perSection
  rw [← keystreamByte_withKey]
  refine ⟨_, ofCipher_ok (u.withKey key) hiv hsection, ?_, fun pieces => ?_⟩
  · obtain ⟨s', hgo, count, hend⟩ := goesThrough_reads hstart calls hcalls
    rw [← keystreamByte_eq] at hgo
    exact ⟨s', hgo, apply_apply hend⟩
  · have hpieces : ∀ call ∈ pieces.map Call.apply, call.reads = true := by
      intro call hmem
      obtain ⟨piece, -, rfl⟩ := List.mem_map.mp hmem
      rfl
    obtain ⟨s', hgo, -⟩ := goesThrough_reads hstart (pieces.map .apply) hpieces
    rw [← keystreamByte_eq, readings_pieces] at hgo
    exact ⟨s', hgo⟩

/-- A session that crosses blocks and sections: two blocks to a section, and calls that stop
short of a block. -/
theorem session_gost89_short_sections :
    let ks := keystreamOfKey (.gost89 .tc26Z) (.zero 32) [1, 2, 3, 4] 16
    let calls : List Call :=
      [.apply [1, 2, 3], .apply [], .keystream (List.replicate 30 7), .apply [4, 5]]
    ∃ s, ofCipher (.gost89OfKey (.zero 32) .tc26Z) [1, 2, 3, 4] 16 = .ok s ∧
      (∃ s', GoesThrough step s calls (readings ks 0 calls) s' ∧
        ∀ data, (s'.apply (s'.apply data).1).1 = data) ∧
      ∀ pieces : List ByteString, ∃ s', GoesThrough step s (pieces.map .apply)
        (ByteString.mask ks 0 pieces.flatten) s' :=
  session_eq_mask (.gost89 .tc26Z) (.zero 32) [1, 2, 3, 4] 16 rfl rfl
    [.apply [1, 2, 3], .apply [], .keystream (List.replicate 30 7), .apply [4, 5]] (by decide)

end CounterStream

end GostSuite

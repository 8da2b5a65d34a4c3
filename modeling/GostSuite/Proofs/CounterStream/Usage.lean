import GostSuite.Proofs.CounterStream.Session
import GostSuite.Proofs.KeyUsage

/-!
# How much a stream's key has worked

The keystream law follows a stream whose section length stays. Here it may be changed between any
two calls: made shorter than what the key has done already, turned off, turned on again. There is
no formula any more for the key of a block, since the key depends on all the lengths that were set.
What remains is a bound:

> whenever a block is made while a section length is set, the key it is made under has made no more
> than a section, this block included (`BlockAt.bounded`).

The log of a run has the stream that each block found. From the log alone it can be told under which
key a block was made and how many blocks that key has made before. `HasMade` ties the fields of a
stream to its log, and the bound comes out of one step: the count is whole blocks, and so is every
section length that is ever set, so a count below the section has room for a block.

`apply_eq_xorOnto` checks the log against what the caller gets: the bytes of a call are those of the
blocks in it.
-/

set_option autoImplicit false

namespace GostSuite

namespace CounterStream

open KeyUsage

variable {a : Algorithm}

/-! ## 1. The log -/

/-- The next block is made under a new key. -/
def due (s : CounterStream a) : Bool := decide (s.sectionLen ≠ 0 ∧ s.sectionLen ≤ s.generated)

theorem meshIfDue_of_due {s : CounterStream a} (h : s.due = true) :
    s.meshIfDue =
      { s with cipher := s.cipher.mesh, generated := s.generated &&& (a.blockLen - 1) } :=
  if_pos (of_decide_eq_true h)

theorem meshIfDue_of_not_due {s : CounterStream a} (h : s.due = false) : s.meshIfDue = s :=
  if_neg (of_decide_eq_false h)

/-- The streams that the blocks for some data find. -/
def logOfBlocks (s : CounterStream a) (data : ByteString) : List (CounterStream a) :=
  if _h : data = [] then []
  else s :: (s.openBlock (min a.blockLen data.length)).logOfBlocks (data.drop a.blockLen)
termination_by data.length
decreasing_by
  have := a.blockLen_pos
  have := List.length_pos_iff.mpr _h
  simp only [List.length_drop]
  omega

/-- No block is made for what is left of the last one. -/
def logOfApply (s : CounterStream a) (data : ByteString) : List (CounterStream a) :=
  (s.use (data.take s.leftover.length).length).logOfBlocks (data.drop s.leftover.length)

def logOf (s : CounterStream a) : Call → List (CounterStream a)
  | .apply data => s.logOfApply data
  | .keystream data => s.logOfApply (List.replicate data.length 0)
  | .setSection _ => []

/-- The streams that the blocks of some calls find, one for each block. -/
def blockLog (s : CounterStream a) : List Call → List (CounterStream a)
  | [] => []
  | call :: calls => s.logOf call ++ (step s call).after.1.blockLog calls

theorem logOfBlocks_nil (s : CounterStream a) : s.logOfBlocks [] = [] := by
  rw [logOfBlocks, dif_pos rfl]

theorem logOfBlocks_of_ne (s : CounterStream a) {data : ByteString} (h : data ≠ []) :
    s.logOfBlocks data =
      s :: (s.openBlock (min a.blockLen data.length)).logOfBlocks (data.drop a.blockLen) := by
  rw [logOfBlocks, dif_neg h]

/-- Data is taken block by block, and a short end is one of the blocks. -/
theorem applyBlocks_of_ne (s : CounterStream a) {data : ByteString} (h : data ≠ []) :
    s.applyBlocks data =
      (ByteString.xorOnto (data.take a.blockLen) s.nextBlock.keystream.toList ++
          ((s.openBlock (min a.blockLen data.length)).applyBlocks (data.drop a.blockLen)).1,
        ((s.openBlock (min a.blockLen data.length)).applyBlocks (data.drop a.blockLen)).2) := by
  rcases Nat.lt_or_ge data.length a.blockLen with hlt | hle
  · rw [applyBlocks_of_lt s h hlt, Nat.min_eq_right (Nat.le_of_lt hlt),
      List.take_of_length_le (Nat.le_of_lt hlt), List.drop_eq_nil_of_le (Nat.le_of_lt hlt),
      applyBlocks_nil, List.append_nil]
    rfl
  · rw [applyBlocks_of_le s hle, Nat.min_eq_left hle]
    rfl

/-! ## 2. The log is what the caller gets -/

/-- The blocks of a log, one after the other. -/
def bytesOf (log : List (CounterStream a)) : ByteString :=
  ByteString.join (log.map fun s => s.nextBlock.keystream)

theorem applyBlocks_eq_xorOnto (s : CounterStream a) (data : ByteString) :
    (s.applyBlocks data).1 = data.xorOnto (bytesOf (s.logOfBlocks data)) := by
  by_cases hdata : data = []
  · rw [hdata, applyBlocks_nil]
    rfl
  · have hn : 0 < a.blockLen := a.blockLen_pos
    have hpos := List.length_pos_iff.mpr hdata
    have hrest := applyBlocks_eq_xorOnto (s.openBlock (min a.blockLen data.length))
      (data.drop a.blockLen)
    rw [applyBlocks_of_ne s hdata, logOfBlocks_of_ne s hdata, bytesOf, List.map_cons,
      ByteString.join_cons, ByteString.xorOnto_append, Bytes.length_toList, hrest]
    rfl
termination_by data.length
decreasing_by simp only [List.length_drop]; omega

/-- **The log is faithful.** A call adds what was left of the last block onto its data, and then the
blocks of its log. -/
theorem apply_eq_xorOnto (s : CounterStream a) (data : ByteString) :
    (s.apply data).1 = data.xorOnto (s.leftover ++ bytesOf (s.logOfApply data)) := by
  rw [ByteString.xorOnto_append, logOfApply, ← applyBlocks_eq_xorOnto]
  rfl

/-! ## 3. What a stream knows of its log -/

variable {c : Cipher a} {iv : ByteString} {log : List (CounterStream a)} {s : CounterStream a}

/-- The stream has made the blocks of a log. -/
structure HasMade (c : Cipher a) (iv : ByteString) (log : List (CounterStream a))
    (s : CounterStream a) : Prop where
  cipher : s.cipher = sectionCipher c (presentKey due log)
  counter : s.counter = (Bytes.padded a.blockLen iv).plus log.length
  generated : s.generated = a.blockLen * uses due log
  sectionLen : s.sectionLen % a.blockLen = 0

/-- A count of whole blocks is masked away. -/
theorem HasMade.meshIfDue_generated (h : HasMade c iv log s) :
    s.meshIfDue.generated = if s.due then 0 else s.generated := by
  cases hdue : s.due with
  | true =>
    rw [meshIfDue_of_due hdue, if_pos rfl, Algorithm.and_mask, h.generated, Nat.mul_mod_right]
  | false => rw [meshIfDue_of_not_due hdue, if_neg Bool.false_ne_true]

theorem HasMade.meshIfDue_cipher (h : HasMade c iv log s) :
    s.meshIfDue.cipher = sectionCipher c (presentKey due (log ++ [s])) := by
  rw [presentKey_concat]
  cases hdue : s.due with
  | true =>
    rw [meshIfDue_of_due hdue, if_pos rfl, ← mesh_sectionCipher, ← h.cipher]
  | false =>
    rw [meshIfDue_of_not_due hdue, if_neg Bool.false_ne_true]
    exact h.cipher

theorem meshIfDue_counter (s : CounterStream a) : s.meshIfDue.counter = s.counter := by
  rw [meshIfDue]
  split <;> rfl

theorem meshIfDue_sectionLen (s : CounterStream a) : s.meshIfDue.sectionLen = s.sectionLen := by
  rw [meshIfDue]
  split <;> rfl

/-- The count goes on from zero after a new key, and the log counts likewise. -/
theorem HasMade.nextBlock_generated (h : HasMade c iv log s) :
    s.nextBlock.generated = a.blockLen * uses due (log ++ [s]) := by
  change s.meshIfDue.generated + a.blockLen = _
  rw [h.meshIfDue_generated, uses_concat]
  split
  · rw [Nat.zero_add, Nat.mul_one]
  · rw [h.generated, Nat.mul_succ]

/-- **One block more.** -/
theorem HasMade.openBlock (h : HasMade c iv log s) (count : Nat) :
    HasMade c iv (log ++ [s]) (s.openBlock count) := by
  refine ⟨h.meshIfDue_cipher, ?_, h.nextBlock_generated, ?_⟩
  · change s.meshIfDue.counter.increment = _
    rw [meshIfDue_counter, h.counter, Bytes.increment_plus, List.length_append,
      List.length_singleton]
  · change s.meshIfDue.sectionLen % a.blockLen = 0
    rw [meshIfDue_sectionLen, h.sectionLen]

/-- **The bound.** A key that is not replaced has room for a block, since both its count and the
section are whole blocks; and so has a new key, since the section is not empty. -/
theorem HasMade.bounded (h : HasMade c iv log s) (hsection : s.sectionLen ≠ 0) :
    a.blockLen * uses due (log ++ [s]) ≤ s.sectionLen := by
  obtain ⟨perSection, hper⟩ := Nat.dvd_of_mod_eq_zero h.sectionLen
  have hn : 0 < a.blockLen := a.blockLen_pos
  have hpos : 0 < perSection := Nat.pos_of_ne_zero fun hzero => hsection (by rw [hper, hzero]; rfl)
  rw [uses_concat, hper]
  refine Nat.mul_le_mul_left _ ?_
  cases hdue : s.due with
  | true => exact hpos
  | false =>
    have hroom : s.generated < s.sectionLen :=
      Nat.lt_of_not_le fun hfull => of_decide_eq_false hdue ⟨hsection, hfull⟩
    rw [h.generated, hper] at hroom
    exact Nat.lt_of_mul_lt_mul_left hroom

/-! ## 4. A run -/

/-- What is carried from call to call: the stream has made the blocks of its log, each of them found
a stream that had made the blocks before it, and the bytes given out balance with the blocks. -/
structure Ledger (c : Cipher a) (iv : ByteString) (log : List (CounterStream a)) (total : Nat)
    (s : CounterStream a) : Prop where
  made : HasMade c iv log s
  before : Throughout (HasMade c iv) log
  position : 1 ≤ s.position ∧ s.position ≤ a.blockLen
  balance : total + a.blockLen = a.blockLen * log.length + s.position

variable {total : Nat}

theorem Ledger.start (c : Cipher a) (iv : ByteString) {sectionLen : Nat}
    (hsection : sectionLen % a.blockLen = 0) :
    Ledger c iv [] 0 (start c iv sectionLen) where
  made := ⟨rfl, by simp [CounterStream.start], rfl, hsection⟩
  before := .nil _
  position := ⟨a.blockLen_pos, Nat.le_refl _⟩
  balance := rfl

theorem Ledger.use (h : Ledger c iv log total s) (count : Nat)
    (hcount : s.position + count ≤ a.blockLen) :
    Ledger c iv log (total + count) (s.use count) := by
  obtain ⟨hmade, hbefore, hpos, hbalance⟩ := h
  refine ⟨⟨hmade.cipher, hmade.counter, hmade.generated, hmade.sectionLen⟩, hbefore, ?_, ?_⟩
  · change 1 ≤ s.position + count ∧ s.position + count ≤ a.blockLen
    exact ⟨by omega, hcount⟩
  · change _ = a.blockLen * log.length + (s.position + count)
    omega

theorem Ledger.openBlock (h : Ledger c iv log total s) (hend : s.position = a.blockLen)
    (count : Nat) (hcount : 1 ≤ count ∧ count ≤ a.blockLen) :
    Ledger c iv (log ++ [s]) (total + count) (s.openBlock count) := by
  refine ⟨h.made.openBlock count, h.before.concat h.made, hcount, ?_⟩
  have hbalance := h.balance
  change _ = a.blockLen * (log ++ [s]).length + count
  rw [List.length_append, List.length_singleton, Nat.mul_succ]
  omega

theorem Ledger.applyBlocks {log : List (CounterStream a)} {total : Nat} {s : CounterStream a}
    (h : Ledger c iv log total s) (hend : s.position = a.blockLen) (data : ByteString) :
    Ledger c iv (log ++ s.logOfBlocks data) (total + data.length) (s.applyBlocks data).2 := by
  by_cases hdata : data = []
  · rw [hdata, applyBlocks_nil, logOfBlocks_nil, List.append_nil]
    exact h
  · have hn : 0 < a.blockLen := a.blockLen_pos
    have hpos := List.length_pos_iff.mpr hdata
    have hopen := h.openBlock hend (min a.blockLen data.length) (by omega)
    rw [applyBlocks_of_ne s hdata, logOfBlocks_of_ne s hdata, List.append_cons]
    rcases Nat.lt_or_ge data.length a.blockLen with hlt | hle
    · -- the short end of the data is all of its last block
      rw [List.drop_eq_nil_of_le (Nat.le_of_lt hlt), applyBlocks_nil, logOfBlocks_nil,
        List.append_nil]
      rwa [Nat.min_eq_right (Nat.le_of_lt hlt)] at hopen ⊢
    · rw [Nat.min_eq_left hle] at hopen ⊢
      have hrest := hopen.applyBlocks rfl (data.drop a.blockLen)
      have htotal : total + a.blockLen + (data.drop a.blockLen).length = total + data.length := by
        rw [List.length_drop]
        omega
      rwa [htotal] at hrest
termination_by data.length
decreasing_by simp only [List.length_drop]; omega

/-- A call uses up what is left before it makes a block. -/
theorem Ledger.apply (h : Ledger c iv log total s) (data : ByteString) :
    Ledger c iv (log ++ s.logOfApply data) (total + data.length) (s.apply data).2 := by
  have hleft : s.leftover.length = a.blockLen - s.position := by
    rw [leftover, List.length_drop, Bytes.length_toList]
  have hpos := h.position
  have htake : (data.take s.leftover.length).length = min s.leftover.length data.length :=
    List.length_take
  have huse := h.use (data.take s.leftover.length).length (by omega)
  simp only [logOfApply, CounterStream.apply]
  rcases Nat.lt_or_ge s.leftover.length data.length with hmore | hfits
  · have hend : (s.use (data.take s.leftover.length).length).position = a.blockLen := by
      change s.position + (data.take s.leftover.length).length = a.blockLen
      omega
    have hrest := huse.applyBlocks hend (data.drop s.leftover.length)
    have htotal : total + (data.take s.leftover.length).length +
        (data.drop s.leftover.length).length = total + data.length := by
      rw [List.length_drop]
      omega
    rwa [htotal] at hrest
  · rw [List.drop_eq_nil_of_le hfits, logOfBlocks_nil, applyBlocks_nil, List.append_nil]
    rwa [List.take_of_length_le hfits] at huse ⊢

theorem Ledger.setSection (h : Ledger c iv log total s) (sectionLen : Nat) :
    Ledger c iv log total (s.setSection sectionLen).after := by
  refine Outcome.ofCheck_keeps (P := Ledger c iv log total) h fun hcheck => ?_
  have hwhole : sectionLen % a.blockLen = 0 := (accepted_eq_ok_iff.mp hcheck).1
  exact ⟨⟨h.made.cipher, h.made.counter, h.made.generated, hwhole⟩, h.before, h.position,
    h.balance⟩

theorem Ledger.step (h : Ledger c iv log total s) (call : Call) :
    Ledger c iv (log ++ s.logOf call) (total + call.size) (step s call).after.1 := by
  cases call with
  | apply data => exact h.apply data
  | keystream data =>
    have hdraw := h.apply (List.replicate data.length 0)
    rwa [List.length_replicate] at hdraw
  | setSection sectionLen =>
    rw [logOf, List.append_nil]
    exact h.setSection sectionLen

theorem Ledger.run (h : Ledger c iv log total s) (calls : List Call) :
    Ledger c iv (log ++ s.blockLog calls) (total + (calls.map Call.size).sum)
      (runCalls CounterStream.step s calls) := by
  induction calls generalizing log total s with
  | nil =>
    rw [blockLog, List.append_nil]
    exact h
  | cons call calls ih =>
    have hrest := ih (h.step call)
    rw [List.append_assoc, Nat.add_assoc] at hrest
    rw [runCalls_cons, List.map_cons, List.sum_cons, blockLog]
    exact hrest

/-! ## 5. The law -/

/-- What is known of block `i` of a log, and of the stream `s` that it found. -/
structure BlockAt (c : Cipher a) (iv : ByteString) (log : List (CounterStream a)) (i : Nat)
    (s : CounterStream a) : Prop where
  /-- The counter is the initial one plus the number of the block, whatever was set meanwhile. -/
  counter : s.counter = (Bytes.padded a.blockLen iv).plus i
  /-- The block is the encrypted counter, under the key that the log says. -/
  keystream : s.nextBlock.keystream = (sectionCipher c (keyOf due log i)).encrypt s.counter
  /-- The count is whole blocks, so that masking it at a change of keys sets it to zero. -/
  whole : s.generated % a.blockLen = 0
  emptied : s.due = true → s.meshIfDue = { s with cipher := s.cipher.mesh, generated := 0 }
  /-- The new count is that of the blocks under this key. -/
  counted : s.nextBlock.generated = a.blockLen * usesAt due log i
  /-- The key has made no more than a section. -/
  bounded : s.sectionLen ≠ 0 → a.blockLen * usesAt due log i ≤ s.sectionLen

theorem HasMade.blockAt {i : Nat} (hi : i < log.length)
    (h : HasMade c iv (log.take i) log[i]) : BlockAt c iv log i log[i] := by
  have hnum : (log.take i).length = i := by
    rw [List.length_take]
    omega
  have hcounter := h.counter
  rw [hnum] at hcounter
  refine ⟨hcounter, ?_, ?_, ?_, ?_, ?_⟩
  · change log[i].meshIfDue.cipher.encrypt log[i].meshIfDue.counter = _
    rw [meshIfDue_counter, h.meshIfDue_cipher, keyOf_eq due hi]
  · rw [h.generated, Nat.mul_mod_right]
  · intro hdue
    rw [meshIfDue_of_due hdue, Algorithm.and_mask, h.generated, Nat.mul_mod_right]
  · rw [usesAt_eq due hi, h.nextBlock_generated]
  · rw [usesAt_eq due hi]
    exact h.bounded

/-- What is known of a list of calls on a stream. -/
structure UsageLaw (c : Cipher a) (iv : ByteString) (s : CounterStream a) (calls : List Call) :
    Prop where
  blocks : ∀ (i : Nat) (h : i < (s.blockLog calls).length),
    BlockAt c iv (s.blockLog calls) i (s.blockLog calls)[i]
  /-- The key is the last one of the log, and the count is that of the blocks under it. -/
  cipher : (runCalls step s calls).cipher = sectionCipher c (presentKey due (s.blockLog calls))
  generated : (runCalls step s calls).generated = a.blockLen * uses due (s.blockLog calls)
  position : 1 ≤ (runCalls step s calls).position ∧
    (runCalls step s calls).position ≤ a.blockLen
  /-- The blocks of the log are as many as the bytes given out need. -/
  balance : (calls.map Call.size).sum + a.blockLen =
    a.blockLen * (s.blockLog calls).length + (runCalls step s calls).position

/-- **A key never serves more than the section that is set.** A stream is made of any cipher,
initial value and section length that are accepted. Then data is masked, keystream is drawn and
section lengths are set in any order, with some of them refused, and every block keeps the law. -/
theorem usage_law {c : Cipher a} {iv : ByteString} {sectionLen : Nat} {s : CounterStream a}
    (h : ofCipher c iv sectionLen = .ok s) (calls : List Call) : UsageLaw c iv s calls := by
  obtain ⟨hsection, -, rfl⟩ := ofCipher_eq_ok_iff.mp h
  have hrun := (Ledger.start c iv hsection).run calls
  rw [List.nil_append, Nat.zero_add] at hrun
  exact ⟨fun i hi => (hrun.before i hi).blockAt hi, hrun.made.cipher, hrun.made.generated,
    hrun.position, hrun.balance⟩

/-- The section is cut to less than its key has made, then a length is refused, and then sections
are turned off and on again. -/
theorem usage_law_gost89 :
    let c := Cipher.gost89OfKey (.zero 32) default
    ∃ s, ofCipher c [1, 2, 3, 4] 32 = .ok s ∧ UsageLaw c [1, 2, 3, 4] s
      [.apply (List.replicate 20 7), .setSection 8, .keystream [1, 2, 3, 4, 5], .setSection 7,
        .setSection 0, .apply (List.replicate 30 1), .setSection 16, .apply [1]] := by
  intro c
  have hmade : ofCipher c [1, 2, 3, 4] 32 = .ok (start c [1, 2, 3, 4] 32) := rfl
  exact ⟨_, hmade, usage_law hmade _⟩

end CounterStream

end GostSuite

import GostSuite.Mac.MeshedOmac
import GostSuite.Proofs.CounterStream.Session
import GostSuite.Proofs.Mac.HeldBack

/-!
# The meshed code, block by block

The code of a message under a key, a section length and a master section length can be said in one
line for each block: block `i` is chained under the key pair of section `i * n / sectionLen`, and
pair `r` stands in the master keystream at `r` times the length of a pair. `wholeCode` says it. No
order of events is left in it: no block is held back, nothing is counted, no key is ever replaced.

A context does all of that, and what it stores at a moment depends on how the message was cut only
in the bytes it holds back. The two accounts meet in `ProgressAt`: after `i` chained blocks the
context holds the pair of the last of them and a master stream that stands behind that pair, and the
next block is chained under the pair of its own section, whoever chains it, a piece of the message
or its end.
-/

set_option autoImplicit false

namespace GostSuite

namespace Bytes

/-- The `n` bytes of a stream from position `start` on. -/
def ofStream (n : Nat) (stream : Nat → UInt8) (start : Nat) : Bytes n :=
  ⟨(List.range n).map fun i => stream (start + i), by simp⟩

end Bytes

namespace MeshedOmac

variable {a : Algorithm}

/-! ## 1. The code as a definition -/

/-- The master keystream: that of the key, for an initial value of all `ff`. -/
def masterByte (a : Algorithm) (key : Key) (masterSection : Nat) : Nat → UInt8 :=
  CounterStream.keystreamByte (.ofKey a key) (List.replicate a.halfBlockLen 0xff) masterSection

/-- Key pair `r`: the cipher key and the whitening key at their place in the master keystream. -/
def keyPair (a : Algorithm) (key : Key) (masterSection r : Nat) : MacKey a :=
  let master := masterByte a key masterSection
  ⟨.ofKey a (.ofStream 32 master (r * (32 + a.blockLen))),
    .ofStream a.blockLen master (r * (32 + a.blockLen) + 32)⟩

/-- The chain over the first `i` blocks, block `i` under the pair of the section it lies in. -/
def chainState (pairs : Nat → MacKey a) (sectionLen : Nat) (message : ByteString) : Nat → Block a
  | 0 => .zero a.blockLen
  | i + 1 =>
    (pairs (i * a.blockLen / sectionLen)).cipher.encrypt
      (chainState pairs sectionLen message i ^^^ .padded a.blockLen (message.drop (i * a.blockLen)))

/-- The last block, whitened: as it is if it is whole, and otherwise filled with `80 00 …`. -/
def lastBlock (pair : MacKey a) (rest : ByteString) : Block a :=
  if rest.length = a.blockLen then .padded a.blockLen rest ^^^ pair.whitening
  else .padded a.blockLen (rest ++ [0x80]) ^^^ pair.whitening.double

/-- The whole code of a message. -/
def wholeCode (a : Algorithm) (key : Key) (sectionLen masterSection : Nat) (message : ByteString) :
    Block a :=
  let last := max 1 ((message.length + (a.blockLen - 1)) / a.blockLen) - 1
  let pairs := keyPair a key masterSection
  let pair := pairs (last * a.blockLen / sectionLen)
  pair.cipher.encrypt
    (chainState pairs sectionLen message last ^^^
      lastBlock pair (message.drop (last * a.blockLen)))

/-! ## 2. Key pairs come off the master stream in order -/

variable {key : Key} {masterSection : Nat}

def MasterAt (key : Key) (masterSection count : Nat) (s : CounterStream a) : Prop :=
  CounterStream.Consumed (.ofKey a key) (List.replicate a.halfBlockLen 0xff)
    (masterSection / a.blockLen) count s

/-- The keys of section `r`, and a master stream that stands behind them. -/
structure KeysAt (key : Key) (masterSection r : Nat) (k : SectionKeys a) : Prop where
  current : k.current = keyPair a key masterSection r
  master : MasterAt key masterSection ((r + 1) * (32 + a.blockLen)) k.master

theorem padded_map_range' {m n : Nat} (hmn : m ≤ n) (stream : Nat → UInt8) (start : Nat) :
    Bytes.padded m ((List.range' start n).map stream) = Bytes.ofStream m stream start := by
  apply Bytes.ext
  rw [← Bytes.padded_take _ (by simpa using hmn),
    Bytes.toList_padded (by simpa using hmn), ← List.map_take, List.take_range'_of_length_ge hmn,
    List.range'_eq_map_range, List.map_map]
  rfl

/-- One draw from the master stream gives one pair. -/
theorem KeysAt.ofMaster (hsection : masterSection % a.blockLen = 0) {r : Nat}
    {s : CounterStream a} (h : MasterAt key masterSection (r * (32 + a.blockLen)) s) :
    KeysAt key masterSection r (SectionKeys.ofMaster s) := by
  -- what is drawn is what masks zeros, so the law of one call says which bytes these are
  obtain ⟨hout, hcons⟩ := CounterStream.apply_eq_mask h (List.replicate (32 + a.blockLen) 0)
  have hstream : streamOf (CounterStream.keystreamBlock (.ofKey a key)
      (List.replicate a.halfBlockLen 0xff) (masterSection / a.blockLen)) =
      masterByte a key masterSection := by
    have hwhole : a.blockLen * (masterSection / a.blockLen) = masterSection :=
      Nat.mul_div_cancel' (Nat.dvd_of_mod_eq_zero hsection)
    rw [← CounterStream.keystreamByte_eq, hwhole]
    rfl
  rw [hstream, ByteString.mask_zeros] at hout
  rw [List.length_replicate] at hcons
  have hdraw : SectionKeys.ofMaster s =
      ⟨(s.draw (32 + a.blockLen)).2, .ofKey a (.padded 32 (s.draw (32 + a.blockLen)).1),
        .padded a.blockLen ((s.draw (32 + a.blockLen)).1.drop 32)⟩ := rfl
  rw [hdraw]
  refine ⟨?_, ?_⟩
  · change MacKey.mk _ _ = _
    rw [CounterStream.draw, hout, padded_map_range' (by omega), ← List.map_drop,
      List.drop_range', padded_map_range' (by omega)]
    rfl
  · change MasterAt key masterSection _ (s.draw (32 + a.blockLen)).2
    rw [Nat.succ_mul]
    exact hcons

theorem KeysAt.next (hsection : masterSection % a.blockLen = 0) {r : Nat} {k : SectionKeys a}
    (h : KeysAt key masterSection r k) : KeysAt key masterSection (r + 1) k.next :=
  KeysAt.ofMaster hsection h.master

theorem KeysAt.ofKey (hsection : masterSection % a.blockLen = 0) :
    KeysAt key masterSection 0 (SectionKeys.ofKey a key masterSection) := by
  refine KeysAt.ofMaster hsection ?_
  have hwhole : a.blockLen * (masterSection / a.blockLen) = masterSection :=
    Nat.mul_div_cancel' (Nat.dvd_of_mod_eq_zero hsection)
  have hstart := CounterStream.Consumed.start (.ofKey a key) (List.replicate a.halfBlockLen 0xff)
    (masterSection / a.blockLen)
  rw [hwhole] at hstart
  rw [Nat.zero_mul]
  exact hstart

/-! ## 3. Blocks and sections move together -/

variable {sectionLen : Nat}

/-- A section begins with the blocks that stand at a multiple of its length. -/
theorem section_succ (hlen : sectionLen ≠ 0) (hsection : sectionLen % a.blockLen = 0) (i : Nat) :
    i * a.blockLen / sectionLen =
      if 0 < i * a.blockLen ∧ i * a.blockLen % sectionLen = 0
      then (i - 1) * a.blockLen / sectionLen + 1 else (i - 1) * a.blockLen / sectionLen := by
  have hn : 0 < a.blockLen := a.blockLen_pos
  obtain ⟨t, rfl⟩ : ∃ t, sectionLen = t * a.blockLen := by
    obtain ⟨t, ht⟩ := Nat.dvd_of_mod_eq_zero hsection
    exact ⟨t, by rw [ht, Nat.mul_comm]⟩
  have ht : 0 < t := Nat.pos_of_ne_zero fun h => hlen (by rw [h, Nat.zero_mul])
  rw [Nat.mul_div_mul_right _ _ hn, Nat.mul_div_mul_right _ _ hn, Nat.mul_mod_mul_right]
  -- with lengths counted in blocks this is division by `t` of two numbers in a row
  cases i with
  | zero => simp
  | succ j =>
    have hpos : 0 < (j + 1) * a.blockLen := Nat.mul_pos (Nat.succ_pos j) hn
    rw [Nat.add_sub_cancel]
    by_cases hmod : (j + 1) % t = 0
    · rw [Nat.succ_div_of_mod_eq_zero hmod, if_pos ⟨hpos, by rw [hmod, Nat.zero_mul]⟩]
    · rw [Nat.succ_div_of_mod_ne_zero hmod, if_neg]
      rintro ⟨-, hzero⟩
      exact hmod ((Nat.mul_eq_zero.mp hzero).resolve_right (Nat.ne_of_gt hn))

/-- The progress of a context after `i` chained blocks: it holds the pair of the last of them. -/
structure ProgressAt (key : Key) (sectionLen masterSection i : Nat) (p : Progress a) : Prop where
  keys : KeysAt key masterSection ((i - 1) * a.blockLen / sectionLen) p.keys
  processed : p.processed = i * a.blockLen

/-- Whoever chains a block next, it is chained under the pair of its own section. -/
theorem ProgressAt.beforeBlock (hlen : sectionLen ≠ 0) (hsection : sectionLen % a.blockLen = 0)
    (hmaster : masterSection % a.blockLen = 0) {i : Nat} {p : Progress a}
    (h : ProgressAt key sectionLen masterSection i p) :
    ProgressAt key sectionLen masterSection (i + 1) (p.beforeBlock sectionLen) := by
  refine ⟨?_, ?_⟩
  · rw [Nat.add_sub_cancel, section_succ hlen hsection i, Progress.beforeBlock, h.processed]
    split
    · exact h.keys.next hmaster
    · exact h.keys
  · change p.processed + a.blockLen = _
    rw [h.processed, Nat.succ_mul]

theorem ProgressAt.current {i : Nat} {p : Progress a}
    (h : ProgressAt key sectionLen masterSection (i + 1) p) :
    p.keys.current = keyPair a key masterSection (i * a.blockLen / sectionLen) := h.keys.current

/-- **The leading blocks.** Chaining the first `i` blocks of a message leads to the state that the
definition gives them. -/
theorem run_blocks (hlen : sectionLen ≠ 0) (hsection : sectionLen % a.blockLen = 0)
    (hmaster : masterSection % a.blockLen = 0) {p : Progress a}
    (h : ProgressAt key sectionLen masterSection 0 p) (message : ByteString) (i : Nat) :
    let r := Chain.run (Progress.process sectionLen) (p, .zero a.blockLen)
      ((List.range i).map (Chain.blockAt a.blockLen message))
    ProgressAt key sectionLen masterSection i r.1 ∧
      r.2 = chainState (keyPair a key masterSection) sectionLen message i := by
  induction i with
  | zero => exact ⟨h, rfl⟩
  | succ i ih =>
    obtain ⟨hprogress, hstate⟩ := ih
    have hnext := hprogress.beforeBlock hlen hsection hmaster
    rw [List.range_succ, List.map_append, Chain.run, List.foldl_append]
    refine ⟨hnext, ?_⟩
    rw [chainState, ← hnext.current, ← hstate]
    rfl

/-! ## 4. A context and its message -/

/-- The keys and the chain after a message, from the keying on. -/
def afterMessage (key : Key) (sectionLen masterSection : Nat) (message : ByteString) :
    Progress a × Chain a.blockLen :=
  Chain.after (Progress.process sectionLen) ⟨SectionKeys.ofKey a key masterSection, 0⟩ message

/-- A context that has been keyed and fed with `message`. -/
structure Fed (key : Key) (sectionLen masterSection macLen : Nat) (message : ByteString)
    (m : MeshedOmac a) : Prop where
  keys : m.keys = some (afterMessage key sectionLen masterSection message).1.keys
  processed : m.processed =
    (afterMessage (a := a) key sectionLen masterSection message).1.processed
  chain : m.chain = (afterMessage key sectionLen masterSection message).2
  sectionLen : m.sectionLen = sectionLen
  macLen : m.macLen = macLen
  unfinished : m.finished = false

variable {macLen : Nat} {message : ByteString} {m : MeshedOmac a}

theorem Fed.ready (h : Fed key sectionLen masterSection macLen message m) :
    m.ready = .ok (afterMessage key sectionLen masterSection message).1.keys := by
  rw [MeshedOmac.ready, h.unfinished, h.keys]
  rfl

theorem update_of_ready {keys : SectionKeys a} (h : m.ready = .ok keys) (data : ByteString) :
    m.update data =
      let r := m.chain.feed (Progress.process m.sectionLen) ⟨keys, m.processed⟩ data
      .done { m with keys := some r.1.keys, processed := r.1.processed, chain := r.2 } () := by
  rw [update, h]

theorem finish_of_ready {keys : SectionKeys a} (h : m.ready = .ok keys) :
    m.finish.answer =
      .ok ((Progress.beforeBlock m.sectionLen ⟨keys, m.processed⟩).keys.current.close m.chain
        m.macLen) := by
  rw [finish, h]
  rfl

theorem Fed.update (h : Fed key sectionLen masterSection macLen message m) (piece : ByteString) :
    ∃ m', m.update piece = .done m' () ∧
      Fed key sectionLen masterSection macLen (message ++ piece) m' := by
  have hfeed : m.chain.feed (Progress.process m.sectionLen)
      ⟨(afterMessage key sectionLen masterSection message).1.keys, m.processed⟩ piece =
      afterMessage key sectionLen masterSection (message ++ piece) := by
    rw [h.chain, h.sectionLen, h.processed]
    exact Chain.feed_after message piece
  rw [update_of_ready h.ready, hfeed]
  exact ⟨_, rfl, rfl, rfl, rfl, h.sectionLen, h.macLen, h.unfinished⟩

theorem goesThrough_update (h : Fed key sectionLen masterSection macLen message m)
    (pieces : List ByteString) :
    ∃ m', GoesThrough step m (pieces.map .update) [] m' ∧
      Fed key sectionLen masterSection macLen (message ++ pieces.flatten) m' := by
  refine GoesThrough.ofPieces (fun message m h piece => ?_) h pieces
  obtain ⟨m', hupdate, hfed⟩ := h.update piece
  exact ⟨m', congrArg StepOutcome.ofUnit hupdate, hfed⟩

theorem chain_lastBlock (pair : MacKey a) (c : Chain a.blockLen) :
    c.lastBlock pair.whitening = lastBlock pair c.pending := by
  simp [Chain.lastBlock, lastBlock, Chain.full]

/-- The end of the message gives the code, cut to the length that was set. -/
theorem Fed.finish (hlen : sectionLen ≠ 0) (hsection : sectionLen % a.blockLen = 0)
    (hmaster : masterSection % a.blockLen = 0)
    (h : Fed key sectionLen masterSection macLen message m) :
    m.finish.answer =
      .ok (.ofBlock (wholeCode a key sectionLen masterSection message) macLen) := by
  have hstart : ProgressAt (a := a) key sectionLen masterSection 0
      ⟨SectionKeys.ofKey a key masterSection, 0⟩ :=
    ⟨by simpa using KeysAt.ofKey hmaster, by simp⟩
  obtain ⟨hprogress, hstate⟩ := run_blocks hlen hsection hmaster hstart message
    (Chain.blockCount a.blockLen message - 1)
  have hpair : (Progress.beforeBlock sectionLen
      (afterMessage key sectionLen masterSection message).1).keys.current =
        keyPair a key masterSection
          ((Chain.blockCount a.blockLen message - 1) * a.blockLen / sectionLen) :=
    (hprogress.beforeBlock hlen hsection hmaster).current
  have hchain : (afterMessage key sectionLen masterSection message).2.state =
      chainState (keyPair a key masterSection) sectionLen message
        (Chain.blockCount a.blockLen message - 1) := hstate
  rw [finish_of_ready h.ready, h.sectionLen, h.processed, h.chain, h.macLen, MacKey.close,
    Chain.close, hpair, hchain, chain_lastBlock]
  rfl

theorem setSections_eq (m : MeshedOmac a) (hlen : sectionLen ≠ 0)
    (hsection : sectionLen % a.blockLen = 0) (hmasterLen : masterSection ≠ 0)
    (hmaster : masterSection % a.blockLen = 0) :
    m.setSections sectionLen masterSection =
      .done { m with sectionLen := sectionLen, masterSection := masterSection } () := by
  rw [setSections, Bounds.macSection, Bounds.macSection, if_pos ⟨hlen, hsection⟩,
    if_pos ⟨hmasterLen, hmaster⟩]
  rfl

/-- A master stream can have a section of whole blocks, so a key is taken. -/
theorem setKey_eq (hmaster : m.masterSection % a.blockLen = 0) (key : Key) :
    m.setKey key =
      .done { m with
        initial := some (SectionKeys.ofKey a key m.masterSection)
        keys := some (SectionKeys.ofKey a key m.masterSection)
        chain := .start a.blockLen
        processed := 0
        finished := false } () := by
  rw [setKey, Bounds.streamSection, if_pos hmaster]
  rfl

/-- The contexts that a key gives: both section lengths are multiples of the block, and not zero. -/
theorem ofKey_eq_ok_iff :
    ofKey a key sectionLen masterSection = .ok m ↔
      (sectionLen ≠ 0 ∧ sectionLen % a.blockLen = 0) ∧
        (masterSection ≠ 0 ∧ masterSection % a.blockLen = 0) ∧
          m = { unkeyed a with
            initial := some (SectionKeys.ofKey a key masterSection)
            keys := some (SectionKeys.ofKey a key masterSection)
            sectionLen := sectionLen
            masterSection := masterSection } := by
  rw [ofKey]
  constructor
  · intro h
    obtain ⟨⟨⟩, hset, hkey⟩ := bind_eq_ok_iff.mp h
    rcases Outcome.ofCheck_cases (unkeyed a)
        (do Bounds.macSection a sectionLen; Bounds.macSection a masterSection)
        { unkeyed a with sectionLen := sectionLen, masterSection := masterSection } with
      ⟨hcheck, -⟩ | ⟨e, -, hrefused⟩
    · obtain ⟨⟨⟩, hlen, hmaster⟩ := bind_eq_ok_iff.mp hcheck
      have hlen := (accepted_eq_ok_iff.mp hlen).1
      have hmaster := (accepted_eq_ok_iff.mp hmaster).1
      refine ⟨hlen, hmaster, ?_⟩
      rw [setSections_eq _ hlen.1 hlen.2 hmaster.1 hmaster.2] at hkey
      simp only [Outcome.done] at hkey
      rw [setKey_eq hmaster.2] at hkey
      exact (Except.ok.inj hkey).symm
    · rw [setSections, hrefused] at hset
      cases hset
  · rintro ⟨hlen, hmaster, rfl⟩
    rw [setSections_eq _ hlen.1 hlen.2 hmaster.1 hmaster.2]
    simp only [Outcome.done]
    rw [setKey_eq hmaster.2]
    rfl

theorem ofKey_ok (a : Algorithm) (key : Key) (hlen : sectionLen ≠ 0)
    (hsection : sectionLen % a.blockLen = 0) (hmasterLen : masterSection ≠ 0)
    (hmaster : masterSection % a.blockLen = 0) :
    ∃ m, ofKey a key sectionLen masterSection = .ok m ∧
      Fed key sectionLen masterSection a.blockLen [] m := by
  have hempty : afterMessage key sectionLen masterSection [] =
      (⟨SectionKeys.ofKey a key masterSection, 0⟩, Chain.start a.blockLen) := Chain.after_nil
  refine ⟨_, ofKey_eq_ok_iff.mpr ⟨⟨hlen, hsection⟩, ⟨hmasterLen, hmaster⟩, rfl⟩, ?_, ?_, ?_, rfl,
    rfl, rfl⟩
  · rw [hempty]
  · rw [hempty]
    rfl
  · rw [hempty]
    rfl

/-- **The law of the meshed code.** A context is made of any key and two section lengths that are
multiples of the block and not zero. Whatever code length of one to a block is set and however the
message is cut, all calls go through, and the end gives the first bytes of the whole code. -/
theorem finish_eq_wholeCode (a : Algorithm) (key : Key) (sectionLen masterSection size : Nat)
    (hlen : sectionLen ≠ 0) (hsection : sectionLen % a.blockLen = 0)
    (hmasterLen : masterSection ≠ 0) (hmaster : masterSection % a.blockLen = 0)
    (hsize : 1 ≤ size ∧ size ≤ a.blockLen) (pieces : List ByteString) :
    ∃ m m', ofKey a key sectionLen masterSection = .ok m ∧
      GoesThrough step m (.setMacLen size :: pieces.map .update) [] m' ∧
      m'.finish.answer =
        .ok (.ofBlock (wholeCode a key sectionLen masterSection pieces.flatten) size) := by
  obtain ⟨m, hok, hfed⟩ := ofKey_ok a key hlen hsection hmasterLen hmaster
  have hset : step m (.setMacLen size) = .done ({ m with macLen := size }, []) none := by
    simp [step, setMacLen, Outcome.ofCheck, Bounds.macLen, Algorithm.macLen, hsize]
    rfl
  have hready : Fed key sectionLen masterSection size [] { m with macLen := size } :=
    ⟨hfed.keys, hfed.processed, hfed.chain, hfed.sectionLen, rfl, hfed.unfinished⟩
  obtain ⟨m', hgo, hend⟩ := goesThrough_update hready pieces
  exact ⟨m, m', hok, GoesThrough.cons hset hgo, hend.finish hlen hsection hmaster⟩

/-- A code whose master section ends inside a key pair. -/
theorem finish_magma_short_sections :
    ∃ m m', ofKey .magma (.zero 32) 16 24 = .ok m ∧
      GoesThrough step m
        [.setMacLen 4, .update [1, 2, 3], .update [], .update (List.replicate 40 4)] [] m' ∧
      m'.finish.answer =
        .ok (.ofBlock (wholeCode .magma (.zero 32) 16 24
          ([1, 2, 3] ++ List.replicate 40 4)) 4) :=
  finish_eq_wholeCode .magma (.zero 32) 16 24 4 (by decide) rfl (by decide) rfl (by decide)
    [[1, 2, 3], [], List.replicate 40 4]

end MeshedOmac

end GostSuite

import GostSuite.Proofs.Calls
import GostSuite.Proofs.CounterStream.Session
import GostSuite.Proofs.Derivation.KeyTree
import GostSuite.Proofs.Mac.Plain
import GostSuite.Sealing.SealedStream

/-!
# Sealed streams, from either end

A sealed stream runs two machines over one message. The keystream cuts it at its blocks and at its
sections, the code cuts it elsewhere and holds a block back, and each call has its own idea of a
piece. Neither machine sees the other's cuts: both are functions of the plaintext that has gone by.
So the state of a stream is told by that plaintext alone (`Reached`), whoever the stream belongs to:

> a sender and a receiver that have seen the same plaintext are in the same state.

Encrypting feeds the code before the keystream comes on, decrypting after it has come off. This is
one step all the same, because a code that is under way refuses nothing, so `Reached.turn` has one
statement for both, in terms of the plaintext side and the ciphertext side of a call.

The tag goes through the keystream from where the message has stopped, which may be in the middle of
a block. Nothing has to be said about that: the keystream is a row of bytes, and the tag takes the
next ones.
-/

set_option autoImplicit false

namespace GostSuite

namespace SealedStream

variable {a : Algorithm}

/-! ## 1. What a stream is made of -/

/-- The two ciphers of a stream, and how its keystream is made. -/
structure Setup (a : Algorithm) where
  cipher : Cipher a
  mac : Cipher a
  iv : ByteString
  sectionLen : Nat

namespace Setup

def ofKeys (a : Algorithm) (cipherKey macKey : Key) (iv : ByteString) (sectionLen : Nat) : Setup a :=
  ⟨.ofKey a cipherKey, .ofKey a macKey, iv, sectionLen⟩

def keystream (k : Setup a) : Nat → UInt8 :=
  CounterStream.keystreamByte k.cipher k.iv k.sectionLen

/-- The tag of a message: as much of its code as is wanted, masked with the keystream that follows
the message. -/
def tag (k : Setup a) (size : Nat) (message : ByteString) : ByteString :=
  ByteString.mask k.keystream message.length ((Omac.wholeCode k.mac message).toList.take size)

def start (k : Setup a) : SealedStream a :=
  ⟨.start k.cipher k.iv k.sectionLen, .ofCipher k.mac, false⟩

end Setup

/-- The stream has seen the plaintext `message` and has not been asked for its tag, which is to have
`size` bytes. -/
structure Reached (k : Setup a) (size : Nat) (message : ByteString) (s : SealedStream a) : Prop where
  stream : CounterStream.Given k.cipher k.iv k.sectionLen message.length s.stream
  code : Omac.Fed k.mac size message s.code
  unfinished : s.finished = false

variable {k : Setup a} {size : Nat} {message : ByteString} {s : SealedStream a}

theorem Reached.start (k : Setup a) (hsection : k.sectionLen % a.blockLen = 0) :
    Reached k a.blockLen [] k.start where
  stream := CounterStream.Given.start k.cipher k.iv hsection
  code := Omac.Fed.ofCipher k.mac
  unfinished := rfl

theorem Reached.ensureOpen (h : Reached k size message s) : s.ensureOpen = .ok () := by
  rw [SealedStream.ensureOpen, h.unfinished]
  rfl

/-! ## 2. Pieces of the message -/

namespace Call

/-- Whether a call hands over a piece of the message. -/
def turns : Call → Bool
  | .encrypt _ | .decrypt _ => true
  | .finish | .verify _ | .setMacLen _ => false

/-- The plaintext side of a call that has left `out` in its buffer. -/
def plaintext : Call → (out : ByteString) → ByteString
  | .encrypt data, _ => data
  | .decrypt _, out => out
  | .finish, _ | .verify _, _ | .setMacLen _, _ => []

def ciphertext : Call → (out : ByteString) → ByteString
  | .encrypt _, out => out
  | .decrypt data, _ => data
  | .finish, _ | .verify _, _ | .setMacLen _, _ => []

end Call

/-- One side of each of a list of calls, put together. -/
def sides (side : Call → ByteString → ByteString) (s : SealedStream a) : List Call → ByteString
  | [] => []
  | call :: calls => side call (step s call).after.2 ++ sides side (step s call).after.1 calls

def plaintextOf (s : SealedStream a) (calls : List Call) : ByteString := sides Call.plaintext s calls

def ciphertextOf (s : SealedStream a) (calls : List Call) : ByteString := sides Call.ciphertext s calls

theorem Reached.apply (h : Reached k size message s) (data : ByteString) :
    ∃ stream, s.stream.apply data = (data.mask k.keystream message.length, stream) ∧
      CounterStream.Given k.cipher k.iv k.sectionLen (message.length + data.length) stream :=
  h.stream.apply data

theorem Reached.encrypt (h : Reached k size message s) (data : ByteString) :
    ∃ s', s.encrypt data = .done (s', data.mask k.keystream message.length) () ∧
      Reached k size (message ++ data) s' := by
  obtain ⟨code, hcode, hfed⟩ := h.code.update data
  obtain ⟨stream, hstream, hgiven⟩ := h.apply data
  refine ⟨⟨stream, code, s.finished⟩, ?_, ?_, hfed, h.unfinished⟩
  · rw [SealedStream.encrypt, h.ensureOpen, hcode, hstream]
    rfl
  · rw [List.length_append]
    exact hgiven

theorem Reached.decrypt (h : Reached k size message s) (data : ByteString) :
    ∃ s', s.decrypt data = .done (s', data.mask k.keystream message.length) () ∧
      Reached k size (message ++ data.mask k.keystream message.length) s' := by
  obtain ⟨stream, hstream, hgiven⟩ := h.apply data
  obtain ⟨code, hcode, hfed⟩ := h.code.update (data.mask k.keystream message.length)
  refine ⟨⟨stream, code, s.finished⟩, ?_, ?_, hfed, h.unfinished⟩
  · simp only [SealedStream.decrypt, h.ensureOpen, hstream, hcode]
    rfl
  · rw [List.length_append, ByteString.length_mask]
    exact hgiven

/-- A piece goes through in either direction: its ciphertext side is its plaintext side, masked from
the present place on, and its plaintext side is what the stream has seen after it. -/
theorem Reached.turn (h : Reached k size message s) {call : Call} (hcall : call.turns = true) :
    ∃ s' out, step s call = .done (s', out) none ∧
      call.ciphertext out = (call.plaintext out).mask k.keystream message.length ∧
      Reached k size (message ++ call.plaintext out) s' := by
  cases call with
  | encrypt data =>
    obtain ⟨s', hrun, hreached⟩ := h.encrypt data
    refine ⟨s', data.mask k.keystream message.length, ?_, rfl, hreached⟩
    rw [step, hrun]
    rfl
  | decrypt data =>
    -- the plaintext side is the one that comes out, and masking it again gives what went in
    obtain ⟨s', hrun, hreached⟩ := h.decrypt data
    refine ⟨s', data.mask k.keystream message.length, ?_, (ByteString.mask_mask _ data).symm,
      hreached⟩
    rw [step, hrun]
    rfl
  | finish | verify _ | setMacLen _ => exact absurd hcall (by simp [Call.turns])

/-- So does every list of pieces, whoever takes turns in it. -/
theorem Reached.run (h : Reached k size message s) (calls : List Call)
    (hcalls : ∀ call ∈ calls, call.turns = true) :
    (∀ o ∈ transcript step s calls, o.answer = .ok none) ∧
      ciphertextOf s calls = (plaintextOf s calls).mask k.keystream message.length ∧
      Reached k size (message ++ plaintextOf s calls) (runCalls step s calls) := by
  -- the place in the keystream moves with the message, so both are generalized
  induction calls generalizing message s with
  | nil =>
    refine ⟨fun _ hnone => absurd hnone List.not_mem_nil, rfl, ?_⟩
    rw [plaintextOf, sides, List.append_nil]
    exact h
  | cons call calls ih =>
    obtain ⟨s', out, hstep, hside, hreached⟩ := h.turn (hcalls call (List.mem_cons_self ..))
    obtain ⟨hanswers, hsides, hend⟩ :=
      ih hreached fun next hnext => hcalls next (List.mem_cons_of_mem _ hnext)
    have hplain : plaintextOf s (call :: calls) = call.plaintext out ++ plaintextOf s' calls := by
      rw [plaintextOf, sides, hstep]
      rfl
    have hcipher : ciphertextOf s (call :: calls) = call.ciphertext out ++ ciphertextOf s' calls := by
      rw [ciphertextOf, sides, hstep]
      rfl
    refine ⟨?_, ?_, ?_⟩
    · rw [transcript, hstep]
      exact List.forall_mem_cons.mpr ⟨rfl, hanswers⟩
    · rw [hcipher, hplain, hside, hsides, List.length_append, ByteString.mask_append]
    · rw [hplain, ← List.append_assoc, runCalls_cons, hstep]
      exact hend

theorem ciphertextOf_decrypt (s : SealedStream a) (pieces : List ByteString) :
    ciphertextOf s (pieces.map .decrypt) = pieces.flatten := by
  induction pieces generalizing s with
  | nil => rfl
  | cons piece pieces ih =>
    rw [List.flatten_cons, ← ih (step s (.decrypt piece)).after.1]
    rfl

theorem output_decrypt (s : SealedStream a) (pieces : List ByteString) :
    (transcript step s (pieces.map .decrypt)).flatMap (fun o => o.after.2) =
      plaintextOf s (pieces.map .decrypt) := by
  induction pieces generalizing s with
  | nil => rfl
  | cons piece pieces ih =>
    rw [List.map_cons, transcript, List.flatMap_cons, ih]
    rfl

/-- A receiver gets back what was sent, and has seen the same as the sender. -/
theorem Reached.receive (h : Reached k size [] s) (message : ByteString) (pieces : List ByteString)
    (hpieces : pieces.flatten = message.mask k.keystream 0) :
    ∃ s', GoesThrough step s (pieces.map .decrypt) message s' ∧ Reached k size message s' := by
  have hturns : ∀ call ∈ pieces.map Call.decrypt, call.turns = true := by
    intro call hmem
    obtain ⟨piece, -, rfl⟩ := List.mem_map.mp hmem
    rfl
  obtain ⟨hanswers, hsides, hend⟩ := h.run (pieces.map .decrypt) hturns
  -- both ciphertexts are the same, and a keystream loses nothing
  have hplain : plaintextOf s (pieces.map .decrypt) = message := by
    rw [ciphertextOf_decrypt, hpieces] at hsides
    exact (ByteString.mask_injective 0 hsides).symm
  rw [hplain, List.nil_append] at hend
  exact ⟨_, ⟨hanswers, (output_decrypt s pieces).trans hplain, rfl⟩, hend⟩

/-! ## 3. The end of the message -/

theorem Reached.finish (h : Reached k size message s) :
    ∃ s', s.finish = .done s' ⟨k.tag size message⟩ ∧ s'.finished = true := by
  obtain ⟨stream, hstream, -⟩ :=
    h.apply (Tag.ofBlock (Omac.wholeCode k.mac message) size).bytes
  refine ⟨⟨stream, { s.code with finished := true }, true⟩, ?_, rfl⟩
  simp only [SealedStream.finish, h.ensureOpen, h.code.finish, Outcome.done, hstream]
  rfl

theorem Reached.verify (h : Reached k size message s) (expected : ByteString) :
    ∃ s', s.verify expected = ⟨s', if expected = k.tag size message then .ok ()
        else .error .authenticationFailed⟩ ∧ s'.finished = true := by
  obtain ⟨s', hfinish, hfinished⟩ := h.finish
  refine ⟨s', ?_, hfinished⟩
  rw [SealedStream.verify, hfinish]
  simp only [Outcome.judge, Outcome.done, Except.bind, Tag.verify_iff]

theorem Reached.answer_finish (h : Reached k size message s) :
    (step s .finish).answer = .ok (some ⟨k.tag size message⟩) := by
  obtain ⟨s', hfinish, -⟩ := h.finish
  rw [step, hfinish]
  rfl

theorem Reached.answer_verify (h : Reached k size message s) (expected : ByteString) :
    (step s (.verify expected)).answer =
      if expected = k.tag size message then .ok none else .error .authenticationFailed := by
  obtain ⟨s', hverify, -⟩ := h.verify expected
  rw [step, hverify]
  simp only [StepOutcome.ofUnit]
  split <;> rfl

/-! ## 4. After the end -/

namespace Call

/-- Whether a call asks for the tag. -/
def ends : Call → Bool
  | .finish | .verify _ => true
  | .encrypt _ | .decrypt _ | .setMacLen _ => false

def buffer : Call → ByteString
  | .encrypt data | .decrypt data => data
  | .finish | .verify _ | .setMacLen _ => []

end Call

/-- The stream takes nothing more: every piece and every request for the tag is out of order, and
changes neither the stream nor the buffer. -/
def Closed (s : SealedStream a) : Prop :=
  ∀ call : Call, (call.turns || call.ends) = true → step s call = .refused (s, call.buffer) .badOrder

theorem closed_of_finished (h : s.finished = true) : Closed s := by
  have hopen : s.ensureOpen = .error .badOrder := if_pos h
  intro call hcall
  cases call with
  | encrypt data => rw [step, SealedStream.encrypt, hopen]; rfl
  | decrypt data => rw [step, SealedStream.decrypt, hopen]; rfl
  | finish => rw [step, SealedStream.finish, hopen]; rfl
  | verify expected => rw [step, SealedStream.verify, SealedStream.finish, hopen]; rfl
  | setMacLen _ => exact absurd hcall (by simp [Call.turns, Call.ends])

theorem finished_step (h : s.finished = true) (call : Call) :
    (step s call).after.1.finished = true := by
  by_cases hcall : (call.turns || call.ends) = true
  · rw [closed_of_finished h call hcall]
    exact h
  · cases call with
    | setMacLen size => exact h
    | encrypt _ | decrypt _ | finish | verify _ =>
      exact absurd hcall (by simp [Call.turns, Call.ends])

theorem finished_calls (h : s.finished = true) (calls : List Call) :
    (runCalls step s calls).finished = true :=
  runCalls_keeps (P := fun s : SealedStream a => s.finished = true)
    (fun _ call h => finished_step h call) h calls

theorem Reached.setMacLen (h : Reached k size message s) {size' : Nat}
    (hsize : 1 ≤ size' ∧ size' ≤ a.blockLen) :
    ∃ s', s.setMacLen size' = .done s' () ∧ Reached k size' message s' := by
  obtain ⟨code, hcode, hfed⟩ := h.code.setMacLen hsize
  refine ⟨{ s with code := code }, ?_, h.stream, hfed, h.unfinished⟩
  rw [SealedStream.setMacLen, hcode]
  rfl

theorem setMacLen_refused (s : SealedStream a) {size : Nat}
    (hsize : ¬(1 ≤ size ∧ size ≤ a.blockLen)) :
    s.setMacLen size = .refused s (.invalidMacSize size a.blockLen) := by
  rw [SealedStream.setMacLen, Omac.setMacLen, Bounds.macLen, Algorithm.macLen, if_neg hsize]
  rfl

theorem Reached.goes_on (h : Reached k size message s) {call : Call} (hcall : call.ends = false) :
    ∃ size' message', Reached k size' message' (step s call).after.1 := by
  cases hturns : call.turns with
  | true =>
    obtain ⟨s', out, hstep, -, hreached⟩ := h.turn hturns
    rw [hstep]
    exact ⟨_, _, hreached⟩
  | false =>
    cases call with
    | setMacLen size' =>
      change ∃ size'' message', Reached k size'' message' (s.setMacLen size').after
      by_cases hsize : 1 ≤ size' ∧ size' ≤ a.blockLen
      · obtain ⟨s', hset, hreached⟩ := h.setMacLen hsize
        rw [hset]
        exact ⟨_, _, hreached⟩
      · rw [setMacLen_refused s hsize]
        exact ⟨_, _, h⟩
    | encrypt _ | decrypt _ => exact absurd hturns (by simp [Call.turns])
    | finish | verify _ => exact absurd hcall (by simp [Call.ends])

theorem Reached.ends (h : Reached k size message s) {call : Call} (hcall : call.ends = true) :
    (step s call).after.1.finished = true := by
  cases call with
  | finish =>
    obtain ⟨s', hfinish, hfinished⟩ := h.finish
    rw [step, hfinish]
    exact hfinished
  | verify expected =>
    obtain ⟨s', hverify, hfinished⟩ := h.verify expected
    rw [step, hverify]
    exact hfinished
  | encrypt _ | decrypt _ | setMacLen _ => exact absurd hcall (by simp [Call.ends])

/-- Once the tag has been asked for, the stream is closed for good. -/
theorem Reached.closed (h : Reached k size message s) {calls : List Call}
    (hcalls : ∃ call ∈ calls, call.ends = true) : Closed (runCalls step s calls) := by
  suffices hfinished : (runCalls step s calls).finished = true from closed_of_finished hfinished
  -- up to the first call that asks for the tag the message is under way, whatever the other calls
  -- are and do; this call finishes the stream, and nothing opens it again
  induction calls generalizing size message s with
  | nil => exact absurd hcalls (by simp)
  | cons call calls ih =>
    rw [runCalls_cons]
    cases hends : call.ends with
    | true => exact finished_calls (h.ends hends) calls
    | false =>
      obtain ⟨size', message', hreached⟩ := h.goes_on hends
      obtain ⟨later, hmem, hlater⟩ := hcalls
      rcases List.mem_cons.mp hmem with rfl | hmem
      · exact absurd (hends.symm.trans hlater) Bool.false_ne_true
      · exact ih hreached ⟨later, hmem, hlater⟩

/-! ## 5. New streams -/

theorem padded_halves {keys : ByteString} (hlen : keys.length = 2 * keyLen) :
    (Bytes.padded 32 keys).toList ++ (Bytes.padded 32 (keys.drop keyLen)).toList = keys := by
  have hfirst : keys.length - keyLen = 32 := by rw [hlen]; rfl
  rw [← Bytes.padded_take keys (by rw [hlen]; decide), Bytes.toList_padded, Bytes.toList_padded]
  · exact List.take_append_drop keyLen keys
  · rw [List.length_drop, hfirst]
  · rw [List.length_take, hlen]
    rfl

theorem padded_append_keys (cipherKey macKey : Key) :
    Bytes.padded 32 (cipherKey.toList ++ macKey.toList) = cipherKey ∧
      Bytes.padded 32 ((cipherKey.toList ++ macKey.toList).drop keyLen) = macKey := by
  constructor
  · rw [Bytes.padded_append _ _ (Nat.le_of_eq cipherKey.length_toList.symm), Bytes.padded_toList]
  · have hdrop : (cipherKey.toList ++ macKey.toList).drop keyLen = macKey.toList :=
      List.drop_left' cipherKey.length_toList
    rw [hdrop, Bytes.padded_toList]

/-- The streams that a key gives, and what they are made of. -/
theorem derived_eq_ok_iff {key : Key} {seed iv : ByteString} {sectionLen counterLen : Nat} :
    derived a key seed iv sectionLen counterLen = .ok s ↔
      seed.length = seedLen ∧ sectionLen % a.blockLen = 0 ∧ iv.length = a.halfBlockLen ∧
        ∃ cipherKey macKey : Key,
          KeyTree.derive key.toList label seed counterLen (2 * keyLen) =
              .ok (cipherKey.toList ++ macKey.toList) ∧
            s = (Setup.ofKeys a cipherKey macKey iv sectionLen).start := by
  rw [derived]
  simp only [bind_eq_ok_iff, CounterStream.ofCipher_eq_ok_iff, Bytes.read_eq_ok_iff]
  constructor
  · -- whatever the tree derives has the length of two keys
    rintro ⟨seed, rfl, keys, hkeys, stream, ⟨hsection, hiv, rfl⟩, hs⟩
    refine ⟨seed.length_toList, hsection, hiv, .padded 32 keys, .padded 32 (keys.drop keyLen), ?_,
      (Except.ok.inj hs).symm⟩
    rw [padded_halves (KeyTree.length_of_derive hkeys)]
    exact hkeys
  · rintro ⟨hseed, hsection, hiv, cipherKey, macKey, hkeys, rfl⟩
    refine ⟨⟨seed, hseed⟩, rfl, _, hkeys, _, ⟨hsection, hiv, rfl⟩, ?_⟩
    obtain ⟨hfirst, hsecond⟩ := padded_append_keys cipherKey macKey
    rw [hfirst, hsecond]
    rfl

theorem ofLimits_eq_ok_iff {key : Key} {seed iv : ByteString} {limits : Limits} :
    ofLimits a key seed iv limits = .ok s ↔
      limits.algorithm = a ∧ ∃ s₀,
        derived a key seed iv limits.streamSection limits.counterLen = .ok s₀ ∧
          s₀.setMacLen limits.macLen = .done s () := by
  rw [ofLimits]
  simp only [bind_eq_ok_iff]
  constructor
  · rintro ⟨⟨⟩, hrequire, s₀, hs₀, ⟨⟩, hanswer, hs⟩
    refine ⟨(accepted_eq_ok_iff.mp hrequire).1, s₀, hs₀, ?_⟩
    cases hs
    rw [Outcome.done, ← hanswer]
  · rintro ⟨halgorithm, s₀, hs₀, hset⟩
    refine ⟨(), if_pos halgorithm, s₀, hs₀, (), ?_, ?_⟩
    · rw [hset]
      rfl
    · rw [hset]
      rfl

/-- Two keys can be numbered by a counter of any width. -/
theorem check_two_keys {counterLen : Nat} (h : 1 ≤ counterLen ∧ counterLen ≤ 4) :
    KeyTree.check counterLen (2 * keyLen) = .ok () := by
  refine KeyTree.check_eq_ok_iff.mpr ⟨h, by decide, ?_⟩
  have hone : 2 ^ (8 * 1) ≤ 2 ^ (8 * counterLen) :=
    Nat.pow_le_pow_right (by decide) (Nat.mul_le_mul_left 8 h.1)
  rw [Nat.one_shiftLeft]
  exact Nat.le_trans (by decide) (Nat.sub_le_sub_right hone 1)

theorem derived_ok (key : Key) {seed iv : ByteString} {sectionLen counterLen : Nat}
    (hseed : seed.length = seedLen) (hsection : sectionLen % a.blockLen = 0)
    (hiv : iv.length = a.halfBlockLen) (hcounter : 1 ≤ counterLen ∧ counterLen ≤ 4) :
    ∃ s, derived a key seed iv sectionLen counterLen = .ok s := by
  have hderive : KeyTree.derive key.toList label seed counterLen (2 * keyLen) = .ok _ :=
    KeyTree.derive_eq_ok_iff.mpr ⟨check_two_keys hcounter, rfl⟩
  rw [← padded_halves (KeyTree.length_of_derive hderive)] at hderive
  exact ⟨_, derived_eq_ok_iff.mpr ⟨hseed, hsection, hiv, _, _, hderive, rfl⟩⟩

/-- A new stream gives whole codes. -/
theorem reached_of_derived {key : Key} {seed iv : ByteString} {sectionLen counterLen : Nat}
    (h : derived a key seed iv sectionLen counterLen = .ok s) :
    ∃ cipherKey macKey : Key,
      KeyTree.derive key.toList label seed counterLen (2 * keyLen) =
          .ok (cipherKey.toList ++ macKey.toList) ∧
        Reached (.ofKeys a cipherKey macKey iv sectionLen) a.blockLen [] s := by
  obtain ⟨-, hsection, -, cipherKey, macKey, hkeys, rfl⟩ := derived_eq_ok_iff.mp h
  exact ⟨cipherKey, macKey, hkeys, Reached.start _ hsection⟩

theorem Reached.of_setMacLen (h : Reached k size message s) {size' : Nat} {s' : SealedStream a}
    (hset : s.setMacLen size' = .done s' ()) : Reached k size' message s' := by
  by_cases hsize : 1 ≤ size' ∧ size' ≤ a.blockLen
  · obtain ⟨s'', hset', hreached⟩ := h.setMacLen hsize
    obtain ⟨rfl, -⟩ := Outcome.done_inj.mp (hset'.symm.trans hset)
    exact hreached
  · rw [setMacLen_refused s hsize] at hset
    exact absurd hset Outcome.refused_ne_done

/-- The streams that a caller can have before the first piece of a message. -/
inductive New : SealedStream a → Prop
  | ofKey {key : Key} {seed iv : ByteString} {sectionLen : Nat} {s : SealedStream a}
      (made : ofKey a key seed iv sectionLen = .ok s) : New s
  | ofLimits {key : Key} {seed iv : ByteString} {limits : Limits} {s : SealedStream a}
      (made : ofLimits a key seed iv limits = .ok s) : New s
  | setMacLen {s s' : SealedStream a} {size : Nat} (new : New s)
      (set : s.setMacLen size = .done s' ()) : New s'

theorem New.reached (h : s.New) : ∃ k size, Reached k size [] s := by
  induction h with
  | ofKey made =>
    obtain ⟨_, _, -, hreached⟩ := reached_of_derived made
    exact ⟨_, _, hreached⟩
  | ofLimits made =>
    obtain ⟨-, s₀, hderived, hset⟩ := ofLimits_eq_ok_iff.mp made
    obtain ⟨_, _, -, hreached⟩ := reached_of_derived hderived
    exact ⟨_, _, hreached.of_setMacLen hset⟩
  | setMacLen _ set ih =>
    obtain ⟨k, _, hreached⟩ := ih
    exact ⟨k, _, hreached.of_setMacLen set⟩

/-! ## 6. The law -/

end SealedStream

end GostSuite

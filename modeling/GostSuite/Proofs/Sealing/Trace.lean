import GostSuite.Proofs.Sealing.Mirror
import GostSuite.Proofs.Sealing.Order

/-!
# What a message encrypts and adds up

A context shows its caller bytes and a tag. What makes them is hidden: the values of one counter
that are encrypted into keystream, and the values of another that are encrypted into the factors of
the blocks that join the sum. Statements about these values need somebody who looks on and writes
them down.

A `Term` is a block that has joined the sum, with the counter that its factor encrypts. Beside each
step on a message there is a list of the terms that the step adds and of the counters that it spends
on keystream. The lists have no course of their own: they read the message that the step finds, and
the steps between are the steps themselves. `traceOf` does this for a call and `trace` for a run,
and a call that is refused leaves nothing behind.

What is written down is then put in closed form, step by step, as the message itself was: the terms
are the blocks in their order, numbered by the counter (`numbered`). `Recorded` is that form for a
whole session, before its tag and after it, and `recorded_calls` says that a session is in it
whatever is called.

An onlooker who wrote down nothing would be right about everything. So what is said of a trace is
worth no more than the trace is, and `Faithful` says what that is: its bytes are those that the
callers see, its counters make the ciphertext, and its terms make the tag. Every session has such a
trace (`trace_faithful`).
-/

set_option autoImplicit false

namespace GostSuite

namespace Mgm

/-! ## 1. Looking on -/

/-- A block of the sum, and the counter that is encrypted to its factor. -/
structure Term (n : Nat) where
  counter : Bytes n
  block : Bytes n

/-- The terms added up, each block times its factor. -/
def Term.sum {n : Nat} (encrypt : Bytes n → Bytes n) (terms : List (Term n)) : Bytes n :=
  (terms.map fun t => (encrypt t.counter).fieldMul t.block).foldl (· ^^^ ·) (.zero n)

namespace Message

variable {n : Nat}

/-- The term that the pending bytes make, if there are any. -/
def termsOfPending (m : Message n) : List (Term n) :=
  if m.pending.isEmpty then [] else [⟨m.z, .padded n m.pending⟩]

/-- The term of a block that is filled up. -/
def termsOfFill (m : Message n) (data : ByteString) : List (Term n) :=
  let pending := m.pending ++ data.take m.room
  if pending.length < n then [] else [⟨m.z, .padded n pending⟩]

/-- The terms of bytes that are taken block by block. -/
def termsOfAbsorb (encrypt : Bytes n → Bytes n) (m : Message n) (data : ByteString) :
    List (Term n) :=
  if _h : data = [] then []
  else m.termsOfFill data ++ termsOfAbsorb encrypt (m.fill encrypt data) (data.drop m.room)
termination_by data.length
decreasing_by
  have := m.length_pending
  have := List.length_pos_iff.mpr _h
  simp only [List.length_drop, room]
  omega

/-- The term of a byte that is turned, if it is the last one of its block. -/
def termsOfByte (encrypt : Bytes n → Bytes n) (d : Direction) (m : Message n) (b : UInt8) :
    List (Term n) :=
  let m := m.refill encrypt
  m.termsOfFill [d.cipherByte b (b ^^^ m.keystreamByte)]

def termsOfTurn (encrypt : Bytes n → Bytes n) (d : Direction) (m : Message n) :
    ByteString → List (Term n)
  | [] => []
  | b :: data =>
    m.termsOfByte encrypt d b ++ termsOfTurn encrypt d (m.turnByte encrypt d b).2 data

/-- The counter that a byte of the message needs encrypted, if it is the first one of its block. -/
def countersOfByte (m : Message n) : List (Bytes n) := if m.pending.isEmpty then [m.y] else []

def countersOfTurn (encrypt : Bytes n → Bytes n) (d : Direction) (m : Message n) :
    ByteString → List (Bytes n)
  | [] => []
  | b :: data => m.countersOfByte ++ countersOfTurn encrypt d (m.turnByte encrypt d b).2 data

/-- The last terms of a message: the pending bytes, and the block with the lengths. -/
def termsOfClose (encrypt : Bytes n → Bytes n) (m : Message n) : List (Term n) :=
  let closed := m.foldPending encrypt
  m.termsOfPending ++ [⟨closed.z, closed.lengthBlock⟩]

end Message

def Direction.plaintext (d : Direction) (input output : ByteString) : ByteString :=
  match d with
  | encrypting => input
  | decrypting => output

def Direction.ciphertext (d : Direction) (input output : ByteString) : ByteString :=
  match d with
  | encrypting => output
  | decrypting => input

/-- What a message has taken, and what was encrypted and summed up for it. -/
@[ext] structure Trace (n : Nat) where
  aad : ByteString := []
  plaintext : ByteString := []
  ciphertext : ByteString := []
  /-- The counters that were encrypted to keystream. -/
  counters : List (Bytes n) := []
  terms : List (Term n) := []

namespace Trace

variable {n : Nat}

/-- The bytes of the encrypted counters. -/
def keystream (encrypt : Bytes n → Bytes n) (t : Trace n) : Nat → UInt8 :=
  streamOf fun i => encrypt (t.counters.getD i (.zero n))

def append (s t : Trace n) : Trace n where
  aad := s.aad ++ t.aad
  plaintext := s.plaintext ++ t.plaintext
  ciphertext := s.ciphertext ++ t.ciphertext
  counters := s.counters ++ t.counters
  terms := s.terms ++ t.terms

instance : Append (Trace n) := ⟨append⟩

theorem append_def (s t : Trace n) :
    s ++ t = ⟨s.aad ++ t.aad, s.plaintext ++ t.plaintext, s.ciphertext ++ t.ciphertext,
      s.counters ++ t.counters, s.terms ++ t.terms⟩ := rfl

theorem append_empty (t : Trace n) : t ++ ({} : Trace n) = t := by
  simp [append_def]

theorem empty_append (t : Trace n) : ({} : Trace n) ++ t = t := rfl

theorem append_assoc (s t u : Trace n) : s ++ t ++ u = s ++ (t ++ u) := by
  simp [append_def]

end Trace

variable {a : Algorithm}

def traceOfAad (m : Mgm a) (aad : ByteString) : Trace a.blockLen :=
  match m.takesAad aad.length with
  | .error _ => {}
  | .ok c => { aad := aad, terms := m.message.termsOfAbsorb c.encrypt aad }

/-- A piece with something in it closes the associated data, and goes on behind it. -/
def traceOfTurn (m : Mgm a) (d : Direction) (data : ByteString) : Trace a.blockLen :=
  match m.takesData data.length with
  | .error _ => {}
  | .ok c =>
    if data = [] then {}
    else
      let opened := (m.opened c).counted data.length
      let out := (opened.turnBytes c.encrypt d data).1
      { plaintext := d.plaintext data out
        ciphertext := d.ciphertext data out
        counters := opened.countersOfTurn c.encrypt d data
        terms := (if m.phase = .data then [] else m.message.termsOfPending) ++
          opened.termsOfTurn c.encrypt d data }

def traceOfEnd (m : Mgm a) : Trace a.blockLen :=
  match m.openFor Phase.takesData with
  | .error _ => {}
  | .ok c => { terms := m.message.termsOfClose c.encrypt }

/-- What a call takes, and what is encrypted and summed up for it. -/
def traceOf (m : Mgm a) : Call → Trace a.blockLen
  | .updateAad aad => m.traceOfAad aad
  | .encrypt data => m.traceOfTurn .encrypting data
  | .decrypt data => m.traceOfTurn .decrypting data
  | .finish => m.traceOfEnd
  | .verify expected => if (Bounds.tagLen a expected.length).isOk then m.traceOfEnd else {}
  | .setKey _ | .setIv _ | .setTagLen _ => {}

def trace (m : Mgm a) : List Call → Trace a.blockLen
  | [] => {}
  | call :: calls => m.traceOf call ++ trace (step m call).after.1 calls

theorem trace_append (m : Mgm a) (calls more : List Call) :
    m.trace (calls ++ more) = m.trace calls ++ (runCalls step m calls).trace more := by
  induction calls generalizing m with
  | nil => rfl
  | cons first calls ih =>
    rw [List.cons_append, trace, ih, trace, Trace.append_assoc, runCalls_cons]

theorem trace_concat (m : Mgm a) (calls : List Call) (call : Call) :
    m.trace (calls ++ [call]) = m.trace calls ++ (runCalls step m calls).traceOf call := by
  rw [trace_append, trace, trace, Trace.append_empty]

/-! ## 2. Messages, in closed form -/

namespace Message

variable {n : Nat}

/-- The blocks with the values of the counter from `z` on. -/
def numbered (z : Bytes n) (blocks : List (Bytes n)) : List (Term n) :=
  blocks.mapIdx fun i block => ⟨z.plusLeft i, block⟩

theorem numbered_concat (z : Bytes n) (blocks : List (Bytes n)) (block : Bytes n) :
    numbered z (blocks ++ [block]) = numbered z blocks ++ [⟨z.plusLeft blocks.length, block⟩] := by
  simp [numbered, List.mapIdx_append]

theorem weightedSum_eq (encrypt : Bytes n → Bytes n) (z : Bytes n) (blocks : List (Bytes n)) :
    weightedSum encrypt z blocks = Term.sum encrypt (numbered z blocks) := by
  induction blocks using List.reverseRecOn with
  | nil => rfl
  | append_singleton blocks block ih =>
    rw [weightedSum_concat, ih, numbered_concat, Term.sum, Term.sum, List.map_append,
      List.foldl_append]
    rfl

variable [BlockSize n]

/-- The terms of a message that stands after the blocks `closed` and the bytes `stretch`. -/
def termsAt (z : Bytes n) (closed : List (Bytes n)) (stretch : ByteString) : List (Term n) :=
  numbered z (closed ++ (stretch.blocks n).1)

/-- The counters of `count` bytes. -/
def countersAt (y : Bytes n) (count : Nat) : List (Bytes n) :=
  (List.range (madeFor n count)).map y.plusRight

variable {encrypt : Bytes n → Bytes n} {y z : Bytes n} {closed : List (Bytes n)}
  {stretch : ByteString} {aadLen dataLen made : Nat}

theorem termsAt_concat {closed' : List (Bytes n)} {stretch' : ByteString} {block : Bytes n}
    (hblocks : closed' ++ (stretch'.blocks n).1 = closed ++ (stretch.blocks n).1 ++ [block]) :
    termsAt z closed stretch ++
        [⟨(standing encrypt y z closed stretch aadLen dataLen made).z, block⟩] =
      termsAt z closed' stretch' := by
  rw [termsAt, termsAt, hblocks, numbered_concat]
  rfl

theorem termsOfFill_standing (data : ByteString) :
    termsAt z closed stretch ++
        (standing encrypt y z closed stretch aadLen dataLen made).termsOfFill data =
      termsAt z closed (stretch ++ data.take (n - (stretch.blocks n).2.length)) := by
  have hblocks := ByteString.blocks_fill (n := n) BlockSize.pos stretch data
  simp only at hblocks
  rw [termsOfFill]
  by_cases hshort :
      ((stretch.blocks n).2 ++ data.take (n - (stretch.blocks n).2.length)).length < n
  · rw [if_pos hshort] at hblocks
    refine (congrArg (termsAt z closed stretch ++ ·) (if_pos hshort)).trans ?_
    rw [List.append_nil, termsAt, termsAt, hblocks]
  · rw [if_neg hshort] at hblocks
    refine (congrArg (termsAt z closed stretch ++ ·) (if_neg hshort)).trans (termsAt_concat ?_)
    rw [hblocks, List.append_assoc]
    rfl

/-- Bytes that are taken block by block add the blocks that they complete. -/
theorem termsOfAbsorb_standing (stretch data : ByteString) :
    termsAt z closed stretch ++
        (standing encrypt y z closed stretch aadLen dataLen made).termsOfAbsorb encrypt data =
      termsAt z closed (stretch ++ data) := by
  by_cases hdata : data = []
  · rw [hdata, termsOfAbsorb, dif_pos rfl, List.append_nil, List.append_nil]
  · have hn : 0 < n := BlockSize.pos
    have hpend := ByteString.length_blocks_snd_lt hn stretch
    have hlen : 0 < data.length := List.length_pos_iff.mpr hdata
    rw [termsOfAbsorb, dif_neg hdata, ← List.append_assoc, termsOfFill_standing, fill_standing,
      termsOfAbsorb_standing, List.append_assoc]
    change termsAt z closed (stretch ++ (data.take (n - (stretch.blocks n).2.length) ++
      data.drop (n - (stretch.blocks n).2.length))) = _
    rw [List.take_append_drop]
termination_by data.length
decreasing_by
  simp only [List.length_drop, room, standing]
  omega

theorem termsOfPending_standing :
    termsAt z closed stretch ++
        (standing encrypt y z closed stretch aadLen dataLen made).termsOfPending =
      numbered z (closed ++ stretch.paddedBlocks n) := by
  have hpad := ByteString.paddedBlocks_eq (n := n) stretch
  change termsAt z closed stretch ++
    (if (stretch.blocks n).2.isEmpty then [] else [⟨_, .padded n (stretch.blocks n).2⟩]) = _
  cases hempty : (stretch.blocks n).2.isEmpty with
  | true =>
    rw [hempty, if_pos rfl, List.append_nil] at hpad
    rw [if_pos rfl, List.append_nil, hpad]
    rfl
  | false =>
    rw [hempty, if_neg Bool.false_ne_true] at hpad
    rw [if_neg Bool.false_ne_true, hpad, ← List.append_assoc, numbered_concat]
    rfl

/-- A message that ends adds its last blocks, and the one with the lengths behind them. -/
theorem termsOfClose_standing :
    termsAt z closed stretch ++
        (standing encrypt y z closed stretch aadLen dataLen made).termsOfClose encrypt =
      numbered z (closed ++ stretch.paddedBlocks n ++ [lengths n aadLen dataLen]) := by
  have hnil : ByteString.blocks n [] = ([], []) := ByteString.blocks_nil BlockSize.pos
  rw [termsOfClose, ← List.append_assoc, termsOfPending_standing, foldPending_standing,
    numbered_concat]
  simp only [standing, hnil, List.append_nil]
  rfl

theorem countersOfByte_standing :
    countersAt y stretch.length ++
        (standing encrypt y z closed stretch aadLen dataLen
          (madeFor n stretch.length)).countersOfByte =
      countersAt y (stretch.length + 1) := by
  have hrest := ByteString.isEmpty_blocks_snd (n := n) BlockSize.pos stretch
  rw [countersAt, countersAt, madeFor_succ]
  by_cases h0 : stretch.length % n = 0
  · have hempty : (standing encrypt y z closed stretch aadLen dataLen
        (madeFor n stretch.length)).pending.isEmpty := hrest.mpr h0
    rw [countersOfByte, if_pos hempty, madeFor_of_mod_eq_zero h0, List.range_succ, List.map_append]
    rfl
  · have hsome : ¬(standing encrypt y z closed stretch aadLen dataLen
        (madeFor n stretch.length)).pending.isEmpty := fun hempty => h0 (hrest.mp hempty)
    rw [countersOfByte, if_neg hsome, madeFor_of_mod_ne_zero h0, List.append_nil]

theorem termsOfByte_standing (d : Direction) (b : UInt8) :
    termsAt z closed stretch ++
        (standing encrypt y z closed stretch aadLen dataLen
          (madeFor n stretch.length)).termsOfByte encrypt d b =
      termsAt z closed
        (stretch ++ [d.cipherByte b (b ^^^ streamFrom encrypt y stretch.length)]) := by
  simp only [termsOfByte, refill_standing, keystreamByte_standing, termsOfFill_standing,
    take_singleton]

/-- Bytes of the message spend one counter for each block of theirs, and add the blocks of their
ciphertext. -/
theorem turn_standing (d : Direction) (data : ByteString) :
    countersAt y stretch.length ++
        (standing encrypt y z closed stretch aadLen dataLen
          (madeFor n stretch.length)).countersOfTurn encrypt d data =
        countersAt y (stretch.length + data.length) ∧
      termsAt z closed stretch ++
        (standing encrypt y z closed stretch aadLen dataLen
          (madeFor n stretch.length)).termsOfTurn encrypt d data =
        termsAt z closed
          (stretch ++ cipherSide d (streamFrom encrypt y) stretch.length data) := by
  induction data generalizing stretch with
  | nil =>
    rw [cipherSide_nil, List.append_nil, countersOfTurn, termsOfTurn, List.append_nil,
      List.append_nil]
    exact ⟨rfl, rfl⟩
  | cons b data ih =>
    have hrest := @ih (stretch ++ [d.cipherByte b (b ^^^ streamFrom encrypt y stretch.length)])
    rw [List.length_append, List.length_singleton, List.append_assoc, List.singleton_append,
      Nat.add_assoc, Nat.add_comm 1] at hrest
    rw [countersOfTurn, termsOfTurn, ← List.append_assoc, ← List.append_assoc,
      countersOfByte_standing, termsOfByte_standing, turnByte_standing, cipherSide_cons]
    exact hrest

end Message

/-! ## 3. Sessions, in closed form -/

/-- The blocks that a message under way has added up. -/
def summed (n : Nat) (aad ciphertext : ByteString) : List (Bytes n) :=
  if ciphertext = [] then (aad.blocks n).1 else aad.paddedBlocks n ++ (ciphertext.blocks n).1

/-- The terms that a message under way has added up. -/
def termsSoFar (c : Cipher a) (nonce : Block a) (aad ciphertext : ByteString) :
    List (Term a.blockLen) :=
  Message.numbered (firstZ c nonce) (summed a.blockLen aad ciphertext)

/-- The terms of a session, before its tag (`tagged` is false) and after it. -/
inductive Course (c : Cipher a) (nonce : Block a) (t : Trace a.blockLen) (m : Mgm a) :
    Bool → Prop
  | underway (stands : Stands c nonce m.tagLen t.aad t.ciphertext m)
    (terms : t.terms = termsSoFar c nonce t.aad t.ciphertext) : Course c nonce t m false
  | closed (phase : m.phase = .finalized)
    (terms : t.terms =
      Message.numbered (firstZ c nonce) (Message.authenticated a.blockLen t.aad t.ciphertext)) :
    Course c nonce t m true

/-- What has been written down of a session since its nonce, and where the context stands. -/
structure Recorded (c : Cipher a) (nonce : Block a) (tagged : Bool) (t : Trace a.blockLen)
    (m : Mgm a) : Prop where
  bounded : t.aad.length + t.ciphertext.length ≤ maxLen a
  masked : t.ciphertext = t.plaintext.mask (keystream c nonce) 0
  counters : t.counters = Message.countersAt (firstY c nonce) t.ciphertext.length
  course : Course c nonce t m tagged

variable {m : Mgm a} {c : Cipher a} {nonce : Block a} {t : Trace a.blockLen} {tagged : Bool}
  {tagLen : Nat} {aad ciphertext : ByteString}

theorem Recorded.begin (hcipher : m.cipher = some c) (nonce : Block a) :
    Recorded c nonce false {} (m.begin c nonce) := by
  have hnil : ByteString.blocks a.blockLen [] = ([], []) := ByteString.blocks_nil a.blockLen_pos
  refine ⟨Nat.zero_le _, rfl, ?_, .underway (.begin hcipher nonce) ?_⟩
  · change [] = Message.countersAt (firstY c nonce) 0
    rw [Message.countersAt, Message.madeFor_zero]
    rfl
  · change [] = termsSoFar c nonce [] []
    rw [termsSoFar, summed, if_pos rfl, hnil]
    rfl

/-- A message that has taken `aad` and `ciphertext` goes on to the context `m'`, and `u` is written
down of that. -/
structure Continues (c : Cipher a) (nonce : Block a) (aad ciphertext : ByteString)
    (u : Trace a.blockLen) (m' : Mgm a) : Prop where
  bounded : (aad ++ u.aad).length + (ciphertext ++ u.ciphertext).length ≤ maxLen a
  masked : u.ciphertext = u.plaintext.mask (keystream c nonce) ciphertext.length
  counters : Message.countersAt (firstY c nonce) ciphertext.length ++ u.counters =
    Message.countersAt (firstY c nonce) (ciphertext ++ u.ciphertext).length
  stands : Stands c nonce m'.tagLen (aad ++ u.aad) (ciphertext ++ u.ciphertext) m'
  terms : termsSoFar c nonce aad ciphertext ++ u.terms =
    termsSoFar c nonce (aad ++ u.aad) (ciphertext ++ u.ciphertext)

/-- A call that takes nothing leaves the message where it was. -/
theorem Continues.nothing (h : Stands c nonce m.tagLen aad ciphertext m)
    (hbounded : aad.length + ciphertext.length ≤ maxLen a) :
    Continues c nonce aad ciphertext {} m := by
  refine ⟨?_, rfl, ?_, ?_, ?_⟩
  all_goals simp only [List.append_nil]
  · exact hbounded
  · exact h

theorem Recorded.length_plaintext (h : Recorded c nonce tagged t m) :
    t.plaintext.length = t.ciphertext.length := by
  rw [h.masked, ByteString.length_mask]

theorem Recorded.continues {m' : Mgm a} {u : Trace a.blockLen} (h : Recorded c nonce tagged t m)
    (hterms : t.terms = termsSoFar c nonce t.aad t.ciphertext)
    (hu : Continues c nonce t.aad t.ciphertext u m') : Recorded c nonce false (t ++ u) m' := by
  refine ⟨hu.bounded, ?_, ?_, .underway hu.stands ?_⟩
  · change t.ciphertext ++ u.ciphertext = (t.plaintext ++ u.plaintext).mask (keystream c nonce) 0
    rw [ByteString.mask_append, ← h.masked, hu.masked, Nat.zero_add,
      h.length_plaintext]
  · change t.counters ++ u.counters = _
    rw [h.counters, hu.counters]
    rfl
  · change t.terms ++ u.terms = _
    rw [hterms, hu.terms]
    rfl

/-! ## 4. Calls that go on with a message -/

theorem Stands.total (h : Stands c nonce tagLen aad ciphertext m) :
    m.message.total = aad.length + ciphertext.length := by
  rw [Message.total, h.lengths.1, h.lengths.2]

theorem Stands.termsOfAbsorb (h : Stands c nonce tagLen aad [] m) (piece : ByteString) :
    termsSoFar c nonce aad [] ++ m.message.termsOfAbsorb c.encrypt piece =
      termsSoFar c nonce (aad ++ piece) [] := by
  rw [h.message, messageAfter, termsSoFar, termsSoFar, summed, summed, if_pos rfl, if_pos rfl,
    if_pos rfl]
  change Message.termsAt (firstZ c nonce) [] aad ++ _ =
    Message.termsAt (firstZ c nonce) [] (aad ++ piece)
  exact Message.termsOfAbsorb_standing aad piece

theorem Stands.continues_updateAad (h : Stands c nonce m.tagLen aad ciphertext m)
    (hbounded : aad.length + ciphertext.length ≤ maxLen a) (piece : ByteString) :
    Continues c nonce aad ciphertext (m.traceOfAad piece) (m.updateAad piece).after := by
  cases htakes : m.takesAad piece.length with
  | error e =>
    rw [traceOfAad, updateAad_eq, htakes]
    exact .nothing h hbounded
  | ok c' =>
    obtain ⟨⟨hcipher, hphase⟩, hlen⟩ := taken_eq_ok_iff.mp htakes
    obtain rfl := Option.some.inj (hcipher.symm.trans h.cipher)
    obtain rfl : ciphertext = [] := h.phase_takesAad.mp hphase
    rw [h.total] at hlen
    obtain ⟨m', hupdate, hstands⟩ := h.updateAad piece hlen
    have htagLen : m'.tagLen = m.tagLen := hstands.tagLen
    rw [traceOfAad, htakes, hupdate]
    refine ⟨?_, rfl, List.append_nil _, htagLen ▸ hstands, h.termsOfAbsorb piece⟩
    rw [List.length_append]
    exact hlen

/-- The first byte of the message closes the associated data with its last block. -/
theorem Stands.termsOfOpening (h : Stands c nonce tagLen aad ciphertext m) :
    termsSoFar c nonce aad ciphertext ++
        (if m.phase = .data then [] else m.message.termsOfPending) =
      Message.termsAt (firstZ c nonce) (aad.paddedBlocks a.blockLen) ciphertext := by
  have hphase := h.phase
  by_cases hnil : ciphertext = []
  · subst hnil
    have hblocks : ByteString.blocks a.blockLen [] = ([], []) :=
      ByteString.blocks_nil a.blockLen_pos
    rw [if_neg h.phase_ne_data, h.message, messageAfter, if_pos rfl, termsSoFar, summed,
      if_pos rfl, Message.termsAt, hblocks, List.append_nil]
    change Message.termsAt (firstZ c nonce) [] aad ++ _ = Message.numbered _ ([] ++ _)
    exact Message.termsOfPending_standing
  · rw [if_neg hnil] at hphase
    rw [if_pos hphase, List.append_nil, termsSoFar, summed, if_neg hnil]
    rfl

theorem Direction.ciphertext_mask (d : Direction) (ks : Nat → UInt8) (start : Nat)
    (data : ByteString) :
    d.ciphertext data (data.mask ks start) = Message.cipherSide d ks start data := by
  cases d with
  | encrypting => rfl
  | decrypting => rfl

/-- Whichever way a piece goes, its ciphertext is its masked plaintext. -/
theorem Direction.mask_plaintext (d : Direction) (ks : Nat → UInt8) (start : Nat)
    (data : ByteString) :
    (d.plaintext data (data.mask ks start)).mask ks start =
      Message.cipherSide d ks start data := by
  cases d with
  | encrypting => rfl
  | decrypting => exact ByteString.mask_mask start data

theorem turn_dataMessage (c : Cipher a) (nonce : Block a) (aad ciphertext : ByteString)
    (dataLen : Nat) (d : Direction) (piece : ByteString) :
    Message.countersAt (firstY c nonce) ciphertext.length ++
        (dataMessage c nonce aad ciphertext dataLen).countersOfTurn c.encrypt d piece =
        Message.countersAt (firstY c nonce) (ciphertext.length + piece.length) ∧
      Message.termsAt (firstZ c nonce) (aad.paddedBlocks a.blockLen) ciphertext ++
        (dataMessage c nonce aad ciphertext dataLen).termsOfTurn c.encrypt d piece =
        Message.termsAt (firstZ c nonce) (aad.paddedBlocks a.blockLen)
          (ciphertext ++ Message.cipherSide d (keystream c nonce) ciphertext.length piece) :=
  Message.turn_standing d piece

theorem Stands.continues_turn (h : Stands c nonce m.tagLen aad ciphertext m)
    (hbounded : aad.length + ciphertext.length ≤ maxLen a) (d : Direction) (piece : ByteString) :
    Continues c nonce aad ciphertext (m.traceOfTurn d piece) (m.turn d piece).after.1 := by
  cases htakes : m.takesData piece.length with
  | error e =>
    rw [traceOfTurn, turn_eq, htakes]
    exact .nothing h hbounded
  | ok c' =>
    obtain ⟨⟨hcipher, hphase⟩, hlen⟩ := taken_eq_ok_iff.mp htakes
    obtain rfl := Option.some.inj (hcipher.symm.trans h.cipher)
    rw [h.total] at hlen
    obtain ⟨m', hturn, hstands⟩ := h.turn d piece hlen
    have htagLen : m'.tagLen = m.tagLen := hstands.tagLen
    have hopened : (m.opened c').counted piece.length =
        dataMessage c' nonce aad ciphertext (ciphertext.length + piece.length) := by
      rw [Mgm.opened, h.opened]
      rfl
    by_cases hnil : piece = []
    · -- nothing moves, and the associated data stays open
      subst hnil
      rw [traceOfTurn, htakes, turn_nil htakes]
      exact .nothing h hbounded
    · have hside := Message.length_cipherSide d (keystream c' nonce) ciphertext.length piece
      have hne : ciphertext ++ Message.cipherSide d (keystream c' nonce) ciphertext.length piece ≠
          [] := List.append_ne_nil_of_right_ne_nil _ (Message.cipherSide_ne_nil hnil _ _ _)
      obtain ⟨hcounters, hterms⟩ :=
        turn_dataMessage c' nonce aad ciphertext (ciphertext.length + piece.length) d piece
      rw [traceOfTurn, htakes, hturn]
      simp only [if_neg hnil, hopened, turnBytes_dataMessage, Direction.ciphertext_mask]
      refine ⟨?_, (Direction.mask_plaintext d _ _ piece).symm, ?_, ?_, ?_⟩
      all_goals simp only [List.append_nil]
      · rw [List.length_append, hside, ← Nat.add_assoc]
        exact hlen
      · rw [List.length_append, hside]
        exact hcounters
      · exact htagLen ▸ hstands
      · rw [← List.append_assoc, h.termsOfOpening, hterms, termsSoFar, summed, if_neg hne]
        rfl

/-! ## 5. Calls that end a message, and any calls -/

/-- A message that ends has added up all blocks that its tag authenticates. -/
theorem Stands.termsOfClose (h : Stands c nonce tagLen aad ciphertext m) :
    termsSoFar c nonce aad ciphertext ++ m.message.termsOfClose c.encrypt =
      Message.numbered (firstZ c nonce) (Message.authenticated a.blockLen aad ciphertext) := by
  rw [h.message, messageAfter, termsSoFar, summed]
  by_cases hnil : ciphertext = []
  · rw [if_pos hnil, if_pos hnil, Message.authenticated, hnil,
      ByteString.paddedBlocks_nil a.blockLen_pos, List.append_nil]
    change Message.termsAt (firstZ c nonce) [] aad ++ _ = Message.numbered _ ([] ++ _ ++ _)
    exact Message.termsOfClose_standing
  · rw [if_neg hnil, if_neg hnil]
    exact Message.termsOfClose_standing

theorem Stands.traceOfEnd (h : Stands c nonce tagLen aad ciphertext m) :
    m.traceOfEnd = { terms := m.message.termsOfClose c.encrypt } := by
  rw [Mgm.traceOfEnd, h.openFor h.phase_takesData]

theorem Recorded.ends (h : Recorded c nonce tagged t m) {m' : Mgm a}
    (stands : Stands c nonce tagLen t.aad t.ciphertext m)
    (hterms : t.terms = termsSoFar c nonce t.aad t.ciphertext)
    (hphase : m'.phase = .finalized) : Recorded c nonce true (t ++ m.traceOfEnd) m' := by
  rw [stands.traceOfEnd]
  refine ⟨?_, ?_, ?_, .closed hphase ?_⟩
  all_goals simp only [Trace.append_def, List.append_nil]
  · exact h.bounded
  · exact h.masked
  · exact h.counters
  · rw [hterms, stands.termsOfClose]

/-- Nothing is written down of a call that comes out of order. -/
theorem traceOf_of_phase (hphase : m.phase.takesData = false) (call : Call) :
    m.traceOf call = {} := by
  have haad : ∀ piece, m.traceOfAad piece = {} := by
    intro piece
    rw [traceOfAad, Mgm.takesAad, openFor_of_phase (takesAad_of_takesData hphase)]
    rfl
  have hturn : ∀ d piece, m.traceOfTurn d piece = {} := by
    intro d piece
    rw [traceOfTurn, Mgm.takesData, openFor_of_phase hphase]
    rfl
  have hend : m.traceOfEnd = {} := by
    rw [traceOfEnd, openFor_of_phase hphase]
  cases call with
  | updateAad piece => exact haad piece
  | encrypt data => exact hturn .encrypting data
  | decrypt data => exact hturn .decrypting data
  | finish => exact hend
  | verify expected => rw [traceOf, hend, ite_self]
  | setKey _ | setIv _ | setTagLen _ => rfl

/-- A context that waits has nothing more to tell. -/
theorem trace_of_phase (hphase : m.phase.takesData = false) (calls : List Call)
    (hcalls : ∀ call ∈ calls, call.restarts a = false) : m.trace calls = {} := by
  induction calls generalizing m with
  | nil => rfl
  | cons call calls ih =>
    obtain ⟨len, hafter⟩ := step_waiting hphase (hcalls call (List.mem_cons_self ..))
    rw [trace, traceOf_of_phase hphase, hafter, Trace.empty_append]
    exact ih hphase fun later hlater => hcalls later (List.mem_cons_of_mem _ hlater)

/-- Nothing is written down of a call that needs no message. -/
theorem traceOf_aside {call : Call} (hcall : call.processes a = false) : m.traceOf call = {} := by
  cases call with
  | verify expected =>
    have hlen : ¬(1 ≤ expected.length ∧ expected.length ≤ a.blockLen) := of_decide_eq_false hcall
    rw [traceOf, Bounds.tagLen, if_neg hlen]
    rfl
  | setKey _ | setIv _ | setTagLen _ => rfl
  | updateAad _ | encrypt _ | decrypt _ | finish =>
    exact absurd hcall (by simp [Call.processes, Call.streams, Call.closes])

theorem traceOf_closes {call : Call} (hcloses : call.closes a = true) :
    m.traceOf call = m.traceOfEnd := by
  cases call with
  | finish => rfl
  | verify expected =>
    rw [traceOf, tagLen_of_closes hcloses]
    rfl
  | setKey _ | setIv _ | updateAad _ | encrypt _ | decrypt _ | setTagLen _ =>
    exact absurd hcloses (by simp [Call.closes])

/-- **Every call keeps the record of its session right**, whether it is accepted or refused. -/
theorem Recorded.step_call (h : Recorded c nonce tagged t m) {call : Call}
    (hrestarts : call.restarts a = false) :
    Recorded c nonce (call.closes a || tagged) (t ++ m.traceOf call) (step m call).after.1 := by
  have hcourse := h.course
  cases hcourse with
  | closed phase terms =>
    have hwaits : m.phase.takesData = false := by rw [phase]; rfl
    obtain ⟨len, hafter⟩ := step_waiting hwaits hrestarts
    rw [traceOf_of_phase hwaits, Trace.append_empty, hafter, Bool.or_true]
    exact ⟨h.bounded, h.masked, h.counters, .closed phase terms⟩
  | underway stands terms =>
    rw [Bool.or_false]
    cases hcloses : call.closes a with
    | true =>
      rw [traceOf_closes hcloses, stands.after_closes hcloses]
      exact h.ends stands terms rfl
    | false =>
      cases hcall : call.processes a with
      | false =>
        obtain ⟨len, hafter⟩ := step_aside m hrestarts hcall
        rw [traceOf_aside hcall, hafter, Trace.append_empty]
        exact ⟨h.bounded, h.masked, h.counters,
          .underway ⟨stands.cipher, rfl, stands.phase, stands.message⟩ terms⟩
      | true =>
        have hstreams := Call.streams_of_processes hcall hcloses
        cases call with
        | updateAad piece => exact h.continues terms (stands.continues_updateAad h.bounded piece)
        | encrypt data =>
          exact h.continues terms (stands.continues_turn h.bounded .encrypting data)
        | decrypt data =>
          exact h.continues terms (stands.continues_turn h.bounded .decrypting data)
        | setKey _ | setIv _ | finish | verify _ | setTagLen _ =>
          exact absurd hstreams (by simp [Call.streams])

/-- **A session since its nonce is recorded in full**: its bytes with their keystream, the counters
that made the keystream, and the terms of its sum, whatever has been called. -/
theorem recorded_calls (hcipher : m.cipher = some c) (nonce : Block a) (since : List Call)
    (hsince : ∀ call ∈ since, call.restarts a = false) :
    Recorded c nonce (ended a since) (m.trace (.setIv nonce.toList :: since))
      (runCalls step m (.setIv nonce.toList :: since)) := by
  have hstart : step m (.setIv nonce.toList) = .done (m.begin c nonce, []) none :=
    step_setIv hcipher nonce
  rw [trace, runCalls_cons, hstart]
  -- a call is recorded on top of the calls before it, so the list is taken from its end
  change Recorded c nonce _ ((m.begin c nonce).trace since) (runCalls step (m.begin c nonce) since)
  induction since using List.reverseRecOn with
  | nil => exact .begin hcipher nonce
  | append_singleton since call ih =>
    have hbefore := ih fun earlier hmem => hsince earlier (List.mem_append_left _ hmem)
    have hlast := hsince call (List.mem_append_right _ (List.mem_singleton_self call))
    have hended : ended a (since ++ [call]) = (call.closes a || ended a since) := by
      rw [ended, List.any_append, Bool.or_comm, ended, List.any_cons, List.any_nil, Bool.or_false]
    rw [trace_concat, runCalls_concat, hended]
    exact hbefore.step_call hlast

/-! ## 6. What is written down is what was used -/

/-- The counters of a message are those of its keystream, as far as the message goes. -/
theorem Recorded.keystream_eq (h : Recorded c nonce tagged t m) {j : Nat}
    (hj : j < t.ciphertext.length) : t.keystream c.encrypt j = keystream c nonce j := by
  have hmade := Message.div_lt_madeFor (n := a.blockLen) hj
  have hcounter : t.counters.getD (j / a.blockLen) (.zero a.blockLen) =
      (firstY c nonce).plusRight (j / a.blockLen) := by
    rw [h.counters, Message.countersAt, List.getD_eq_getElem?_getD, List.getElem?_map,
      List.getElem?_range hmade]
    rfl
  rw [Trace.keystream, streamOf, hcounter]
  rfl

/-- The bytes of a trace alone. -/
def Trace.bytes {n : Nat} (t : Trace n) : Trace n := { t with counters := [], terms := [] }

theorem Trace.bytes_append {n : Nat} (s t : Trace n) : (s ++ t).bytes = s.bytes ++ t.bytes := rfl

/-- The bytes that go into a call and come out of it, by what they are. -/
def Call.sides {n : Nat} (call : Call) (out : ByteString) : Trace n :=
  match call with
  | .updateAad aad => { aad := aad }
  | .encrypt data => { plaintext := data, ciphertext := out }
  | .decrypt data => { plaintext := out, ciphertext := data }
  | _ => {}

/-- The bytes of a call that its caller sees. One that is refused has none. -/
def Call.bytes (call : Call) (o : StepOutcome (Mgm a)) : Trace a.blockLen :=
  match o.answer with
  | .error _ => {}
  | .ok _ => call.sides o.after.2

theorem bytes_traceOfTurn (m : Mgm a) (d : Direction) (data : ByteString) :
    (m.traceOfTurn d data).bytes =
      match (m.turn d data).answer with
      | .error _ => {}
      | .ok _ =>
        { plaintext := d.plaintext data (m.turn d data).after.2
          ciphertext := d.ciphertext data (m.turn d data).after.2 } := by
  cases htakes : m.takesData data.length with
  | error e =>
    rw [traceOfTurn, answer_turn, htakes]
    rfl
  | ok c =>
    rw [traceOfTurn, turn_taken htakes, htakes]
    cases data with
    | nil => cases d <;> rfl
    | cons b data => rfl

theorem bytes_traceOfEnd (m : Mgm a) : m.traceOfEnd.bytes = {} := by
  rw [traceOfEnd]
  split
  · rfl
  · rfl

theorem Call.bytes_of_sides {call : Call} {o : StepOutcome (Mgm a)}
    (h : ∀ out, call.sides out = ({} : Trace a.blockLen)) : call.bytes o = {} := by
  rw [Call.bytes]
  split
  · rfl
  · exact h _

/-- What is written down of a call are the bytes that its caller sees. -/
theorem bytes_traceOf (m : Mgm a) (call : Call) :
    (m.traceOf call).bytes = call.bytes (step m call) := by
  cases call with
  | updateAad piece =>
    rw [traceOf, traceOfAad, step, Call.bytes, StepOutcome.ofUnit, answer_updateAad]
    cases m.takesAad piece.length with
    | error e => rfl
    | ok c => rfl
  | encrypt data =>
    rw [traceOf, bytes_traceOfTurn, step, Call.bytes, StepOutcome.ofBuffer, Mgm.encrypt]
    cases (m.turn .encrypting data).answer with
    | error e => rfl
    | ok _ => rfl
  | decrypt data =>
    rw [traceOf, bytes_traceOfTurn, step, Call.bytes, StepOutcome.ofBuffer, Mgm.decrypt]
    cases (m.turn .decrypting data).answer with
    | error e => rfl
    | ok _ => rfl
  | finish =>
    rw [Call.bytes_of_sides fun _ => rfl]
    exact bytes_traceOfEnd m
  | verify expected =>
    rw [Call.bytes_of_sides fun _ => rfl, traceOf]
    split
    · exact bytes_traceOfEnd m
    · rfl
  | setKey _ | setIv _ | setTagLen _ =>
    rw [Call.bytes_of_sides fun _ => rfl]
    rfl

/-- The bytes that the callers of a run see, one call after the other. -/
theorem bytes_trace (m : Mgm a) (calls : List Call) :
    (m.trace calls).bytes =
      (List.zipWith Call.bytes calls (transcript step m calls)).foldr (· ++ ·) {} := by
  induction calls generalizing m with
  | nil => rfl
  | cons call calls ih => rw [trace, Trace.bytes_append, bytes_traceOf, ih]; rfl

/-- What a trace of some calls is worth. -/
structure Faithful (c : Cipher a) (m : Mgm a) (calls : List Call) : Prop where
  /-- The bytes are those that the calls were given and gave back. -/
  bytes : (m.trace calls).bytes =
    (List.zipWith Call.bytes calls (transcript step m calls)).foldr (· ++ ·) {}
  /-- The ciphertext is the plaintext, masked with the encrypted counters. -/
  masked : (m.trace calls).ciphertext =
    (m.trace calls).plaintext.mask ((m.trace calls).keystream c.encrypt) 0
  /-- As long as no tag has been asked for, the next one is the encrypted sum of the terms and the
  last ones. -/
  next : ended a calls = false →
    (runCalls step m calls).finalize.answer = .ok (c.encrypt (Term.sum c.encrypt
      ((m.trace calls).terms ++ (runCalls step m calls).traceOfEnd.terms)))
  /-- The tag that was asked for is the encrypted sum of the terms. -/
  tag (before : List Call) (call : Call) (later : List Call)
    (hcalls : calls = before ++ call :: later) (hopen : ended a before = false)
    (hcloses : call.closes a = true) :
    (runCalls step m before).finalize.answer =
      .ok (c.encrypt (Term.sum c.encrypt (m.trace calls).terms))

/-- The tag of a session that goes on. -/
theorem Recorded.next (h : Recorded c nonce false t m) :
    m.finalize.answer = .ok (c.encrypt (Term.sum c.encrypt (t.terms ++ m.traceOfEnd.terms))) := by
  cases h.course with
  | underway stands terms =>
    rw [stands.finalize, fullTag, Message.weightedSum_eq, stands.traceOfEnd, terms,
      stands.termsOfClose]

/-- Asking for a tag adds the last terms, and nothing comes behind them. -/
theorem Recorded.terms_closed (h : Recorded c nonce false t m) {call : Call}
    (hcloses : call.closes a = true) {later : List Call}
    (hlater : ∀ next ∈ later, next.restarts a = false) :
    (t ++ m.trace (call :: later)).terms = t.terms ++ m.traceOfEnd.terms := by
  cases h.course with
  | underway stands terms =>
    have hwaits : (step m call).after.1.phase.takesData = false := by
      rw [stands.after_closes hcloses]
      rfl
    rw [trace, traceOf_closes hcloses, trace_of_phase hwaits later hlater, Trace.append_empty]
    rfl

/-- **The record of a session is what its callers see, and what its ciphertext and its tag are made
of.** -/
theorem trace_faithful (hcipher : m.cipher = some c) (nonce : Block a) (since : List Call)
    (hsince : ∀ call ∈ since, call.restarts a = false) :
    Faithful c m (.setIv nonce.toList :: since) := by
  have h : Recorded c nonce (ended a since) _ _ := recorded_calls hcipher nonce since hsince
  refine ⟨bytes_trace m _, ?_, fun hopen => ?_, ?_⟩
  · refine h.masked.trans (ByteString.mask_congr fun j hj => ?_)
    rw [h.length_plaintext] at hj
    rw [Nat.zero_add, h.keystream_eq hj]
  · have hended : ended a since = false := hopen
    rw [hended] at h
    exact h.next
  · intro before call later hcalls hopen hcloses
    -- the nonce asks for no tag, so the call that does stands behind it
    cases before with
    | nil =>
      obtain rfl : Call.setIv nonce.toList = call := (List.cons.inj hcalls).1
      exact absurd hcloses Bool.false_ne_true
    | cons first before =>
      obtain ⟨rfl, rfl⟩ := List.cons.inj hcalls
      have hended : ended a before = false := hopen
      have hbefore := recorded_calls hcipher nonce before fun next hnext =>
        hsince next (List.mem_append_left _ hnext)
      rw [hended] at hbefore
      have hterms := hbefore.terms_closed hcloses fun next hnext =>
        hsince next (List.mem_append_right _ (List.mem_cons_of_mem _ hnext))
      rw [← trace_append] at hterms
      rw [hbefore.next, ← hterms]
      rfl

end Mgm

end GostSuite

import GostSuite.Proofs.Sealing.History

/-!
# Contexts that can be reached

A context has eleven numbers and buffers in it, and every call may end early. What makes the code
that reads them safe is a relation among them that no call breaks, whatever its arguments and
whether it is refused or not. `Consistent` is that relation, and `consistent_calls` says that it
holds after any calls.

It is not proved field by field. The calls so far leave a context either waiting or with a message
that runs since the last nonce, and a message that runs is a function of its bytes (`Progress`);
that much is kept by a call. Every field of `Consistent` is then read off the bytes, the counters
among them: they stand where the number of blocks puts them.
-/

set_option autoImplicit false

namespace GostSuite

namespace Mgm

variable {a : Algorithm}

/-! ## 1. Where a context comes from -/

/-- The ways to make a context. -/
inductive Origin (a : Algorithm) where
  | bare
  | withKey (key : Key)
  | withCipher (c : Cipher a)

def Origin.context : Origin a → Mgm a
  | .bare => unkeyed a
  | .withKey key => ofKey a key
  | .withCipher c => ofCipher c

/-- The contexts that a caller can have before the first call. -/
inductive Made : Mgm a → Prop
  | origin (o : Origin a) : Made o.context
  | ofLimits {key : Key} {limits : Limits} {m : Mgm a} (made : ofLimits a key limits = .ok m) :
    Made m

/-- The calls have led to a context that waits, or to a message that runs since the last nonce. -/
inductive Progress (calls : List Call) (m : Mgm a) : Prop where
  | waiting (idle : Idle m)
  | underway (c : Cipher a) (nonce : Block a) (aad ciphertext : ByteString)
      (before since : List Call) (hcalls : calls = before ++ .setIv nonce.toList :: since)
      (hsince : ∀ call ∈ since, call.restarts a = false)
      (runs : Runs c nonce aad ciphertext m)

theorem Progress.origin (origin : Origin a) : Progress [] origin.context := by
  cases origin with
  | bare => exact .waiting (idle_unkeyed a)
  | withKey key => exact .waiting (idle_ofCipher (.ofKey a key))
  | withCipher c => exact .waiting (idle_ofCipher c)

variable {m : Mgm a} {calls : List Call}

/-- A nonce of the right length starts a message if there is a key. -/
theorem Progress.step_nonce (h : Progress calls m) (nonce : Block a) :
    Progress (calls ++ [.setIv nonce.toList]) (step m (.setIv nonce.toList)).after.1 := by
  cases hcipher : m.cipher with
  | some c =>
    rw [step_setIv hcipher]
    exact .underway c nonce [] [] calls [] rfl (fun _ hmem => absurd hmem List.not_mem_nil)
      (.begin hcipher nonce)
  | none =>
    rw [step_setIv_unkeyed hcipher]
    cases h with
    | waiting idle => exact .waiting idle
    | underway c _ aad ciphertext before since hcalls hsince runs =>
      exact absurd (runs.stands.cipher.symm.trans hcipher) (by simp)

theorem Progress.step_call (h : Progress calls m) (call : Call) :
    Progress (calls ++ [call]) (step m call).after.1 := by
  cases hrestarts : call.restarts a with
  | true =>
    cases call with
    | setKey key => exact .waiting (idle_setKey m key)
    | setIv nonce =>
      obtain ⟨block, rfl⟩ := nonce_of_restarts hrestarts
      exact h.step_nonce block
    | updateAad _ | encrypt _ | decrypt _ | finish | verify _ | setTagLen _ =>
      exact absurd hrestarts (by simp [Call.restarts])
  | false =>
    cases h with
    | waiting idle => exact .waiting (idle.stays hrestarts)
    | underway c nonce aad ciphertext before since hcalls hsince runs =>
      cases hcloses : call.closes a with
      | true => exact .waiting (runs.ends hcloses).1
      | false =>
        obtain ⟨aad', ciphertext', hruns, -⟩ := runs.goes_on hrestarts hcloses
        refine .underway c nonce aad' ciphertext' before (since ++ [call]) ?_ ?_ hruns
        · rw [hcalls, List.append_assoc, List.cons_append]
        · intro next hnext
          rcases List.mem_append.mp hnext with hearlier | hlast
          · exact hsince next hearlier
          · rwa [List.mem_singleton.mp hlast]

theorem progress_calls (origin : Origin a) (calls : List Call) :
    Progress calls (runCalls step origin.context calls) := by
  induction calls using List.reverseRecOn with
  | nil => exact .origin origin
  | append_singleton calls call ih =>
    rw [runCalls_concat]
    exact ih.step_call call

/-! ## 2. What a call moves -/

/-- **A call moves the message**, or it sets the key or the length of the tags. -/
theorem step_cases (m : Mgm a) (call : Call) :
    (∃ key, call = .setKey key) ∨ (∃ len, call = .setTagLen len) ∨
      ∃ phase message, (step m call).after.1 = { m with phase := phase, message := message } := by
  have hturn : ∀ d data, ∃ phase message,
      (m.turn d data).after.1 = { m with phase := phase, message := message } := by
    intro d data
    rw [turn_eq]
    split
    · exact ⟨_, _, rfl⟩
    · split <;> exact ⟨_, _, rfl⟩
  have hfinal : ∃ phase message,
      m.finalize.after = { m with phase := phase, message := message } := by
    rw [finalize_eq]
    split <;> exact ⟨_, _, rfl⟩
  cases call with
  | setKey key => exact .inl ⟨key, rfl⟩
  | setTagLen len => exact .inr (.inl ⟨len, rfl⟩)
  | setIv nonce =>
    rw [step, Mgm.setIv]
    split <;> exact .inr (.inr ⟨_, _, rfl⟩)
  | updateAad piece =>
    rw [step, updateAad_eq]
    split <;> exact .inr (.inr ⟨_, _, rfl⟩)
  | encrypt data => exact .inr (.inr (hturn .encrypting data))
  | decrypt data => exact .inr (.inr (hturn .decrypting data))
  | finish => exact .inr (.inr hfinal)
  | verify expected =>
    rw [step, Mgm.verify]
    split
    · exact .inr (.inr ⟨_, _, rfl⟩)
    · exact .inr (.inr hfinal)

/-- Only one call sets the length of the tags, and it checks it. -/
theorem tagLen_step (m : Mgm a) (call : Call)
    (h : Bounds.tagLen a m.tagLen = .ok ()) :
    Bounds.tagLen a (step m call).after.1.tagLen = .ok () := by
  obtain ⟨key, rfl⟩ | ⟨len, rfl⟩ | ⟨phase, message, hafter⟩ := m.step_cases call
  · exact h
  · exact Outcome.ofCheck_keeps (P := fun m' : Mgm a => Bounds.tagLen a m'.tagLen = .ok ()) h id
  · rw [hafter]
    exact h

theorem tagLen_calls (origin : Origin a) (calls : List Call) :
    Bounds.tagLen a (runCalls step origin.context calls).tagLen = .ok () := by
  refine runCalls_keeps (P := fun m : Mgm a => Bounds.tagLen a m.tagLen = .ok ())
    tagLen_step ?_ calls
  cases origin <;> exact Bounds.tagLen_blockLen a

theorem tagLen_of_made (h : Made m) : Bounds.tagLen a m.tagLen = .ok () := by
  cases h with
  | origin o => exact tagLen_calls o []
  | ofLimits made =>
    rw [Mgm.ofLimits, bind_eq_ok_iff] at made
    obtain ⟨⟨⟩, -, made⟩ := made
    obtain ⟨⟨⟩, hlen, made⟩ := bind_eq_ok_iff.mp made
    obtain rfl := Except.ok.inj made
    exact hlen

/-- Tags have one byte to a block of them, whatever has been called. -/
theorem tagLen_of_reachable (h : Reachable Made step m) : 1 ≤ m.tagLen ∧ m.tagLen ≤ a.blockLen :=
  tagLen_eq_ok_iff.mp (h.invariant (fun _ => tagLen_of_made) tagLen_step)

/-! ## 3. Where the counters are -/

variable {c : Cipher a} {nonce : Block a} {tagLen : Nat} {aad ciphertext : ByteString}

/-- The counters and the pending bytes of a message under way. The lengths of what it has taken
decide all of them. -/
theorem Stands.counted (h : Stands c nonce tagLen aad ciphertext m) :
    m.message.y = (firstY c nonce).plusRight (Message.madeFor a.blockLen ciphertext.length) ∧
      m.message.z = (firstZ c nonce).plusLeft
        (if ciphertext = [] then aad.length / a.blockLen
          else Message.madeFor a.blockLen aad.length + ciphertext.length / a.blockLen) ∧
      m.message.pending.length =
        (if ciphertext = [] then aad.length else ciphertext.length) % a.blockLen := by
  rw [h.message, messageAfter]
  by_cases hnil : ciphertext = []
  · subst hnil
    rw [if_pos rfl, if_pos rfl, if_pos rfl, List.length_nil, Message.madeFor_zero]
    refine ⟨rfl, ?_, ByteString.length_blocks_snd a.blockLen_pos aad⟩
    change (firstZ c nonce).plusLeft ([] ++ (aad.blocks a.blockLen).1).length = _
    rw [List.nil_append, ByteString.length_blocks_fst a.blockLen_pos]
  · rw [if_neg hnil, if_neg hnil, if_neg hnil]
    refine ⟨rfl, ?_, ByteString.length_blocks_snd a.blockLen_pos ciphertext⟩
    change (firstZ c nonce).plusLeft
      (aad.paddedBlocks a.blockLen ++ (ciphertext.blocks a.blockLen).1).length = _
    rw [List.length_append, Message.length_paddedBlocks,
      ByteString.length_blocks_fst a.blockLen_pos]

/-- Blocks that the message of a context has summed up, by its phase and its lengths. -/
def folded (m : Mgm a) : Nat :=
  match m.phase with
  | .aad => m.message.aadLen / a.blockLen
  | .data => Message.madeFor a.blockLen m.message.aadLen + m.message.dataLen / a.blockLen
  | _ => 0

theorem Runs.folded_eq (h : Runs c nonce aad ciphertext m) :
    m.folded = if ciphertext = [] then aad.length / a.blockLen
      else Message.madeFor a.blockLen aad.length + ciphertext.length / a.blockLen := by
  have hphase := h.stands.phase
  have huntouched := h.untouched
  rw [folded, h.stands.lengths.1, h.stands.lengths.2]
  by_cases hnil : ciphertext = []
  · rw [if_pos hnil] at hphase ⊢
    cases hp : m.phase with
    | ivSet => rw [huntouched hp, List.length_nil, Nat.zero_div]
    | aad => rfl
    | keySet | data | finalized =>
      rw [hp] at hphase
      exact absurd hphase (by decide)
  · rw [if_neg hnil] at hphase ⊢
    rw [hphase]

/-! ## 4. What holds of every context -/

/-- What holds of a context after `calls`. The first fields are about its own numbers, `counters`
ties them to the nonce of its message, and the last ones are what the code relies on. -/
structure Consistent (calls : List Call) (m : Mgm a) : Prop where
  pending_lt : m.message.pending.length < a.blockLen
  tagLen : 1 ≤ m.tagLen ∧ m.tagLen ≤ a.blockLen
  total_le : m.message.aadLen + m.message.dataLen ≤ maxLen a
  unkeyed : m.cipher = none → m.phase = .keySet
  waiting : m.phase = .keySet ∨ m.phase = .finalized → m.message = .blank a.blockLen
  ivSet : m.phase = .ivSet →
    m.message.aadLen = 0 ∧ m.message.dataLen = 0 ∧ m.message.pending = []
  aad : m.phase = .aad → m.message.dataLen = 0 ∧
    m.message.pending.length = m.message.aadLen % a.blockLen
  data : m.phase = .data → 0 < m.message.dataLen ∧
    m.message.pending.length = m.message.dataLen % a.blockLen
  /-- A message under way began with the last nonce, and its counters have moved on from there by
  the blocks that have been summed up and the blocks of keystream that have been made. -/
  counters : m.phase = .ivSet ∨ m.phase = .aad ∨ m.phase = .data →
    ∃ (c : Cipher a) (nonce : Block a) (before since : List Call), m.cipher = some c ∧
      calls = before ++ .setIv nonce.toList :: since ∧
      (∀ call ∈ since, call.restarts a = false) ∧
      m.message.z = (firstZ c nonce).plusLeft m.folded ∧
      m.message.y = (firstY c nonce).plusRight (Message.madeFor a.blockLen m.message.dataLen)
  /-- Both lengths fit their half of a block, and a machine word, when they are counted in bits. -/
  bits : 8 * (m.message.aadLen + m.message.dataLen) < 256 ^ (a.blockLen / 2) ∧
    8 * (m.message.aadLen + m.message.dataLen) < 2 ^ 64
  /-- The next byte of the message finds its keystream byte inside the block. -/
  keystream : m.message.keystream.toList[m.message.pending.length]? = some m.message.keystreamByte
  /-- A tag has all the bytes that it was asked to have. -/
  tag : ∀ tag, m.finish.answer = .ok tag → tag.bytes.length = m.tagLen
  /-- No more bytes are compared than a block has. -/
  verify : ∀ expected : ByteString, a.blockLen < expected.length →
    m.verify expected = .refused m (.invalidTagLength expected.length a.blockLen)
  /-- A missing key is found out before anything is touched, and never later. -/
  keyNotSet : ∀ call, (step m call).answer = .error .keyNotSet →
    m.cipher = none ∧ (step m call).after = (m, call.buffer)

/-- A check of the order and of the bound does not miss the key of a context that has one. -/
theorem takes_ne_keyNotSet (hcipher : m.cipher = some c) (len : Nat) :
    m.takesAad len ≠ .error .keyNotSet ∧ m.takesData len ≠ .error .keyNotSet := by
  refine takes_ne_error (fun wanted => ?_) (by simp) len
  rw [openFor_keyed hcipher]
  exact guard_ne_error (by simp)

/-- A piece of the message is answered as the check of its length says. -/
theorem answer_turn (m : Mgm a) (d : Direction) (data : ByteString) :
    (m.turn d data).answer = (m.takesData data.length).map fun _ => () := by
  rw [turn_eq]
  cases m.takesData data.length with
  | error e => rfl
  | ok c =>
    simp only
    split <;> rfl

theorem answer_updateAad (m : Mgm a) (piece : ByteString) :
    (m.updateAad piece).answer = (m.takesAad piece.length).map fun _ => () := by
  rw [updateAad_eq]
  cases m.takesAad piece.length with
  | error e => rfl
  | ok c => rfl

theorem answer_finalize (m : Mgm a) :
    m.finalize.answer =
      (m.openFor Phase.takesData).map fun c => m.message.close c.encrypt := by
  rw [finalize_eq]
  cases m.openFor Phase.takesData with
  | error e => rfl
  | ok c => rfl

/-- A call on a context with a key is never told that there is none. -/
theorem step_ne_keyNotSet (hcipher : m.cipher = some c) (call : Call) :
    (step m call).answer ≠ .error .keyNotSet := by
  have hturn : ∀ d data, (StepOutcome.ofBuffer (m.turn d data)).answer ≠ .error .keyNotSet := by
    intro d data
    rw [StepOutcome.ofBuffer, answer_turn]
    exact map_ne_error _ (map_ne_error _ (takes_ne_keyNotSet hcipher data.length).2)
  cases call with
  | setKey key => simp [step, StepOutcome.ofUnit, Outcome.done, Except.map]
  | setIv nonce =>
    rw [step, Mgm.setIv, Mgm.keyed, hcipher, Bytes.read]
    cases Bytes.ofList? a.blockLen nonce <;>
      simp [StepOutcome.ofUnit, Outcome.done, Outcome.refused, Except.map]
  | updateAad piece =>
    rw [step, StepOutcome.ofUnit, answer_updateAad]
    exact map_ne_error _ (map_ne_error _ (takes_ne_keyNotSet hcipher piece.length).1)
  | encrypt data => exact hturn .encrypting data
  | decrypt data => exact hturn .decrypting data
  | finish =>
    rw [step, StepOutcome.ofTag, Mgm.finish, Outcome.judge, answer_finalize, openFor_keyed hcipher]
    split <;> simp [Except.map, Except.bind]
  | verify expected =>
    cases hcloses : (Call.verify expected).closes a with
    | false =>
      rw [step_verify_wrong_length m hcloses]
      simp [Outcome.refused]
    | true =>
      rw [step, StepOutcome.ofUnit, Mgm.verify, tagLen_of_closes hcloses]
      simp only [Outcome.judge, answer_finalize, openFor_keyed hcipher]
      -- out of order, right, or wrong: three answers, and none of them is about the key
      split
      · simp only [Except.map, Except.bind]
        cases (Tag.ofBlock (m.message.close c.encrypt) expected.length).verify expected <;> simp
      · simp [Except.map, Except.bind]
  | setTagLen len =>
    by_cases hlen : 1 ≤ len ∧ len ≤ a.blockLen
    · rw [step_setTagLen m hlen]
      simp [Outcome.done]
    · rw [step_setTagLen_refused m hlen]
      simp [Outcome.refused]

/-- Without a key, a call that is told so has changed nothing. -/
theorem after_of_keyNotSet {call : Call} (h : (step m call).answer = .error .keyNotSet) :
    m.cipher = none ∧ (step m call).after = (m, call.buffer) := by
  cases hcipher : m.cipher with
  | some c => exact absurd h (step_ne_keyNotSet hcipher call)
  | none =>
    refine ⟨rfl, ?_⟩
    cases hcall : call.processes a with
    | true =>
      rw [step_unkeyed hcall hcipher]
      rfl
    | false =>
      cases call with
      | setIv nonce =>
        rw [step_setIv_unkeyed hcipher]
        rfl
      | setKey key => exact absurd h (by simp [step, StepOutcome.ofUnit, Outcome.done, Except.map])
      | verify expected =>
        rw [step_verify_wrong_length m hcall]
        rfl
      | setTagLen len =>
        by_cases hlen : 1 ≤ len ∧ len ≤ a.blockLen
        · rw [step_setTagLen m hlen] at h
          exact absurd h (by simp [Outcome.done])
        · rw [step_setTagLen_refused m hlen]
          rfl
      | updateAad _ | encrypt _ | decrypt _ | finish =>
        exact absurd hcall (by simp [Call.processes, Call.streams, Call.closes])

theorem keystream_index (message : Message a.blockLen) :
    message.keystream.toList[message.pending.length]? = some message.keystreamByte := by
  have hlt : message.pending.length < message.keystream.toList.length := by
    rw [Bytes.length_toList]
    exact message.length_pending
  rw [Message.keystreamByte, List.getD_eq_getElem?_getD, List.getElem?_eq_getElem hlt]
  rfl

theorem length_of_finish (hlen : m.tagLen ≤ a.blockLen) {tag : Tag}
    (h : m.finish.answer = .ok tag) : tag.bytes.length = m.tagLen := by
  rw [Mgm.finish, Outcome.judge] at h
  cases hfull : m.finalize.answer with
  | error e =>
    rw [hfull] at h
    exact absurd h (by simp [Except.bind])
  | ok full =>
    rw [hfull] at h
    obtain rfl : Tag.ofBlock full m.tagLen = tag := by simpa [Except.bind] using h
    rw [Tag.ofBlock, List.length_take, full.length_toList, Nat.min_eq_left hlen]

theorem verify_too_long (m : Mgm a) {expected : ByteString} (h : a.blockLen < expected.length) :
    m.verify expected = .refused m (.invalidTagLength expected.length a.blockLen) := by
  rw [Mgm.verify, Bounds.tagLen, if_neg fun hsize => Nat.not_le_of_lt h hsize.2]

/-- A message under way makes its context consistent. -/
theorem Runs.consistent (h : Runs c nonce aad ciphertext m)
    (htagLen : 1 ≤ m.tagLen ∧ m.tagLen ≤ a.blockLen) {before since : List Call}
    (hcalls : calls = before ++ .setIv nonce.toList :: since)
    (hsince : ∀ call ∈ since, call.restarts a = false) : Consistent calls m := by
  obtain ⟨hy, hz, hpending⟩ := h.stands.counted
  obtain ⟨haadLen, hdataLen⟩ := h.stands.lengths
  have hopen := h.stands.phase_takesAad
  have htotal : m.message.aadLen + m.message.dataLen ≤ maxLen a := by
    rw [haadLen, hdataLen]
    exact h.bounded
  refine ⟨m.message.length_pending, htagLen, htotal, ?_, ?_, ?_, ?_, ?_, ?_,
    bits_lt_of_le_maxLen htotal, keystream_index m.message,
    fun tag htag => length_of_finish htagLen.2 htag, fun expected => verify_too_long m,
    fun call => after_of_keyNotSet⟩
  · intro hnone
    exact absurd (h.stands.cipher.symm.trans hnone) (by simp)
  · intro hwaiting
    have hdata := h.stands.phase_takesData
    rcases hwaiting with hp | hp
    · rw [hp] at hdata
      exact absurd hdata (by decide)
    · rw [hp] at hdata
      exact absurd hdata (by decide)
  · intro hp
    obtain rfl : aad = [] := h.untouched hp
    obtain rfl : ciphertext = [] := hopen.mp (by rw [hp]; rfl)
    rw [if_pos rfl, List.length_nil, Nat.zero_mod] at hpending
    exact ⟨haadLen, hdataLen, List.length_eq_zero_iff.mp hpending⟩
  · intro hp
    obtain rfl : ciphertext = [] := hopen.mp (by rw [hp]; rfl)
    rw [if_pos rfl, ← haadLen] at hpending
    exact ⟨hdataLen, hpending⟩
  · intro hp
    have hsome : ciphertext ≠ [] := by
      intro hnil
      have htakes := hopen.mpr hnil
      rw [hp] at htakes
      exact absurd htakes (by decide)
    rw [if_neg hsome, ← hdataLen] at hpending
    exact ⟨by rw [hdataLen]; exact List.length_pos_iff.mpr hsome, hpending⟩
  · intro _
    exact ⟨c, nonce, before, since, h.stands.cipher, hcalls, hsince, by rw [hz, h.folded_eq],
      by rw [hy, hdataLen]⟩

/-- A context that waits is consistent, whatever was called. -/
theorem Idle.consistent (h : Idle m) (htagLen : 1 ≤ m.tagLen ∧ m.tagLen ≤ a.blockLen)
    (calls : List Call) : Consistent calls m := by
  have hphase : ∀ p, p.takesData = true → m.phase ≠ p := by
    intro p hp heq
    exact absurd (hp.symm.trans (heq ▸ h.phase)) (by decide)
  have htotal : m.message.aadLen + m.message.dataLen ≤ maxLen a := by
    rw [h.message]
    exact Nat.zero_le _
  refine ⟨m.message.length_pending, htagLen, htotal, h.unkeyed, fun _ => h.message, ?_, ?_, ?_, ?_,
    bits_lt_of_le_maxLen htotal, keystream_index m.message,
    fun tag htag => length_of_finish htagLen.2 htag, fun expected => verify_too_long m,
    fun call => after_of_keyNotSet⟩
  · intro hp
    exact absurd hp (hphase .ivSet rfl)
  · intro hp
    exact absurd hp (hphase .aad rfl)
  · intro hp
    exact absurd hp (hphase .data rfl)
  · rintro (hp | hp | hp)
    · exact absurd hp (hphase .ivSet rfl)
    · exact absurd hp (hphase .aad rfl)
    · exact absurd hp (hphase .data rfl)

/-- **No call breaks a context**: whatever a context was made from, and whatever calls have been
made on it, in any order, with any arguments, accepted or refused, it is consistent. -/
theorem consistent_calls (origin : Origin a) (calls : List Call) :
    Consistent calls (runCalls step origin.context calls) := by
  have htagLen := tagLen_eq_ok_iff.mp (tagLen_calls origin calls)
  cases progress_calls origin calls with
  | waiting idle => exact idle.consistent htagLen calls
  | underway c nonce aad ciphertext before since hcalls hsince runs =>
    exact runs.consistent htagLen hcalls hsince

end Mgm

end GostSuite

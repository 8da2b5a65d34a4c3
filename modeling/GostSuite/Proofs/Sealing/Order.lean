import GostSuite.Proofs.Sealing.History

/-!
# The order of calls

Which calls a session accepts depends on the calls before and on nothing they carry, as long as the
bound of the mode is kept. Two facts about the calls since the nonce decide:

* whether one of them asked for a tag (`ended`), and then nothing more is accepted;
* whether one of them brought bytes of the message (`fed`), and then no associated data is.

A history is written with the latest call first, so that what it says of a call is about the tail
behind it. `taken` is the number of bytes that such a history has brought in, counted by the two
facts alone; the bound is about this number, so it can be kept without making a call.

`Follows` ties a context to its history. Every call keeps it (`Follows.step`), and with it the
answers are read off the history.
-/

set_option autoImplicit false

namespace GostSuite

namespace Mgm

variable {a : Algorithm}

/-! ## 1. What a history says -/

/-- One of the calls asked for a tag. -/
def ended (a : Algorithm) (past : List Call) : Bool := past.any (Call.closes a)

/-- One of the calls brought bytes of the message. -/
def fed (past : List Call) : Bool := past.any Call.feeds

/-- The calls before leave room for this one in the order of a session. -/
def allows (a : Algorithm) (past : List Call) : Call → Bool
  | .updateAad _ => !ended a past && !fed past
  | _ => !ended a past

/-- The bytes that a history has brought in, the latest call first. -/
def taken (a : Algorithm) : List Call → Nat
  | [] => 0
  | call :: past => taken a past + if allows a past call then call.size else 0

theorem taken_le_taken_cons (call : Call) (past : List Call) :
    taken a past ≤ taken a (call :: past) := Nat.le_add_right ..

theorem ended_cons (call : Call) (past : List Call) :
    ended a (call :: past) = (call.closes a || ended a past) := List.any_cons

theorem fed_cons (call : Call) (past : List Call) : fed (call :: past) = (call.feeds || fed past) :=
  List.any_cons

theorem allows_of_ended {past : List Call} (h : ended a past = true) (call : Call) :
    allows a past call = false := by
  cases call <;> simp [allows, h]

/-! ## 2. A context and its history -/

/-- How a context stands after a nonce and the calls `past`. -/
inductive Follows (c : Cipher a) (nonce : Block a) (past : List Call) (m : Mgm a) : Prop where
  /-- No tag was asked for, and the message has taken what came in. -/
  | underway (aad ciphertext : ByteString) (hopen : ended a past = false)
      (runs : Runs c nonce aad ciphertext m)
      (length : aad.length + ciphertext.length = taken a past)
      (fed : ciphertext = [] ↔ fed past = false)
  /-- The message ended with the first tag that was asked for. -/
  | closed (hended : ended a past = true) (cipher : m.cipher = some c)
      (phase : m.phase = .finalized)

variable {m : Mgm a} {c : Cipher a} {nonce : Block a} {past : List Call}

theorem Follows.begin (hcipher : m.cipher = some c) (nonce : Block a) :
    Follows c nonce [] (m.begin c nonce) :=
  .underway [] [] rfl (.begin hcipher nonce) rfl (iff_of_true rfl rfl)

theorem Follows.cipher (h : Follows c nonce past m) : m.cipher = some c := by
  cases h with
  | underway aad ciphertext hopen runs length fed => exact runs.stands.cipher
  | closed hended cipher phase => exact cipher

/-- **The phase of a context and its history say the same about every call.** -/
theorem Follows.wants (h : Follows c nonce past m) (call : Call) :
    call.wants m.phase = allows a past call := by
  cases h with
  | underway aad ciphertext hopen runs length hfed =>
    have hdata := runs.stands.phase_takesData
    have haad := runs.stands.phase_takesAad.trans hfed
    cases call with
    | updateAad _ =>
      rw [Call.wants, allows, hopen, Bool.eq_iff_iff, haad]
      simp
    | _ =>
      change m.phase.takesData = !ended a past
      rw [hdata, hopen]
      rfl
  | closed hended cipher phase =>
    rw [allows_of_ended hended, phase, wants_of_takesData rfl]

/-- **Every call keeps a context with its history**, as long as the bound is kept. -/
theorem Follows.step_call (h : Follows c nonce past m) {call : Call}
    (hrestarts : call.restarts a = false) (hroom : taken a (call :: past) ≤ maxLen a) :
    Follows c nonce (call :: past) (step m call).after.1 := by
  have hwants := h.wants call
  cases h with
  | closed hended cipher phase =>
    obtain ⟨len, hafter⟩ := step_waiting (m := m) (by rw [phase]; rfl) hrestarts
    rw [hafter]
    exact .closed (by rw [ended_cons, hended, Bool.or_true]) cipher phase
  | underway aad ciphertext hopen runs length hfed =>
    cases hcloses : call.closes a with
    | true =>
      obtain ⟨-, hcipher, hphase⟩ := runs.ends hcloses
      exact .closed (by rw [ended_cons, hcloses, Bool.true_or]) hcipher hphase
    | false =>
      have htaken : taken a (call :: past) =
          aad.length + ciphertext.length + call.gain m.phase := by
        rw [taken, Call.gain, hwants, length]
      rw [htaken] at hroom
      obtain ⟨aad', ciphertext', hruns, hgrown⟩ := runs.goes_on hrestarts hcloses
      obtain ⟨hlength, hnil⟩ := hgrown hroom
      refine .underway aad' ciphertext' (by rw [ended_cons, hcloses, hopen]; rfl) hruns
        (hlength.trans htaken.symm) ?_
      rw [hnil, fed_cons, Bool.or_eq_false_iff, hfed, and_comm]

/-- A context after a nonce and any calls that start or drop no message. -/
theorem follows_calls (hcipher : m.cipher = some c) (nonce : Block a) (since : List Call)
    (hsince : ∀ call ∈ since, call.restarts a = false) (hroom : taken a since.reverse ≤ maxLen a) :
    Follows c nonce since.reverse (runCalls step m (.setIv nonce.toList :: since)) := by
  rw [runCalls_cons, step_setIv hcipher]
  -- the last call comes first in the history, so the induction takes the list from its end
  induction since using List.reverseRecOn with
  | nil => exact .begin hcipher nonce
  | append_singleton since call ih =>
    rw [List.reverse_append, List.reverse_singleton, List.singleton_append] at hroom ⊢
    have hbefore := ih (fun earlier hmem => hsince earlier (List.mem_append_left _ hmem))
      ((taken_le_taken_cons call since.reverse).trans hroom)
    rw [runCalls_concat]
    exact hbefore.step_call (hsince call (List.mem_append_right _ (List.mem_singleton_self call)))
      hroom

/-! ## 3. Answers -/

theorem Follows.step_denied (h : Follows c nonce past m) {call : Call}
    (hcall : call.processes a = true) (hdenied : allows a past call = false) :
    step m call = .refused (m, call.buffer) .badOrder := by
  have hrefusal : m.refusal = .badOrder := by rw [refusal, h.cipher]; rfl
  rw [step_out_of_phase hcall ((h.wants call).trans hdenied), hrefusal]

/-- Bytes are taken if the order allows them. -/
theorem Follows.answer_streams (h : Follows c nonce past m) {call : Call}
    (hcall : call.streams = true) (hroom : taken a (call :: past) ≤ maxLen a) :
    (step m call).answer = if allows a past call then .ok none else .error .badOrder := by
  cases hallowed : allows a past call with
  | false =>
    rw [h.step_denied (Call.processes_of_streams hcall) hallowed]
    rfl
  | true =>
    have hwants := (h.wants call).trans hallowed
    rw [taken, hallowed, if_pos rfl] at hroom
    cases h with
    | closed hended cipher phase =>
      exact absurd (hallowed.symm.trans (allows_of_ended hended call)) (by decide)
    | underway aad ciphertext hopen runs length hfed =>
      rw [← length] at hroom
      exact (runs.takes hcall hwants hroom).1

/-- Associated data is taken until the message begins. -/
theorem Follows.answer_updateAad (h : Follows c nonce past m) {piece : ByteString}
    (hroom : taken a (.updateAad piece :: past) ≤ maxLen a) :
    (step m (.updateAad piece)).answer =
      if ended a past || fed past then .error .badOrder else .ok none := by
  rw [h.answer_streams rfl hroom, allows, ← Bool.not_or]
  cases ended a past || fed past with
  | true => rfl
  | false => rfl

/-- The message is taken until a tag is asked for. -/
theorem Follows.answer_turning (h : Follows c nonce past m) (d : Direction) {piece : ByteString}
    (hroom : taken a (.turning d piece :: past) ≤ maxLen a) :
    (step m (.turning d piece)).answer =
      if ended a past then .error .badOrder else .ok none := by
  have hstreams : (Call.turning d piece).streams = true := by cases d <;> rfl
  have hallows : allows a past (.turning d piece) = !ended a past := by cases d <;> rfl
  rw [h.answer_streams hstreams hroom, hallows]
  cases ended a past with
  | true => rfl
  | false => rfl

theorem Follows.stands (h : Follows c nonce past m) (hopen : ended a past = false) :
    ∃ aad ciphertext, Stands c nonce m.tagLen aad ciphertext m := by
  cases h with
  | underway aad ciphertext _ runs length fed => exact ⟨aad, ciphertext, runs.stands⟩
  | closed hended cipher phase => exact absurd (hopen.symm.trans hended) (by decide)

/-- A tag that is asked for in order is made. -/
theorem Follows.answer_finish (h : Follows c nonce past m) (hopen : ended a past = false) :
    ∃ tag, (step m .finish).answer = .ok (some tag) := by
  obtain ⟨aad, ciphertext, hstands⟩ := h.stands hopen
  refine ⟨.ofBlock (fullTag c nonce aad ciphertext) m.tagLen, ?_⟩
  rw [step, StepOutcome.ofTag, hstands.finish]
  rfl

theorem Follows.answer_verify (h : Follows c nonce past m) (hopen : ended a past = false)
    {expected : ByteString} (hcloses : (Call.verify expected).closes a = true) :
    (step m (.verify expected)).answer = .ok none ∨
      (step m (.verify expected)).answer = .error .authenticationFailed := by
  obtain ⟨aad, ciphertext, hstands⟩ := h.stands hopen
  have hanswer := hstands.verify (tagLen_of_closes hcloses)
  rw [step, StepOutcome.ofUnit, hanswer]
  split
  · exact .inl rfl
  · exact .inr rfl

/-! ## 4. One tag for a nonce -/

/-- The call has a tag made. -/
def makesTag (m : Mgm a) (call : Call) : Bool := call.closes a && m.finalize.answer.isOk

/-- How many of the calls have a tag made. -/
def tagsMade (m : Mgm a) : List Call → Nat
  | [] => 0
  | call :: calls => (if m.makesTag call then 1 else 0) + tagsMade (step m call).after.1 calls

theorem makesTag_of_phase (hphase : m.phase.takesData = false) (call : Call) :
    m.makesTag call = false := by
  have hrefused : m.finalize = .refused m m.refusal := by
    rw [finalize_eq, openFor_of_phase hphase]
  rw [makesTag, hrefused]
  exact Bool.and_false _

theorem phase_of_makesTag {call : Call} (h : m.makesTag call = true) :
    (step m call).after.1.phase = .finalized := by
  obtain ⟨hcloses, hok⟩ := Bool.and_eq_true_iff.mp h
  have hfinal : m.finalize.after.phase = .finalized := by
    rw [finalize_eq] at hok ⊢
    split at hok
    · exact absurd hok (by simp [Outcome.refused, Except.isOk, Except.toBool])
    · rfl
  cases call with
  | finish => exact hfinal
  | verify expected =>
    rw [step, Mgm.verify, tagLen_of_closes hcloses]
    exact hfinal
  | setKey _ | setIv _ | updateAad _ | encrypt _ | decrypt _ | setTagLen _ =>
    exact absurd hcloses (by simp [Call.closes])

theorem tagsMade_of_phase (hphase : m.phase.takesData = false) (calls : List Call)
    (hcalls : ∀ call ∈ calls, call.restarts a = false) : m.tagsMade calls = 0 := by
  induction calls generalizing m with
  | nil => rfl
  | cons call calls ih =>
    obtain ⟨len, hafter⟩ := step_waiting hphase (hcalls call (List.mem_cons_self ..))
    have hwaits : (step m call).after.1.phase.takesData = false := by rwa [hafter]
    rw [tagsMade, makesTag_of_phase hphase,
      ih hwaits fun next hnext => hcalls next (List.mem_cons_of_mem _ hnext)]
    rfl

theorem tagsMade_le_one (m : Mgm a) (calls : List Call)
    (hcalls : ∀ call ∈ calls, call.restarts a = false) : m.tagsMade calls ≤ 1 := by
  induction calls generalizing m with
  | nil => exact Nat.zero_le _
  | cons call calls ih =>
    have hrest : ∀ next ∈ calls, next.restarts a = false := fun next hnext =>
      hcalls next (List.mem_cons_of_mem _ hnext)
    rw [tagsMade]
    cases hmakes : m.makesTag call with
    | true =>
      have hwaits : (step m call).after.1.phase.takesData = false := by
        rw [phase_of_makesTag hmakes]
        rfl
      rw [tagsMade_of_phase hwaits calls hrest]
      exact Nat.le_refl 1
    | false =>
      rw [if_neg Bool.false_ne_true, Nat.zero_add]
      exact ih (step m call).after.1 hrest

/-! ## 5. Without a nonce -/

/-- None of the calls is a nonce that is accepted. -/
def NoNonceAccepted (m : Mgm a) (calls : List Call) : Prop :=
  ∀ before nonce rest, calls = before ++ .setIv nonce :: rest →
    (step (runCalls step m before) (.setIv nonce)).answer ≠ .ok none

theorem after_setIv_refused {nonce : ByteString}
    (h : (step m (.setIv nonce)).answer ≠ .ok none) : (step m (.setIv nonce)).after.1 = m := by
  cases hcipher : m.cipher with
  | none => rw [step_setIv_unkeyed hcipher]; rfl
  | some c =>
    cases hrestarts : (Call.setIv nonce).restarts a with
    | false =>
      obtain ⟨e, hstep⟩ := step_setIv_wrong_length m hrestarts
      rw [hstep]
      rfl
    | true =>
      obtain ⟨block, rfl⟩ := nonce_of_restarts hrestarts
      exact absurd (by rw [step_setIv hcipher]; rfl) h

/-- A context that waits for a nonce waits until one is accepted. -/
theorem waiting_run (hphase : m.phase.takesData = false) (calls : List Call)
    (hnonce : m.NoNonceAccepted calls) : (runCalls step m calls).phase.takesData = false := by
  induction calls using List.reverseRecOn with
  | nil => exact hphase
  | append_singleton calls call ih =>
    have hbefore := ih fun before nonce rest hcalls =>
      hnonce before nonce (rest ++ [call]) (by rw [hcalls, List.append_assoc]; rfl)
    rw [runCalls_concat]
    cases hrestarts : call.restarts a with
    | false =>
      obtain ⟨len, hafter⟩ := step_waiting hbefore hrestarts
      rw [hafter]
      exact hbefore
    | true =>
      cases call with
      | setKey key => rfl
      | setIv nonce =>
        rw [after_setIv_refused (hnonce calls nonce [] rfl)]
        exact hbefore
      | updateAad _ | encrypt _ | decrypt _ | finish | verify _ | setTagLen _ =>
        exact absurd hrestarts (by simp [Call.restarts])

/-! ## 6. The language of a session -/

/-- **Which calls a session accepts.** After a nonce, and any calls since that start or drop no
message and keep within the bound, associated data is taken as long as no tag was asked for and no
byte of the message has come, a piece of the message as long as no tag was asked for, and a tag is
made for the first call that asks for one; every other call of these is out of order. A tag of a
length that no tag has is refused for that and asks for nothing. So a nonce gives one tag at most.
Without a nonce, be it that none has come or that the tag is out, nothing is accepted, and without
a key there is nothing else to say. -/
theorem session_language (m : Mgm a) :
    (∀ (c : Cipher a) (nonce : Block a) (since : List Call), m.cipher = some c →
      (∀ call ∈ since, call.restarts a = false) → taken a since.reverse ≤ maxLen a →
      let past := since.reverse
      let m' := runCalls step m (.setIv nonce.toList :: since)
      (∀ aad, taken a (.updateAad aad :: past) ≤ maxLen a →
        (step m' (.updateAad aad)).answer =
          if ended a past || fed past then .error .badOrder else .ok none) ∧
      (∀ data, taken a (.encrypt data :: past) ≤ maxLen a →
        (step m' (.encrypt data)).answer =
          if ended a past then .error .badOrder else .ok none) ∧
      (∀ data, taken a (.decrypt data :: past) ≤ maxLen a →
        (step m' (.decrypt data)).answer =
          if ended a past then .error .badOrder else .ok none) ∧
      (if ended a past then (step m' .finish).answer = .error .badOrder
        else ∃ tag, (step m' .finish).answer = .ok (some tag)) ∧
      (∀ expected, 1 ≤ expected.length ∧ expected.length ≤ a.blockLen →
        if ended a past then (step m' (.verify expected)).answer = .error .badOrder
        else (step m' (.verify expected)).answer = .ok none ∨
          (step m' (.verify expected)).answer = .error .authenticationFailed) ∧
      (∀ expected, ¬(1 ≤ expected.length ∧ expected.length ≤ a.blockLen) →
        (step m' (.verify expected)).answer =
          .error (.invalidTagLength expected.length a.blockLen)) ∧
      (if ended a past then m'.phase = .finalized
        else m'.message.aadLen + m'.message.dataLen = taken a past)) ∧
    (∀ calls, (∀ call ∈ calls, call.restarts a = false) → m.tagsMade calls ≤ 1) ∧
    (m.phase = .keySet ∨ m.phase = .finalized → ∀ calls, m.NoNonceAccepted calls →
      let m' := runCalls step m calls
      ∀ call : Call, call.processes a = true →
        step m' call = .refused (m', call.buffer)
          (if m'.cipher.isSome then .badOrder else .keyNotSet)) ∧
    (m.cipher = none → ∀ call : Call, call.processes a = true →
      step m call = .refused (m, call.buffer) .keyNotSet) := by
  refine ⟨?_, tagsMade_le_one m, ?_, fun hcipher call hcall => step_unkeyed hcall hcipher⟩
  · intro c nonce since hcipher hsince hroom past m'
    have h : Follows c nonce past m' := follows_calls hcipher nonce since hsince hroom
    refine ⟨fun aad hfits => h.answer_updateAad hfits,
      fun data hfits => h.answer_turning .encrypting hfits,
      fun data hfits => h.answer_turning .decrypting hfits, ?_, ?_, ?_, ?_⟩
    · split
      · next hended => rw [h.step_denied rfl (allows_of_ended hended _)]; rfl
      · next hopen => exact h.answer_finish (Bool.eq_false_iff.mpr hopen)
    · intro expected hsize
      have hcloses : (Call.verify expected).closes a = true := decide_eq_true hsize
      split
      · next hended =>
        rw [h.step_denied (Call.processes_of_closes hcloses) (allows_of_ended hended _)]
        rfl
      · next hopen => exact h.answer_verify (Bool.eq_false_iff.mpr hopen) hcloses
    · intro expected hsize
      rw [step_verify_wrong_length m' (decide_eq_false hsize)]
      rfl
    · cases h with
      | underway aad ciphertext hopen runs length hfed =>
        rw [hopen, if_neg Bool.false_ne_true, runs.stands.lengths.1, runs.stands.lengths.2]
        exact length
      | closed hended cipher phase => rwa [hended, if_pos rfl]
  · intro hphase calls hnonce m' call hcall
    have hwaits : m.phase.takesData = false := by
      rcases hphase with hkey | hfinal
      · rw [hkey]; rfl
      · rw [hfinal]; rfl
    have hrun : m'.phase.takesData = false := waiting_run hwaits calls hnonce
    exact step_out_of_phase hcall (wants_of_takesData hrun call)

/-- Empty pieces of the message come in between, and a tag that nobody can have; the first byte of
the message ends the associated data, and nothing else is lost. -/
theorem session_language_gost89 :
    let m' := runCalls step (ofCipher (Cipher.gost89OfKey (.zero 32) default))
      [.setIv (List.replicate 8 0), .updateAad [1], .encrypt [], .updateAad [2], .decrypt [3],
        .verify []]
    (step m' (.updateAad [4])).answer = .error .badOrder ∧
      (step m' (.encrypt [4])).answer = .ok none ∧
      ∃ tag, (step m' .finish).answer = .ok (some tag) := by
  have h := (session_language (ofCipher (Cipher.gost89OfKey (.zero 32) default))).1
    (Cipher.gost89OfKey (.zero 32) default) (.zero 8)
    [.updateAad [1], .encrypt [], .updateAad [2], .decrypt [3], .verify []] rfl (by decide)
    (by decide)
  exact ⟨h.1 [4] (by decide), h.2.1 [4] (by decide), h.2.2.2.1⟩

end Mgm

end GostSuite

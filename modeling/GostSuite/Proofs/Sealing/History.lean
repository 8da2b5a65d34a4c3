import GostSuite.Proofs.Sealing.Session

/-!
# Any calls, in any order

A session that goes as it should is one thing, and what a context does when its calls come in any
order, with any arguments, is another. There a call may be refused at any point, a message may be
dropped for another, and a key may come or go. Still there are two kinds of context only:

* one that waits for a nonce (`Idle`), whose message is blank, and
* one with a message under way (`Runs`), which stands where the bytes it has taken put it.

The calls are told apart by what they ask for, not by their names: a call may start a message or
drop one (`Call.restarts`), bring bytes (`Call.streams`) or ask for a tag (`Call.closes`). The last
two need a message, and a context that has none refuses them all in the same way (`step_refused`).

Every lemma about a call says what it leaves, and the whole context at that. What follows for lists
of calls is the business of the files that use them.
-/

set_option autoImplicit false

namespace GostSuite

namespace Mgm

variable {a : Algorithm}

/-! ## 1. What a call asks for -/

namespace Call

/-- The call starts a message, or drops one. A nonce of a wrong length does neither. -/
def restarts (a : Algorithm) : Call → Bool
  | .setKey _ => true
  | .setIv nonce => nonce.length == a.blockLen
  | _ => false

/-- The call brings associated data or a piece of the message. -/
def streams : Call → Bool
  | .updateAad _ | .encrypt _ | .decrypt _ => true
  | _ => false

/-- The call asks for a tag. One to be verified must have a length that a tag can have. -/
def closes (a : Algorithm) : Call → Bool
  | .finish => true
  | .verify expected => decide (1 ≤ expected.length ∧ expected.length ≤ a.blockLen)
  | _ => false

/-- The call needs a message that is under way. -/
def processes (a : Algorithm) (call : Call) : Bool := call.streams || call.closes a

/-- The call brings bytes of the message, and so ends the associated data. -/
def feeds : Call → Bool
  | .encrypt data | .decrypt data => !data.isEmpty
  | _ => false

/-- The bytes that the call brings. -/
def size : Call → Nat
  | .updateAad data | .encrypt data | .decrypt data => data.length
  | _ => 0

/-- The buffer that is lent to the call. -/
def buffer : Call → ByteString
  | .encrypt data | .decrypt data => data
  | _ => []

/-- The phases in which a call that needs a message is taken. -/
def wants : Call → Phase → Bool
  | .updateAad _ => Phase.takesAad
  | _ => Phase.takesData

/-- The bytes that the call adds to a message in the phase `p`, if there is room for them. -/
def gain (call : Call) (p : Phase) : Nat := if call.wants p then call.size else 0

theorem processes_of_streams {call : Call} (h : call.streams = true) : call.processes a = true := by
  rw [processes, h, Bool.true_or]

theorem processes_of_closes {call : Call} (h : call.closes a = true) : call.processes a = true := by
  rw [processes, h, Bool.or_true]

/-- A call that does not bring bytes has none to bring. -/
theorem size_of_streams {call : Call} (h : call.streams = false) :
    call.size = 0 ∧ call.feeds = false := by
  cases call with
  | updateAad _ | encrypt _ | decrypt _ => exact absurd h (by simp [streams])
  | setKey _ | setIv _ | finish | verify _ | setTagLen _ => exact ⟨rfl, rfl⟩

theorem gain_of_streams {call : Call} (h : call.streams = false) (p : Phase) :
    call.gain p = 0 := by
  rw [gain, (size_of_streams h).1, ite_self]

theorem streams_of_processes {call : Call} (h : call.processes a = true)
    (hcloses : call.closes a = false) : call.streams = true := by
  rwa [processes, hcloses, Bool.or_false] at h

end Call

theorem tagLen_eq_ok_iff {len : Nat} :
    Bounds.tagLen a len = .ok () ↔ 1 ≤ len ∧ len ≤ a.blockLen := by
  rw [Bounds.tagLen]
  split
  · next h => exact iff_of_true rfl h
  · next h => exact iff_of_false (by simp) h

theorem tagLen_of_closes {expected : ByteString} (h : (Call.verify expected).closes a = true) :
    Bounds.tagLen a expected.length = .ok () :=
  tagLen_eq_ok_iff.mpr (of_decide_eq_true h)

/-- A tag of a length that no tag has is refused before anything else is looked at. -/
theorem step_verify_wrong_length (m : Mgm a) {expected : ByteString}
    (h : (Call.verify expected).closes a = false) :
    step m (.verify expected) =
      .refused (m, []) (.invalidTagLength expected.length a.blockLen) := by
  have hbounds : Bounds.tagLen a expected.length =
      .error (.invalidTagLength expected.length a.blockLen) := if_neg (of_decide_eq_false h)
  rw [step, Mgm.verify, hbounds]
  rfl

theorem step_setTagLen (m : Mgm a) {len : Nat} (h : 1 ≤ len ∧ len ≤ a.blockLen) :
    step m (.setTagLen len) = .done ({ m with tagLen := len }, []) none := by
  rw [step, Mgm.setTagLen, Bounds.tagLen, if_pos h]
  rfl

theorem step_setTagLen_refused (m : Mgm a) {len : Nat} (h : ¬(1 ≤ len ∧ len ≤ a.blockLen)) :
    step m (.setTagLen len) = .refused (m, []) (.invalidTagLength len a.blockLen) := by
  rw [step, Mgm.setTagLen, Bounds.tagLen, if_neg h]
  rfl

/-! ## 2. Refusals -/

variable {m : Mgm a} {c : Cipher a}

/-- Beyond the key and the order, a piece can only be too long. -/
theorem takes_ne_error {e : Error} (hopen : ∀ wanted, m.openFor wanted ≠ .error e)
    (he : .dataTooLarge ≠ e) (len : Nat) :
    m.takesAad len ≠ .error e ∧ m.takesData len ≠ .error e := by
  have hreserve : m.reserve len ≠ .error e := guard_ne_error he
  have htaken : ∀ c : Cipher a, (do m.reserve len; return c) ≠ .error e :=
    fun c => bind_ne_error hreserve fun _ heq => nomatch heq
  exact ⟨bind_ne_error (hopen _) htaken, bind_ne_error (hopen _) htaken⟩

/-- The answer to a call that needs a message when there is none. -/
def refusal (m : Mgm a) : Error := if m.cipher.isSome then .badOrder else .keyNotSet

theorem openFor_of_phase {wanted : Phase → Bool} (hphase : wanted m.phase = false) :
    m.openFor wanted = .error m.refusal := by
  cases hcipher : m.cipher with
  | none => rw [openFor_unkeyed hcipher, refusal, hcipher]; rfl
  | some c => rw [openFor_keyed hcipher, hphase, refusal, hcipher]; rfl

/-- **A call that needs a message and finds none changes nothing**, neither the context nor the
buffer. -/
theorem step_refused {call : Call} {e : Error} (hcall : call.processes a = true)
    (hopen : m.openFor call.wants = .error e) : step m call = .refused (m, call.buffer) e := by
  cases call with
  | updateAad piece =>
    change m.openFor Phase.takesAad = _ at hopen
    rw [step, updateAad_eq, Mgm.takesAad, hopen]
    rfl
  | encrypt data =>
    change m.openFor Phase.takesData = _ at hopen
    rw [step, Mgm.encrypt, turn_eq, Mgm.takesData, hopen]
    rfl
  | decrypt data =>
    change m.openFor Phase.takesData = _ at hopen
    rw [step, Mgm.decrypt, turn_eq, Mgm.takesData, hopen]
    rfl
  | finish =>
    change m.openFor Phase.takesData = _ at hopen
    rw [step, Mgm.finish, finalize_eq, hopen]
    rfl
  | verify expected =>
    change m.openFor Phase.takesData = _ at hopen
    have hcloses : (Call.verify expected).closes a = true := hcall
    rw [step, Mgm.verify, tagLen_of_closes hcloses, finalize_eq, hopen]
    rfl
  | setKey _ | setIv _ | setTagLen _ =>
    exact absurd hcall (by simp [Call.processes, Call.streams, Call.closes])

theorem step_out_of_phase {call : Call} (hcall : call.processes a = true)
    (hphase : call.wants m.phase = false) : step m call = .refused (m, call.buffer) m.refusal :=
  step_refused hcall (openFor_of_phase hphase)

theorem step_unkeyed {call : Call} (hcall : call.processes a = true) (hcipher : m.cipher = none) :
    step m call = .refused (m, call.buffer) .keyNotSet :=
  step_refused hcall (openFor_unkeyed hcipher call.wants)

/-! ## 3. Nonces -/

theorem step_setIv_unkeyed (hcipher : m.cipher = none) (nonce : ByteString) :
    step m (.setIv nonce) = .refused (m, []) .keyNotSet := by
  rw [step, setIv, Mgm.keyed, hcipher]
  rfl

theorem step_setIv_wrong_length (m : Mgm a) {nonce : ByteString}
    (hlen : (Call.setIv nonce).restarts a = false) :
    ∃ e, step m (.setIv nonce) = .refused (m, []) e := by
  have hread := Bytes.read_wrong_length (beq_eq_false_iff_ne.mp hlen : nonce.length ≠ a.blockLen)
  cases hcipher : m.cipher with
  | none => exact ⟨_, step_setIv_unkeyed hcipher nonce⟩
  | some c =>
    refine ⟨.invalidLength a.blockLen nonce.length, ?_⟩
    rw [step, setIv, Mgm.keyed, hcipher, hread]
    rfl

/-- A nonce of the right length is a block. -/
theorem nonce_of_restarts {nonce : ByteString} (h : (Call.setIv nonce).restarts a = true) :
    ∃ block : Block a, nonce = block.toList :=
  ⟨⟨nonce, beq_iff_eq.mp h⟩, rfl⟩

/-! ## 4. Contexts that wait for a nonce -/

/-- There is no message. -/
structure Idle (m : Mgm a) : Prop where
  phase : m.phase.takesData = false
  message : m.message = .blank a.blockLen
  unkeyed : m.cipher = none → m.phase = .keySet

theorem takesAad_of_takesData {p : Phase} (h : p.takesData = false) : p.takesAad = false := by
  cases p with
  | keySet | data | finalized => rfl
  | ivSet | aad => exact absurd h (by decide)

theorem wants_of_takesData {p : Phase} (h : p.takesData = false) (call : Call) :
    call.wants p = false := by
  cases call with
  | updateAad _ => exact takesAad_of_takesData h
  | _ => exact h

theorem idle_unkeyed (a : Algorithm) : Idle (unkeyed a) := ⟨rfl, rfl, fun _ => rfl⟩

theorem idle_ofCipher (c : Cipher a) : Idle (ofCipher c) :=
  ⟨rfl, rfl, fun h => absurd h (by simp [ofCipher])⟩

/-- A key drops whatever was there. -/
theorem idle_setKey (m : Mgm a) (key : Key) : Idle (step m (.setKey key)).after.1 :=
  ⟨rfl, rfl, fun _ => rfl⟩

/-- Calls that neither restart nor need a message see none: at most the length of the tags
changes. -/
theorem step_aside (m : Mgm a) {call : Call} (hrestarts : call.restarts a = false)
    (hcall : call.processes a = false) :
    ∃ len, (step m call).after.1 = { m with tagLen := len } := by
  cases call with
  | setIv nonce =>
    obtain ⟨e, hstep⟩ := step_setIv_wrong_length m hrestarts
    exact ⟨m.tagLen, by rw [hstep]; rfl⟩
  | verify expected => exact ⟨m.tagLen, by rw [step_verify_wrong_length m hcall]; rfl⟩
  | setTagLen len =>
    by_cases hlen : 1 ≤ len ∧ len ≤ a.blockLen
    · exact ⟨len, by rw [step_setTagLen m hlen]; rfl⟩
    · exact ⟨m.tagLen, by rw [step_setTagLen_refused m hlen]; rfl⟩
  | setKey _ => exact absurd hrestarts (by simp [Call.restarts])
  | updateAad _ | encrypt _ | decrypt _ | finish =>
    exact absurd hcall (by simp [Call.processes, Call.streams, Call.closes])

/-- A context that waits goes on waiting: no call but a nonce starts a message. -/
theorem step_waiting (hphase : m.phase.takesData = false) {call : Call}
    (hrestarts : call.restarts a = false) :
    ∃ len, (step m call).after.1 = { m with tagLen := len } := by
  cases hcall : call.processes a with
  | true =>
    rw [step_out_of_phase hcall (wants_of_takesData hphase call)]
    exact ⟨m.tagLen, rfl⟩
  | false => exact step_aside m hrestarts hcall

theorem Idle.stays (h : Idle m) {call : Call} (hrestarts : call.restarts a = false) :
    Idle (step m call).after.1 := by
  obtain ⟨len, hafter⟩ := step_waiting h.phase hrestarts
  rw [hafter]
  exact ⟨h.phase, h.message, h.unkeyed⟩

/-! ## 5. Messages under way -/

/-- A message is under way and has taken `aad` and `ciphertext`. A context that has been told
nothing since its nonce has taken nothing. -/
structure Runs (c : Cipher a) (nonce : Block a) (aad ciphertext : ByteString) (m : Mgm a) :
    Prop where
  stands : Stands c nonce m.tagLen aad ciphertext m
  bounded : aad.length + ciphertext.length ≤ maxLen a
  untouched : m.phase = .ivSet → aad = []

variable {nonce : Block a} {tagLen : Nat} {aad ciphertext : ByteString}

theorem Runs.ofStands (h : Stands c nonce tagLen aad ciphertext m)
    (hlen : aad.length + ciphertext.length ≤ maxLen a) (huntouched : m.phase = .ivSet → aad = []) :
    Runs c nonce aad ciphertext m :=
  ⟨by rw [h.tagLen]; exact h, hlen, huntouched⟩

theorem Runs.begin (hcipher : m.cipher = some c) (nonce : Block a) :
    Runs c nonce [] [] (m.begin c nonce) :=
  .ofStands (.begin hcipher nonce) (Nat.zero_le _) fun _ => rfl

theorem Stands.phase_takesAad (h : Stands c nonce tagLen aad ciphertext m) :
    m.phase.takesAad = true ↔ ciphertext = [] := by
  have hphase := h.phase
  by_cases hnil : ciphertext = []
  · rw [if_pos hnil] at hphase
    exact iff_of_true hphase hnil
  · rw [if_neg hnil] at hphase
    rw [hphase]
    exact iff_of_false (by decide) hnil

/-- A message under way is open for its bytes and for its tag; only associated data can come too
late. -/
theorem Stands.wants (h : Stands c nonce tagLen aad ciphertext m) {call : Call}
    (hphase : call.wants m.phase = false) : ciphertext ≠ [] := by
  cases call with
  | updateAad piece =>
    intro hnil
    have htakes : m.phase.takesAad = true := h.phase_takesAad.mpr hnil
    rw [Call.wants, htakes] at hphase
    exact absurd hphase (by decide)
  | _ => exact absurd (h.phase_takesData.symm.trans hphase) (by decide)

theorem phase_updateAad {m' : Mgm a} {piece : ByteString} (h : m.updateAad piece = .done m' ()) :
    m'.phase = .aad := by
  rw [updateAad_eq] at h
  split at h
  · exact absurd h Outcome.refused_ne_done
  · rw [← (Outcome.done_inj.mp h).1]

theorem turn_nil (h : m.takesData 0 = .ok c) (d : Direction) : m.turn d [] = .done (m, []) () := by
  rw [turn_eq, List.length_nil, h]
  rfl

/-- A piece of the message goes on with it. Only a piece with something in it leaves the phase. -/
theorem Runs.turn (h : Runs c nonce aad ciphertext m) (d : Direction) (piece : ByteString)
    (hlen : aad.length + ciphertext.length + piece.length ≤ maxLen a) :
    ∃ m' out side, m.turn d piece = .done (m', out) () ∧ side.length = piece.length ∧
      Runs c nonce aad (ciphertext ++ side) m' := by
  by_cases hnil : piece = []
  · subst hnil
    have htakes : m.takesData 0 = .ok c := (h.stands.takesData 0).trans (if_pos hlen)
    exact ⟨m, [], [], turn_nil htakes d, rfl, by rwa [List.append_nil]⟩
  · obtain ⟨m', hturn, hstands⟩ := h.stands.turn d piece hlen
    have hside := Message.length_cipherSide d (keystream c nonce) ciphertext.length piece
    refine ⟨m', _, _, hturn, hside, .ofStands hstands ?_ ?_⟩
    · rw [List.length_append, hside]
      omega
    · have hphase := hstands.phase
      rw [if_neg fun hempty => hnil ?_] at hphase
      · intro hiv
        exact absurd (hiv.symm.trans hphase) (by decide)
      · rw [List.append_eq_nil_iff] at hempty
        rw [← List.length_eq_zero_iff, ← hside, hempty.2, List.length_nil]

/-- What the message is after a piece of it that may come. -/
theorem Runs.takes_piece (h : Runs c nonce aad ciphertext m) (d : Direction) (piece : ByteString)
    (hlen : aad.length + ciphertext.length + piece.length ≤ maxLen a) :
    (step m (.turning d piece)).answer = .ok none ∧
      ∃ aad' ciphertext', Runs c nonce aad' ciphertext' (step m (.turning d piece)).after.1 ∧
        aad'.length + ciphertext'.length = aad.length + ciphertext.length + piece.length ∧
        (ciphertext' = [] ↔ ciphertext = [] ∧ (!piece.isEmpty) = false) := by
  obtain ⟨m', out, side, hturn, hside, hruns⟩ := h.turn d piece hlen
  rw [step_turning, hturn]
  refine ⟨rfl, aad, ciphertext ++ side, hruns, ?_, ?_⟩
  · rw [List.length_append, hside, Nat.add_assoc]
  · rw [List.append_eq_nil_iff, ← List.length_eq_zero_iff (l := side), hside,
      List.length_eq_zero_iff, Bool.not_eq_false', List.isEmpty_iff]

/-- **Bytes that come in their phase and keep within the bound are taken.** -/
theorem Runs.takes (h : Runs c nonce aad ciphertext m) {call : Call} (hcall : call.streams = true)
    (hphase : call.wants m.phase = true)
    (hlen : aad.length + ciphertext.length + call.size ≤ maxLen a) :
    (step m call).answer = .ok none ∧
      ∃ aad' ciphertext', Runs c nonce aad' ciphertext' (step m call).after.1 ∧
        aad'.length + ciphertext'.length = aad.length + ciphertext.length + call.size ∧
        (ciphertext' = [] ↔ ciphertext = [] ∧ call.feeds = false) := by
  cases call with
  | updateAad piece =>
    obtain rfl := h.stands.phase_takesAad.mp hphase
    have hroom : aad.length + piece.length ≤ maxLen a := hlen
    obtain ⟨m', hupdate, hstands⟩ := h.stands.updateAad piece hroom
    have hrun : Runs c nonce (aad ++ piece) [] m' := by
      refine .ofStands hstands (by rw [List.length_append]; exact hroom) ?_
      rw [phase_updateAad hupdate]
      intro hiv
      exact absurd hiv (by decide)
    rw [step, hupdate]
    refine ⟨rfl, aad ++ piece, [], hrun, ?_, iff_of_true rfl ⟨rfl, rfl⟩⟩
    rw [List.length_append]
    rfl
  | encrypt data => exact h.takes_piece .encrypting data hlen
  | decrypt data => exact h.takes_piece .decrypting data hlen
  | setKey _ | setIv _ | finish | verify _ | setTagLen _ =>
    exact absurd hcall (by simp [Call.streams])

/-- Bytes that would outgrow the bound are refused before one of them is touched. -/
theorem Runs.step_too_large (h : Runs c nonce aad ciphertext m) {call : Call}
    (hcall : call.streams = true) (hphase : call.wants m.phase = true)
    (hlen : maxLen a < aad.length + ciphertext.length + call.size) :
    step m call = .refused (m, call.buffer) .dataTooLarge := by
  cases call with
  | updateAad piece =>
    obtain rfl := h.stands.phase_takesAad.mp hphase
    rw [step, h.stands.updateAad_refused piece hlen]
    rfl
  | encrypt data =>
    rw [step, Mgm.encrypt, h.stands.turn_refused .encrypting data hlen]
    rfl
  | decrypt data =>
    rw [step, Mgm.decrypt, h.stands.turn_refused .decrypting data hlen]
    rfl
  | setKey _ | setIv _ | finish | verify _ | setTagLen _ =>
    exact absurd hcall (by simp [Call.streams])

/-- **A message that is not ended goes on**, whatever is called. As long as there is room it grows
by what the call adds in its phase. -/
theorem Runs.goes_on (h : Runs c nonce aad ciphertext m) {call : Call}
    (hrestarts : call.restarts a = false) (hcloses : call.closes a = false) :
    ∃ aad' ciphertext', Runs c nonce aad' ciphertext' (step m call).after.1 ∧
      (aad.length + ciphertext.length + call.gain m.phase ≤ maxLen a →
        aad'.length + ciphertext'.length =
            aad.length + ciphertext.length + call.gain m.phase ∧
          (ciphertext' = [] ↔ ciphertext = [] ∧ call.feeds = false)) := by
  cases hcall : call.processes a with
  | false =>
    obtain ⟨len, hafter⟩ := step_aside m hrestarts hcall
    have hstreams : call.streams = false := (Bool.or_eq_false_iff.mp hcall).1
    have hruns : Runs c nonce aad ciphertext { m with tagLen := len } :=
      ⟨⟨h.stands.cipher, rfl, h.stands.phase, h.stands.message⟩, h.bounded, h.untouched⟩
    rw [hafter, Call.gain_of_streams hstreams]
    exact ⟨aad, ciphertext, hruns, fun _ =>
      ⟨rfl, (and_iff_left (Call.size_of_streams hstreams).2).symm⟩⟩
  | true =>
    have hstreams := Call.streams_of_processes hcall hcloses
    cases hphase : call.wants m.phase with
    | false =>
      -- only associated data can come too late, and then there is a ciphertext
      have hsome : ciphertext ≠ [] := h.stands.wants hphase
      have hgain : call.gain m.phase = 0 := by rw [Call.gain, hphase]; rfl
      rw [step_out_of_phase hcall hphase, hgain]
      exact ⟨aad, ciphertext, h, fun _ =>
        ⟨rfl, iff_of_false hsome fun hboth => hsome hboth.1⟩⟩
    | true =>
      have hgain : call.gain m.phase = call.size := by rw [Call.gain, hphase]; rfl
      rw [hgain]
      by_cases hlen : aad.length + ciphertext.length + call.size ≤ maxLen a
      · obtain ⟨-, aad', ciphertext', hruns, hgrown⟩ := h.takes hstreams hphase hlen
        exact ⟨aad', ciphertext', hruns, fun _ => hgrown⟩
      · rw [h.step_too_large hstreams hphase (Nat.lt_of_not_le hlen)]
        exact ⟨aad, ciphertext, h, fun hfits => absurd hfits hlen⟩

theorem Stands.after_closes (h : Stands c nonce tagLen aad ciphertext m) {call : Call}
    (hcloses : call.closes a = true) :
    (step m call).after.1 = { m with phase := .finalized, message := .blank a.blockLen } := by
  have hfinal : m.finalize =
      .done { m with phase := .finalized, message := .blank a.blockLen }
        (m.message.close c.encrypt) := by
    rw [finalize_eq, h.openFor h.phase_takesData]
  cases call with
  | finish =>
    rw [step, Mgm.finish, hfinal]
    rfl
  | verify expected =>
    rw [step, Mgm.verify, tagLen_of_closes hcloses, hfinal]
    rfl
  | setKey _ | setIv _ | updateAad _ | encrypt _ | decrypt _ | setTagLen _ =>
    exact absurd hcloses (by simp [Call.closes])

/-- A tag that is asked for ends the message, whether it is given, found right or found wrong. -/
theorem Runs.ends (h : Runs c nonce aad ciphertext m) {call : Call}
    (hcloses : call.closes a = true) :
    Idle (step m call).after.1 ∧ (step m call).after.1.cipher = some c ∧
      (step m call).after.1.phase = .finalized := by
  rw [h.stands.after_closes hcloses]
  refine ⟨⟨rfl, rfl, fun hnone => ?_⟩, h.stands.cipher, rfl⟩
  exact absurd (h.stands.cipher.symm.trans hnone) (by simp)

end Mgm

end GostSuite

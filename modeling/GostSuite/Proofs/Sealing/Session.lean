import GostSuite.Proofs.Calls
import GostSuite.Proofs.Sealing.Multilinear

/-!
# A session of the authenticated mode

Whatever pieces a message comes in, the context that takes them is in one of few states, and which
one depends on the bytes alone: the associated data and the ciphertext so far. `messageAfter` is
that state. It has two forms, because the first byte of the message closes the associated data: as
long as there is no ciphertext the associated data is still open, and the phase says so.

`Stands` is the whole invariant of a session between its nonce and its tag. Each call has one lemma
about it: what it takes, what it gives back and what the context stands at afterwards. The law of
the mode is then an induction over the calls.
-/

set_option autoImplicit false

namespace GostSuite

namespace Mgm

variable {a : Algorithm}

/-! ## 1. The invariant of a session -/

/-- A message whose associated data is closed, with `ciphertext` behind it. The length of the
message is counted before its bytes are turned, so it stands apart. -/
def dataMessage (c : Cipher a) (nonce : Block a) (aad ciphertext : ByteString) (dataLen : Nat) :
    Message a.blockLen :=
  .standing c.encrypt (firstY c nonce) (firstZ c nonce) (aad.paddedBlocks a.blockLen) ciphertext
    aad.length dataLen (Message.madeFor a.blockLen ciphertext.length)

/-- The message of a context that has taken `aad` and then the ciphertext `ciphertext`. -/
def messageAfter (c : Cipher a) (nonce : Block a) (aad ciphertext : ByteString) :
    Message a.blockLen :=
  if ciphertext = [] then
    .standing c.encrypt (firstY c nonce) (firstZ c nonce) [] aad aad.length 0 0
  else dataMessage c nonce aad ciphertext ciphertext.length

/-- The context has taken `aad` and `ciphertext` under a nonce, and has not given a tag. -/
structure Stands (c : Cipher a) (nonce : Block a) (tagLen : Nat) (aad ciphertext : ByteString)
    (m : Mgm a) : Prop where
  cipher : m.cipher = some c
  tagLen : m.tagLen = tagLen
  phase : if ciphertext = [] then m.phase.takesAad = true else m.phase = .data
  message : m.message = messageAfter c nonce aad ciphertext

variable {c : Cipher a} {nonce : Block a} {tagLen : Nat} {aad ciphertext : ByteString} {m : Mgm a}

/-- A new message has taken nothing. -/
theorem Stands.begin (hcipher : m.cipher = some c) (nonce : Block a) :
    Stands c nonce m.tagLen [] [] (m.begin c nonce) := by
  have hnil : ByteString.blocks a.blockLen [] = ([], []) := ByteString.blocks_nil a.blockLen_pos
  refine ⟨hcipher, rfl, rfl, ?_⟩
  rw [messageAfter, if_pos rfl]
  apply Message.ext <;>
    simp [Mgm.begin, Message.blank, Message.standing, Message.weightedSum, hnil, firstY, firstZ,
      withTopBit_eq]

/-! ## 2. What a context takes -/

theorem Stands.keyed (h : Stands c nonce tagLen aad ciphertext m) : m.keyed = .ok c := by
  rw [Mgm.keyed, h.cipher]

theorem Stands.openFor (h : Stands c nonce tagLen aad ciphertext m) {wanted : Phase → Bool}
    (hphase : wanted m.phase = true) : m.openFor wanted = .ok c := by
  rw [Mgm.openFor, h.keyed]
  change (if (!wanted m.phase) = true then _ else _) = _
  rw [hphase]
  rfl

theorem Stands.lengths (h : Stands c nonce tagLen aad ciphertext m) :
    m.message.aadLen = aad.length ∧ m.message.dataLen = ciphertext.length := by
  rw [h.message, messageAfter]
  split
  · next hnil => exact ⟨rfl, by rw [hnil]; rfl⟩
  · exact ⟨rfl, rfl⟩

/-- The bound of the mode is about what was taken and what is to come. -/
theorem Stands.reserve (h : Stands c nonce tagLen aad ciphertext m) (len : Nat) :
    m.reserve len =
      if aad.length + ciphertext.length + len ≤ maxLen a then .ok () else .error .dataTooLarge := by
  rw [Mgm.reserve, h.lengths.1, h.lengths.2]

/-- The bound of the mode keeps the number of bits within half a block, and within a word. -/
theorem bits_lt_of_le_maxLen {len : Nat} (h : len ≤ maxLen a) :
    8 * len < 256 ^ (a.blockLen / 2) ∧ 8 * len < 2 ^ 64 := by
  cases a with
  | magma =>
    have hmax : maxLen .magma = 2 ^ 29 - 1 := by decide
    exact ⟨by norm_num [Algorithm.blockLen]; omega, by omega⟩
  | kuznyechik =>
    have hmax : maxLen .kuznyechik = 2 ^ 61 - 1 := by decide
    exact ⟨by norm_num [Algorithm.blockLen]; omega, by omega⟩
  | gost89 =>
    have hmax : maxLen .gost89 = 2 ^ 29 - 1 := by decide
    exact ⟨by norm_num [Algorithm.blockLen]; omega, by omega⟩

/-- The bound of the mode leaves a counter to each byte, and one more. -/
theorem lt_of_le_maxLen {len : Nat} (h : len ≤ maxLen a) : len < 256 ^ (a.blockLen / 2) := by
  have hbits := (bits_lt_of_le_maxLen h).1
  omega

/-- Without a byte of the message the associated data is open. -/
theorem Stands.phase_ne_data (h : Stands c nonce tagLen aad [] m) : m.phase ≠ .data := by
  intro hdata
  have hphase : m.phase.takesAad = true := h.phase
  rw [hdata] at hphase
  exact absurd hphase (by decide)

theorem Stands.phase_takesData (h : Stands c nonce tagLen aad ciphertext m) :
    m.phase.takesData = true := by
  have hphase := h.phase
  split at hphase
  · cases hp : m.phase <;> simp_all [Phase.takesAad, Phase.takesData]
  · rw [hphase]
    rfl

theorem Stands.takesAad (h : Stands c nonce tagLen aad [] m) (len : Nat) :
    m.takesAad len =
      if aad.length + len ≤ maxLen a then .ok c else .error .dataTooLarge := by
  have hphase : m.phase.takesAad = true := h.phase
  rw [Mgm.takesAad, h.openFor hphase, h.reserve, List.length_nil, Nat.add_zero]
  split <;> rfl

theorem Stands.takesData (h : Stands c nonce tagLen aad ciphertext m) (len : Nat) :
    m.takesData len =
      if aad.length + ciphertext.length + len ≤ maxLen a then .ok c
      else .error .dataTooLarge := by
  rw [Mgm.takesData, h.openFor h.phase_takesData, h.reserve]
  split <;> rfl

/-! ## 3. The calls of a session -/

theorem step_setIv (hcipher : m.cipher = some c) (nonce : Block a) :
    step m (.setIv nonce.toList) = .done (m.begin c nonce, []) none := by
  rw [step, setIv, Mgm.keyed, hcipher, Bytes.read_toList]
  rfl

/-- Associated data joins what is there, as long as no byte of the message has come. -/
theorem Stands.updateAad (h : Stands c nonce tagLen aad [] m) (piece : ByteString)
    (hlen : aad.length + piece.length ≤ maxLen a) :
    ∃ m', m.updateAad piece = .done m' () ∧ Stands c nonce tagLen (aad ++ piece) [] m' := by
  have hmessage : m.message.takeAad c.encrypt piece = messageAfter c nonce (aad ++ piece) [] := by
    rw [h.message, messageAfter, if_pos rfl, Message.takeAad_standing, messageAfter, if_pos rfl,
      List.length_append]
  rw [updateAad_eq, h.takesAad, if_pos hlen]
  exact ⟨_, rfl, h.cipher, h.tagLen, rfl, hmessage⟩

theorem Stands.updateAad_refused (h : Stands c nonce tagLen aad [] m) (piece : ByteString)
    (hlen : maxLen a < aad.length + piece.length) :
    m.updateAad piece = .refused m .dataTooLarge := by
  rw [updateAad_eq, h.takesAad, if_neg (Nat.not_le_of_lt hlen)]

/-- The first byte of a message closes the associated data, and a later one finds it closed. -/
theorem Stands.opened (h : Stands c nonce tagLen aad ciphertext m) :
    (if m.phase = .data then m.message else m.message.foldPending c.encrypt) =
      dataMessage c nonce aad ciphertext ciphertext.length := by
  have hphase := h.phase
  rw [h.message, messageAfter]
  by_cases hnil : ciphertext = []
  · subst hnil
    rw [if_pos rfl, if_neg h.phase_ne_data, Message.foldPending_standing, List.nil_append,
      dataMessage, List.length_nil, Message.madeFor_zero]
  · rw [if_neg hnil] at hphase ⊢
    rw [if_pos hphase]

theorem turnBytes_dataMessage (dataLen : Nat) (d : Direction) (piece : ByteString) :
    (dataMessage c nonce aad ciphertext dataLen).turnBytes c.encrypt d piece =
      (piece.mask (keystream c nonce) ciphertext.length,
        dataMessage c nonce aad
          (ciphertext ++ Message.cipherSide d (keystream c nonce) ciphertext.length piece)
          dataLen) := by
  rw [dataMessage, Message.turnBytes_standing, dataMessage, List.length_append,
    Message.length_cipherSide]
  rfl

/-- What a piece with something in it does, once it is taken. -/
theorem turn_of_takesData {d : Direction} {piece out : ByteString}
    {opened message : Message a.blockLen} (htakes : m.takesData piece.length = .ok c)
    (hsome : piece ≠ [])
    (hopened : (if m.phase = .data then m.message else m.message.foldPending c.encrypt) = opened)
    (hbytes : { opened with dataLen := opened.dataLen + piece.length }.turnBytes c.encrypt d piece =
      (out, message)) :
    m.turn d piece = .done ({ m with phase := .data, message := message }, out) () := by
  have hempty : ¬(piece.isEmpty = true) := fun h => hsome (List.isEmpty_iff.mp h)
  subst hopened
  rw [turn_eq, htakes]
  simp only [if_neg hempty, hbytes]

/-- A piece of the message is masked with the keystream from its place on, and its ciphertext joins
what is there. An empty piece leaves everything as it was. -/
theorem Stands.turn (h : Stands c nonce tagLen aad ciphertext m) (d : Direction)
    (piece : ByteString) (hlen : aad.length + ciphertext.length + piece.length ≤ maxLen a) :
    ∃ m', m.turn d piece = .done (m', piece.mask (keystream c nonce) ciphertext.length) () ∧
      Stands c nonce tagLen aad
        (ciphertext ++ Message.cipherSide d (keystream c nonce) ciphertext.length piece) m' := by
  have htakes := h.takesData piece.length
  rw [if_pos hlen] at htakes
  by_cases hnil : piece = []
  · -- nothing moves, not even the phase
    subst hnil
    rw [Message.cipherSide_nil, List.append_nil]
    refine ⟨m, ?_, h⟩
    rw [turn_eq, htakes]
    rfl
  · have hside := Message.length_cipherSide d (keystream c nonce) ciphertext.length piece
    have hne : ciphertext ++ Message.cipherSide d (keystream c nonce) ciphertext.length piece ≠
        [] := List.append_ne_nil_of_right_ne_nil _ (Message.cipherSide_ne_nil hnil _ _ _)
    have hturn := turn_of_takesData htakes hnil h.opened
      (turnBytes_dataMessage (ciphertext.length + piece.length) d piece)
    refine ⟨_, hturn, h.cipher, h.tagLen, ?_, ?_⟩
    · rw [if_neg hne]
    · rw [messageAfter, if_neg hne, List.length_append, hside]

/-- A piece that would outgrow the bound is refused before any of its bytes is touched. -/
theorem Stands.turn_refused (h : Stands c nonce tagLen aad ciphertext m) (d : Direction)
    (piece : ByteString) (hlen : maxLen a < aad.length + ciphertext.length + piece.length) :
    m.turn d piece = .refused (m, piece) .dataTooLarge := by
  rw [turn_eq, h.takesData, if_neg (Nat.not_le_of_lt hlen)]

/-- The tag of a session is that of its associated data and its ciphertext. -/
theorem Stands.finalize (h : Stands c nonce tagLen aad ciphertext m) :
    m.finalize.answer = .ok (fullTag c nonce aad ciphertext) := by
  have hclose : m.message.close c.encrypt = fullTag c nonce aad ciphertext := by
    rw [h.message, messageAfter]
    by_cases hnil : ciphertext = []
    · rw [if_pos hnil, Message.close_standing, hnil, List.nil_append]
      rw [fullTag, Message.authenticated, ByteString.paddedBlocks_nil a.blockLen_pos,
        List.append_nil]
      rfl
    · rw [if_neg hnil, dataMessage, Message.close_standing]
      rfl
  rw [finalize_eq, h.openFor h.phase_takesData]
  exact congrArg Except.ok hclose

theorem Stands.finish (h : Stands c nonce tagLen aad ciphertext m) :
    m.finish.answer = .ok (.ofBlock (fullTag c nonce aad ciphertext) tagLen) := by
  rw [Mgm.finish, Outcome.judge, h.finalize, h.tagLen]
  rfl

theorem verify_ofBlock {n : Nat} (block : Bytes n) (expected : ByteString) :
    (Tag.ofBlock block expected.length).verify expected = true ↔
      expected = block.toList.take expected.length :=
  Tag.verify_iff _ expected

theorem Stands.verify (h : Stands c nonce tagLen aad ciphertext m) {expected : ByteString}
    (hbounds : Bounds.tagLen a expected.length = .ok ()) :
    (m.verify expected).answer =
      if expected = (fullTag c nonce aad ciphertext).toList.take expected.length then .ok ()
      else .error .authenticationFailed := by
  have hjudge : (m.verify expected).answer =
      if (Tag.ofBlock (fullTag c nonce aad ciphertext) expected.length).verify expected then .ok ()
      else .error .authenticationFailed := by
    rw [Mgm.verify, hbounds, Outcome.judge, h.finalize]
    rfl
  have hright := verify_ofBlock (fullTag c nonce aad ciphertext) expected
  by_cases heq : expected = (fullTag c nonce aad ciphertext).toList.take expected.length
  · rw [hjudge, if_pos heq, if_pos (hright.mpr heq)]
  · rw [hjudge, if_neg heq, if_neg fun h => heq (hright.mp h)]

/-! ## 4. Sessions -/

/-- The calls that may come before the message: associated data, and pieces of the message with
nothing in them. -/
def Call.opens : Call → Bool
  | .updateAad _ => true
  | .encrypt data | .decrypt data => data.isEmpty
  | _ => false

def Call.associated : Call → ByteString
  | .updateAad aad => aad
  | _ => []

theorem Stands.step_opens (h : Stands c nonce tagLen aad [] m) {call : Call}
    (hcall : call.opens = true) (hlen : aad.length + call.associated.length ≤ maxLen a) :
    ∃ m', step m call = .done (m', []) none ∧
      Stands c nonce tagLen (aad ++ call.associated) [] m' := by
  have hempty : ∀ d, ∃ m', m.turn d [] = .done (m', []) () ∧
      Stands c nonce tagLen (aad ++ []) [] m' := by
    intro d
    have hbound : aad.length + ([] : ByteString).length + ([] : ByteString).length ≤ maxLen a :=
      Nat.le_of_add_right_le hlen
    obtain ⟨m', hturn, hstands⟩ := h.turn d [] hbound
    rw [Message.cipherSide_nil] at hstands
    exact ⟨m', hturn, by rwa [List.append_nil]⟩
  cases call with
  | updateAad piece =>
    obtain ⟨m', hupdate, hstands⟩ := h.updateAad piece hlen
    refine ⟨m', ?_, hstands⟩
    rw [step, hupdate]
    rfl
  | encrypt data =>
    obtain rfl : data = [] := List.isEmpty_iff.mp hcall
    obtain ⟨m', hturn, hstands⟩ := hempty .encrypting
    refine ⟨m', ?_, hstands⟩
    rw [step, Mgm.encrypt, hturn]
    rfl
  | decrypt data =>
    obtain rfl : data = [] := List.isEmpty_iff.mp hcall
    obtain ⟨m', hturn, hstands⟩ := hempty .decrypting
    refine ⟨m', ?_, hstands⟩
    rw [step, Mgm.decrypt, hturn]
    rfl
  | setKey _ | setIv _ | finish | verify _ | setTagLen _ =>
    exact absurd hcall (by simp [Call.opens])

/-- All of the associated data, however it is cut. -/
theorem Stands.goesThrough_opens (h : Stands c nonce tagLen aad [] m) (opening : List Call)
    (hopening : ∀ call ∈ opening, call.opens = true)
    (hlen : aad.length + (opening.flatMap Call.associated).length ≤ maxLen a) :
    ∃ m', GoesThrough step m opening [] m' ∧
      Stands c nonce tagLen (aad ++ opening.flatMap Call.associated) [] m' := by
  induction opening generalizing aad m with
  | nil => exact ⟨m, GoesThrough.nil m, by simpa using h⟩
  | cons call opening ih =>
    rw [List.flatMap_cons, List.length_append] at hlen
    obtain ⟨m₁, hstep, hstands⟩ := h.step_opens (hopening call (List.mem_cons_self ..))
      (by omega)
    obtain ⟨m', hgo, hend⟩ := ih hstands
      (fun next hnext => hopening next (List.mem_cons_of_mem _ hnext))
      (by rw [List.length_append]; omega)
    refine ⟨m', GoesThrough.cons hstep hgo, ?_⟩
    rwa [List.flatMap_cons, ← List.append_assoc]

/-- The call that turns a piece of the message one way or the other. -/
def Call.turning : Direction → ByteString → Call
  | .encrypting, data => .encrypt data
  | .decrypting, data => .decrypt data

theorem step_turning (m : Mgm a) (d : Direction) (data : ByteString) :
    step m (.turning d data) = .ofBuffer (m.turn d data) := by
  cases d with
  | encrypting => rfl
  | decrypting => rfl

/-- All of the message, however it is cut and whichever way it goes. -/
theorem Stands.goesThrough_turning (h : Stands c nonce tagLen aad ciphertext m) (d : Direction)
    (pieces : List ByteString)
    (hlen : aad.length + ciphertext.length + pieces.flatten.length ≤ maxLen a) :
    ∃ m', GoesThrough step m (pieces.map (.turning d))
        (ByteString.mask (keystream c nonce) ciphertext.length pieces.flatten) m' ∧
      Stands c nonce tagLen aad
        (ciphertext ++
          Message.cipherSide d (keystream c nonce) ciphertext.length pieces.flatten) m' := by
  induction pieces generalizing ciphertext m with
  | nil =>
    refine ⟨m, GoesThrough.nil m, ?_⟩
    rwa [List.flatten_nil, Message.cipherSide_nil, List.append_nil]
  | cons piece pieces ih =>
    have hside := Message.length_cipherSide d (keystream c nonce) ciphertext.length piece
    rw [List.flatten_cons, List.length_append] at hlen
    obtain ⟨m₁, hturn, hstands⟩ := h.turn d piece (by omega)
    have hcall : step m (.turning d piece) =
        .done (m₁, piece.mask (keystream c nonce) ciphertext.length) none := by
      rw [step_turning, hturn]
      rfl
    obtain ⟨m', hgo, hend⟩ := ih hstands (by rw [List.length_append, hside]; omega)
    rw [List.length_append, hside] at hgo hend
    rw [List.flatten_cons, ByteString.mask_append, Message.cipherSide_append, ← List.append_assoc]
    exact ⟨m', GoesThrough.cons hcall hgo, hend⟩

theorem Stands.goesThrough_encrypt (h : Stands c nonce tagLen aad ciphertext m)
    (pieces : List ByteString)
    (hlen : aad.length + ciphertext.length + pieces.flatten.length ≤ maxLen a) :
    ∃ m', GoesThrough step m (pieces.map .encrypt)
        (ByteString.mask (keystream c nonce) ciphertext.length pieces.flatten) m' ∧
      Stands c nonce tagLen aad
        (ciphertext ++
          ByteString.mask (keystream c nonce) ciphertext.length pieces.flatten) m' :=
  h.goesThrough_turning .encrypting pieces hlen

theorem Stands.goesThrough_decrypt (h : Stands c nonce tagLen aad ciphertext m)
    (pieces : List ByteString)
    (hlen : aad.length + ciphertext.length + pieces.flatten.length ≤ maxLen a) :
    ∃ m', GoesThrough step m (pieces.map .decrypt)
        (ByteString.mask (keystream c nonce) ciphertext.length pieces.flatten) m' ∧
      Stands c nonce tagLen aad (ciphertext ++ pieces.flatten) m' :=
  h.goesThrough_turning .decrypting pieces hlen

/-- **The law of the authenticated mode.** A context with a key is given a nonce, associated data in
any pieces, and a message in any pieces, and together they keep within the bound of the mode. Then
all calls go through, the buffers hold the masked message, and the end gives the first bytes of the
tag that the definition gives to the associated data and the ciphertext. -/
theorem seal_eq_definition (c : Cipher a) (m : Mgm a) (hcipher : m.cipher = some c)
    (nonce : Block a) (opening : List Call) (hopening : ∀ call ∈ opening, call.opens = true)
    (pieces : List ByteString)
    (hlen : (opening.flatMap Call.associated).length + pieces.flatten.length ≤ maxLen a) :
    let aad := opening.flatMap Call.associated
    let ciphertext := ByteString.mask (keystream c nonce) 0 pieces.flatten
    ∃ m', GoesThrough step m (.setIv nonce.toList :: (opening ++ pieces.map .encrypt))
        ciphertext m' ∧
      (step m' .finish).answer =
        .ok (some (.ofBlock (fullTag c nonce aad ciphertext) m.tagLen)) := by
  have hset : step m (.setIv nonce.toList) = .done (m.begin c nonce, []) none := by
    rw [step, setIv, Mgm.keyed, hcipher, Bytes.read_toList]
    rfl
  obtain ⟨m₁, hopened, hstands⟩ :=
    (Stands.begin hcipher nonce).goesThrough_opens opening hopening
      (by rw [List.length_nil]; omega)
  obtain ⟨m', hpieces, hend⟩ := hstands.goesThrough_encrypt pieces (by
    rw [List.nil_append, List.length_nil]
    omega)
  refine ⟨m', GoesThrough.cons hset (hopened.append hpieces), ?_⟩
  rw [step, StepOutcome.ofTag, hend.finish]
  rfl

/-- A session with a call that is empty before the associated data ends, and one inside the
message. -/
theorem seal_gost89_in_pieces :
    let c := Cipher.gost89OfKey (.zero 32) default
    let ciphertext := ByteString.mask (keystream c (.zero 8)) 0 [4, 5, 6]
    ∃ m', GoesThrough step (ofCipher c)
        [.setIv (List.replicate 8 0), .updateAad [1, 2], .decrypt [], .updateAad [3],
          .encrypt [4, 5], .encrypt [], .encrypt [6]] ciphertext m' ∧
      (step m' .finish).answer =
        .ok (some (.ofBlock (fullTag c (.zero 8) [1, 2, 3] ciphertext) 8)) :=
  seal_eq_definition (Cipher.gost89OfKey (.zero 32) default)
    (ofCipher (Cipher.gost89OfKey (.zero 32) default)) rfl (.zero 8)
    [.updateAad [1, 2], .decrypt [], .updateAad [3]] (by decide) [[4, 5], [], [6]] (by decide)

end Mgm

end GostSuite

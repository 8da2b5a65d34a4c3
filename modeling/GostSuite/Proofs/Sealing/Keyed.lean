import GostSuite.Sealing.Mgm

/-!
# Contexts with a key

Whatever encrypts a block looks the key up first, and may be refused for want of it. A call that
takes bytes has asked for the key before it takes the first of them, and no step takes a key away.
So a context with a key is never refused in the midst of its work, and what its steps do is a
function of the message and the cipher alone. These functions are here: a message that absorbs
bytes, that turns them, and that closes.

`updateAad_eq`, `turn_eq` and `finalize_eq` put the calls together again from a check and such a
function. A call is refused by the check, with nothing changed, or it does all of its work.
-/

set_option autoImplicit false

namespace GostSuite

namespace Mgm

/-! ## 1. Messages under a cipher -/

namespace Message

variable {n : Nat}

def foldPending (encrypt : Bytes n → Bytes n) (m : Message n) : Message n :=
  if m.pending.isEmpty then m else (m.fold encrypt (.padded n m.pending)).clearPending

def fill (encrypt : Bytes n → Bytes n) (m : Message n) (data : ByteString) : Message n :=
  let pending := m.pending ++ data.take m.room
  if h : pending.length < n then { m with pending := pending, length_pending := h }
  else (m.fold encrypt (.padded n pending)).clearPending

def absorb (encrypt : Bytes n → Bytes n) (m : Message n) (data : ByteString) : Message n :=
  if _h : data = [] then m
  else absorb encrypt (m.fill encrypt data) (data.drop m.room)
termination_by data.length
decreasing_by
  have := m.length_pending
  have := List.length_pos_iff.mpr _h
  simp only [List.length_drop, room]
  omega

def takeAad (encrypt : Bytes n → Bytes n) (m : Message n) (aad : ByteString) : Message n :=
  { m with aadLen := m.aadLen + aad.length }.absorb encrypt aad

def refill (encrypt : Bytes n → Bytes n) (m : Message n) : Message n :=
  if m.pending.isEmpty then m.nextKeystream encrypt else m

def turnByte (encrypt : Bytes n → Bytes n) (d : Direction) (m : Message n) (b : UInt8) :
    UInt8 × Message n :=
  let m := m.refill encrypt
  let out := b ^^^ m.keystreamByte
  (out, m.fill encrypt [d.cipherByte b out])

def turnBytes (encrypt : Bytes n → Bytes n) (d : Direction) (m : Message n) :
    ByteString → ByteString × Message n
  | [] => ([], m)
  | b :: data =>
    let (out, m) := m.turnByte encrypt d b
    let (more, m) := turnBytes encrypt d m data
    (out :: more, m)

/-- The whole tag: the encrypted sum of all blocks. -/
def close (encrypt : Bytes n → Bytes n) (m : Message n) : Bytes n :=
  let m := m.foldPending encrypt
  encrypt (m.fold encrypt m.lengthBlock).sum

end Message

/-! ## 2. Steps of a context with a key -/

variable {a : Algorithm} {m : Mgm a} {c : Cipher a}

theorem keyed_eq (h : m.cipher = some c) : m.keyed = .ok c := by
  rw [keyed, h]

theorem fold_eq (h : m.cipher = some c) (block : Block a) :
    m.fold block = .done { m with message := m.message.fold c.encrypt block } () := by
  rw [Mgm.fold, keyed_eq h]

theorem foldFor_eq (h : m.cipher = some c) (pending : ByteString) :
    m.foldFor pending =
      .done { m with
        message := (m.message.fold c.encrypt (.padded a.blockLen pending)).clearPending } () := by
  rw [foldFor, fold_eq h]
  rfl

theorem foldPending_eq (h : m.cipher = some c) :
    m.foldPending = .done { m with message := m.message.foldPending c.encrypt } () := by
  rw [Mgm.foldPending, Message.foldPending]
  split
  · rfl
  · exact foldFor_eq h _

theorem fill_eq (h : m.cipher = some c) (data : ByteString) :
    m.fill data = .done { m with message := m.message.fill c.encrypt data } () := by
  simp only [Mgm.fill, Message.fill]
  split
  · rfl
  · exact foldFor_eq h _

theorem absorb_eq {m : Mgm a} (h : m.cipher = some c) (data : ByteString) :
    m.absorb data = .done { m with message := m.message.absorb c.encrypt data } () := by
  rw [Mgm.absorb, Message.absorb]
  by_cases hdata : data = []
  · rw [dif_pos hdata, dif_pos hdata]
  · have hlen := List.length_pos_iff.mpr hdata
    have hroom := m.message.length_pending
    rw [dif_neg hdata, dif_neg hdata, fill_eq h, Outcome.done_andThen]
    -- the key is where it was, and the rest of the bytes finds it there
    exact absorb_eq (m := { m with message := m.message.fill c.encrypt data }) h _
termination_by data.length
decreasing_by
  simp only [List.length_drop, Message.room]
  omega

theorem refill_eq (h : m.cipher = some c) :
    m.refill = .done { m with message := m.message.refill c.encrypt } () := by
  rw [Mgm.refill, Message.refill, keyed_eq h]
  split <;> rfl

theorem turnByte_eq (h : m.cipher = some c) (d : Direction) (b : UInt8) :
    m.turnByte d b =
      .done ({ m with message := (m.message.turnByte c.encrypt d b).2 },
        (m.message.turnByte c.encrypt d b).1) () := by
  have hfill := fill_eq (m := { m with message := m.message.refill c.encrypt }) h
  simp only [Mgm.turnByte, refill_eq h, Outcome.done, hfill]
  rfl

theorem turnBytes_eq (h : m.cipher = some c) (d : Direction) (data : ByteString) :
    m.turnBytes d data =
      .done ({ m with message := (m.message.turnBytes c.encrypt d data).2 },
        (m.message.turnBytes c.encrypt d data).1) () := by
  induction data generalizing m with
  | nil => rfl
  | cons b data ih =>
    have hrest := ih (m := { m with message := (m.message.turnByte c.encrypt d b).2 }) h
    simp only [Mgm.turnBytes, turnByte_eq h, Outcome.done, hrest]
    rfl

/-! ## 3. Calls -/

theorem openFor_keyed (hcipher : m.cipher = some c) (wanted : Phase → Bool) :
    m.openFor wanted = if wanted m.phase then .ok c else .error .badOrder := by
  rw [Mgm.openFor, Mgm.keyed, hcipher]
  change (if (!wanted m.phase) = true then _ else _) = _
  cases wanted m.phase with
  | true => rfl
  | false => rfl

theorem openFor_unkeyed (hcipher : m.cipher = none) (wanted : Phase → Bool) :
    m.openFor wanted = .error .keyNotSet := by
  rw [Mgm.openFor, Mgm.keyed, hcipher]
  rfl

theorem cipher_of_openFor {wanted : Phase → Bool} (h : m.openFor wanted = .ok c) :
    m.cipher = some c := by
  cases hcipher : m.cipher with
  | none =>
    rw [openFor_unkeyed hcipher] at h
    cases h
  | some c' =>
    rw [openFor_keyed hcipher] at h
    split at h
    · rw [Except.ok.inj h]
    · cases h

/-- Associated data and the message are checked alike, but for the phases. -/
theorem cipher_of_taken {wanted : Phase → Bool} {len : Nat}
    (h : (do let c ← m.openFor wanted; m.reserve len; return c) = .ok c) : m.cipher = some c := by
  obtain ⟨c', hopen, h⟩ := bind_eq_ok_iff.mp h
  obtain ⟨⟨⟩, -, h⟩ := bind_eq_ok_iff.mp h
  obtain rfl := Except.ok.inj h
  exact cipher_of_openFor hopen

/-- **Associated data is refused by the check, or absorbed as a whole.** -/
theorem updateAad_eq (m : Mgm a) (aad : ByteString) :
    m.updateAad aad =
      match m.takesAad aad.length with
      | .error e => .refused m e
      | .ok c => .done { m with phase := .aad, message := m.message.takeAad c.encrypt aad } () := by
  rw [updateAad]
  cases htakes : m.takesAad aad.length with
  | error e => rfl
  | ok c =>
    have hcipher : m.cipher = some c := cipher_of_taken htakes
    let message := { m.message with aadLen := m.message.aadLen + aad.length }
    exact absorb_eq (m := { m with phase := .aad, message := message }) hcipher aad

theorem openData_eq (h : m.cipher = some c) :
    m.openData =
      .done { m with
        phase := .data
        message := if m.phase = .data then m.message else m.message.foldPending c.encrypt } () := by
  rw [openData]
  split
  · next hphase => rw [← hphase]
  · rw [foldPending_eq h, Outcome.done_andThen]

/-- **A piece of the message is refused by the check, or turned as a whole.** -/
theorem turn_eq (m : Mgm a) (d : Direction) (data : ByteString) :
    m.turn d data =
      match m.takesData data.length with
      | .error e => .refused (m, data) e
      | .ok c =>
        if data.isEmpty then .done (m, data) ()
        else
          let message := if m.phase = .data then m.message else m.message.foldPending c.encrypt
          let turned :=
            { message with dataLen := message.dataLen + data.length }.turnBytes c.encrypt d data
          .done ({ m with phase := .data, message := turned.2 }, turned.1) () := by
  rw [turn]
  cases htakes : m.takesData data.length with
  | error e => rfl
  | ok c =>
    have hcipher : m.cipher = some c := cipher_of_taken htakes
    simp only [openData_eq hcipher, Outcome.done]
    split
    · rfl
    · let message := if m.phase = .data then m.message else m.message.foldPending c.encrypt
      exact turnBytes_eq (m := { m with
        phase := .data
        message := { message with dataLen := message.dataLen + data.length } }) hcipher d data

/-- **A tag is refused by the check, or it ends the message.** -/
theorem finalize_eq (m : Mgm a) :
    m.finalize =
      match m.openFor Phase.takesData with
      | .error e => .refused m e
      | .ok c =>
        .done { m with phase := .finalized, message := .blank a.blockLen }
          (m.message.close c.encrypt) := by
  rw [finalize]
  cases hopen : m.openFor Phase.takesData with
  | error e => rfl
  | ok c =>
    have hcipher := cipher_of_openFor hopen
    have hfold := fold_eq (m := { m with message := m.message.foldPending c.encrypt }) hcipher
    simp only [foldPending_eq hcipher, Outcome.done_andThen, hfold]
    rw [Mgm.keyed]
    simp only [hcipher]
    rfl

end Mgm

end GostSuite

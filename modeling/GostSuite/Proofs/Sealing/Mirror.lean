import GostSuite.Proofs.Sealing.Reachable

/-!
# Both directions and any pieces

A context encrypts and decrypts with the same step. The byte that goes in and the byte that comes
out change places, and what joins the sum is the same one of the two: the byte that comes out of an
encryption is the one that goes into a decryption. So the two directions undo each other on the
bytes and agree on everything else (`turnBytes_opposite`), from wherever a message stands, be it in
the midst of a block, before the associated data is closed, or after pieces of either direction.

A piece can be cut anywhere (`turnBytes_append`). The one thing that is not done byte by byte is
counting: the length of a piece is counted before its first byte is turned, and the turning does not
look at the count (`turnBytes_counted`).

Nothing here is about contexts that have been reached. The steps do not need to know how a context
came about, so the laws hold of every one.
-/

set_option autoImplicit false

namespace GostSuite

namespace Mgm

/-! ## 1. Messages, turned one way and the other -/

/-- The other way. -/
def Direction.opposite : Direction → Direction
  | encrypting => decrypting
  | decrypting => encrypting

/-- The byte of the ciphertext is the same one when the bytes change places. -/
theorem Direction.cipherByte_opposite (d : Direction) (input output : UInt8) :
    d.opposite.cipherByte output input = d.cipherByte input output := by
  cases d with
  | encrypting => rfl
  | decrypting => rfl

namespace Message

variable {n : Nat} {encrypt : Bytes n → Bytes n}

/-- What one direction makes of a byte, the other makes that byte of. The messages they leave are
the same. -/
theorem turnByte_opposite {d : Direction} {m m' : Message n} {b out : UInt8}
    (h : m.turnByte encrypt d b = (out, m')) :
    m.turnByte encrypt d.opposite out = (b, m') := by
  rw [turnByte] at h
  obtain ⟨rfl, rfl⟩ := Prod.mk.inj h
  have hback : b ^^^ (m.refill encrypt).keystreamByte ^^^ (m.refill encrypt).keystreamByte = b := by
    rw [UInt8.xor_assoc, UInt8.xor_self, UInt8.xor_zero]
  simp only [turnByte, hback, Direction.cipherByte_opposite]

theorem turnBytes_cons {d : Direction} {m : Message n} {b : UInt8} {data : ByteString} :
    m.turnBytes encrypt d (b :: data) =
      ((m.turnByte encrypt d b).1 :: ((m.turnByte encrypt d b).2.turnBytes encrypt d data).1,
        ((m.turnByte encrypt d b).2.turnBytes encrypt d data).2) := rfl

theorem length_turnBytes (d : Direction) (m : Message n) (data : ByteString) :
    (m.turnBytes encrypt d data).1.length = data.length := by
  induction data generalizing m with
  | nil => rfl
  | cons b data ih => rw [turnBytes_cons, List.length_cons, List.length_cons, ih]

/-- **Each direction undoes the other**, and leaves the same message. -/
theorem turnBytes_opposite {d : Direction} {m m' : Message n} {data out : ByteString}
    (h : m.turnBytes encrypt d data = (out, m')) :
    m.turnBytes encrypt d.opposite out = (data, m') := by
  induction data generalizing m out with
  | nil =>
    obtain ⟨rfl, rfl⟩ := Prod.mk.inj h
    rfl
  | cons b data ih =>
    rw [turnBytes_cons] at h
    obtain ⟨rfl, hrest⟩ := Prod.mk.inj h
    -- both directions go on with one message, so the rest of the bytes is turned back in it
    have hbyte : m.turnByte encrypt d.opposite (m.turnByte encrypt d b).1 =
        (b, (m.turnByte encrypt d b).2) := turnByte_opposite rfl
    rw [turnBytes_cons, hbyte, ih (Prod.ext rfl hrest)]

/-! ## 2. Messages, turned in pieces -/

/-- A piece of the message goes on where the one before it stopped. -/
theorem turnBytes_append (d : Direction) (m : Message n) (s t : ByteString) :
    m.turnBytes encrypt d (s ++ t) =
      ((m.turnBytes encrypt d s).1 ++ ((m.turnBytes encrypt d s).2.turnBytes encrypt d t).1,
        ((m.turnBytes encrypt d s).2.turnBytes encrypt d t).2) := by
  induction s generalizing m with
  | nil => rfl
  | cons b s ih => rw [List.cons_append, turnBytes_cons, ih, turnBytes_cons, List.cons_append]

/-- Counts `len` more bytes of the message. -/
def counted (m : Message n) (len : Nat) : Message n := { m with dataLen := m.dataLen + len }

theorem counted_counted (m : Message n) (len more : Nat) :
    (m.counted len).counted more = m.counted (len + more) := by
  rw [counted, counted, counted, Nat.add_assoc]

theorem refill_counted (m : Message n) (len : Nat) :
    (m.counted len).refill encrypt = (m.refill encrypt).counted len := by
  rw [refill, refill]
  change (if m.pending.isEmpty then (m.counted len).nextKeystream encrypt else m.counted len) = _
  split <;> rfl

theorem fill_counted (m : Message n) (len : Nat) (data : ByteString) :
    (m.counted len).fill encrypt data = (m.fill encrypt data).counted len := by
  by_cases h : (m.pending ++ data.take m.room).length < n
  · rw [fill, fill, dif_pos h]
    exact dif_pos h
  · rw [fill, fill, dif_neg h]
    exact dif_neg h

theorem turnByte_counted (d : Direction) (m : Message n) (len : Nat) (b : UInt8) :
    (m.counted len).turnByte encrypt d b =
      ((m.turnByte encrypt d b).1, (m.turnByte encrypt d b).2.counted len) := by
  simp only [turnByte, refill_counted, fill_counted]
  rfl

/-- Turning does not look at the count. -/
theorem turnBytes_counted (d : Direction) (m : Message n) (len : Nat) (data : ByteString) :
    (m.counted len).turnBytes encrypt d data =
      ((m.turnBytes encrypt d data).1, (m.turnBytes encrypt d data).2.counted len) := by
  induction data generalizing m with
  | nil => rfl
  | cons b data ih => rw [turnBytes_cons, turnByte_counted, ih, turnBytes_cons]

/-- What the bound of the mode is about. -/
def total (m : Message n) : Nat := m.aadLen + m.dataLen

theorem total_counted (m : Message n) (len : Nat) : (m.counted len).total = m.total + len :=
  (Nat.add_assoc ..).symm

theorem total_refill (m : Message n) : (m.refill encrypt).total = m.total := by
  rw [refill]
  split <;> rfl

theorem total_fill (m : Message n) (data : ByteString) :
    (m.fill encrypt data).total = m.total := by
  rw [fill]
  split <;> rfl

theorem total_foldPending (m : Message n) : (m.foldPending encrypt).total = m.total := by
  rw [foldPending]
  split <;> rfl

theorem total_turnBytes (d : Direction) (m : Message n) (data : ByteString) :
    (m.turnBytes encrypt d data).2.total = m.total := by
  induction data generalizing m with
  | nil => rfl
  | cons b data ih => rw [turnBytes_cons, ih, turnByte, total_fill, total_refill]

end Message

/-! ## 3. A piece that is taken -/

variable {a : Algorithm} {m : Mgm a} {c : Cipher a}

/-- The message that the bytes of a piece find: the first of them closes the associated data. -/
def opened (m : Mgm a) (c : Cipher a) : Message a.blockLen :=
  if m.phase = .data then m.message else m.message.foldPending c.encrypt

/-- The context and the bytes after a piece that is taken. -/
def turned (m : Mgm a) (c : Cipher a) (d : Direction) (data : ByteString) : Mgm a × ByteString :=
  if data = [] then (m, [])
  else
    let o := ((m.opened c).counted data.length).turnBytes c.encrypt d data
    ({ m with phase := .data, message := o.2 }, o.1)

theorem turn_taken {data : ByteString} (h : m.takesData data.length = .ok c) (d : Direction) :
    m.turn d data = .done (m.turned c d data) () := by
  rw [turn_eq, h]
  cases data with
  | nil => rfl
  | cons b data => rfl

theorem turn_eq_done_iff {d : Direction} {data : ByteString} {after : Mgm a × ByteString} :
    m.turn d data = .done after () ↔
      ∃ c, m.takesData data.length = .ok c ∧ m.turned c d data = after := by
  cases htakes : m.takesData data.length with
  | error e =>
    rw [turn_eq, htakes]
    exact iff_of_false Outcome.refused_ne_done fun ⟨c, heq, _⟩ => nomatch heq
  | ok c =>
    rw [turn_taken htakes, Outcome.done_inj, and_iff_left rfl]
    constructor
    · intro h
      exact ⟨c, rfl, h⟩
    · rintro ⟨c', heq, h⟩
      rwa [Except.ok.inj heq]

theorem openFor_eq_ok_iff {wanted : Phase → Bool} :
    m.openFor wanted = .ok c ↔ m.cipher = some c ∧ wanted m.phase = true := by
  constructor
  · intro h
    have hcipher := cipher_of_openFor h
    rw [openFor_keyed hcipher, accepted_eq_ok_iff] at h
    exact ⟨hcipher, h.1⟩
  · rintro ⟨hcipher, hphase⟩
    rw [openFor_keyed hcipher, if_pos hphase]

/-- Both kinds of bytes are taken on the same conditions, but for the phases. -/
theorem taken_eq_ok_iff {wanted : Phase → Bool} {len : Nat} :
    (do let c ← m.openFor wanted; m.reserve len; return c) = .ok c ↔
      (m.cipher = some c ∧ wanted m.phase = true) ∧ m.message.total + len ≤ maxLen a := by
  rw [bind_eq_ok_iff, ← openFor_eq_ok_iff]
  constructor
  · rintro ⟨c', hopen, h⟩
    obtain ⟨⟨⟩, hreserve, h⟩ := bind_eq_ok_iff.mp h
    obtain rfl := Except.ok.inj h
    exact ⟨hopen, (accepted_eq_ok_iff.mp hreserve).1⟩
  · rintro ⟨hopen, hlen⟩
    exact ⟨c, hopen, bind_eq_ok_iff.mpr ⟨(), if_pos hlen, rfl⟩⟩

theorem takesData_eq_ok_iff {len : Nat} :
    m.takesData len = .ok c ↔
      (m.cipher = some c ∧ m.phase.takesData = true) ∧ m.message.total + len ≤ maxLen a :=
  taken_eq_ok_iff

theorem turned_nil (d : Direction) : m.turned c d [] = (m, []) := rfl

theorem turned_of_ne {data : ByteString} (h : data ≠ []) (d : Direction) :
    m.turned c d data =
      ({ m with
          phase := .data
          message := (((m.opened c).counted data.length).turnBytes c.encrypt d data).2 },
        (((m.opened c).counted data.length).turnBytes c.encrypt d data).1) := if_neg h

theorem length_turned (d : Direction) (data : ByteString) :
    (m.turned c d data).2.length = data.length := by
  by_cases h : data = []
  · rw [h, turned_nil]
  · rw [turned_of_ne h, Message.length_turnBytes]

theorem turned_opposite {d : Direction} {data out : ByteString} {m' : Mgm a}
    (h : m.turned c d data = (m', out)) : m.turned c d.opposite out = (m', data) := by
  have hlen : out.length = data.length := by rw [← length_turned (m := m) (c := c) d data, h]
  by_cases hnil : data = []
  · subst hnil
    obtain rfl := List.length_eq_zero_iff.mp hlen
    exact h
  · have hout : out ≠ [] := fun hempty => hnil (by
      rw [hempty] at hlen
      exact List.length_eq_zero_iff.mp hlen.symm)
    rw [turned_of_ne hnil] at h
    obtain ⟨rfl, hbytes⟩ := Prod.mk.inj h
    rw [turned_of_ne hout, hlen, Message.turnBytes_opposite (Prod.ext hbytes rfl)]

theorem cipher_turned (d : Direction) (data : ByteString) :
    (m.turned c d data).1.cipher = m.cipher := by
  rw [turned]
  split <;> rfl

theorem phase_turned (d : Direction) (data : ByteString) (h : m.phase.takesData = true) :
    (m.turned c d data).1.phase.takesData = true := by
  rw [turned]
  split
  · exact h
  · rfl

/-- After a piece the context has counted it. -/
theorem total_turned (d : Direction) (data : ByteString) :
    (m.turned c d data).1.message.total = m.message.total + data.length := by
  by_cases h : data = []
  · rw [h]
    rfl
  · rw [turned_of_ne h]
    change ((_ : Message a.blockLen).turnBytes c.encrypt d data).2.total = _
    rw [Message.total_turnBytes, Message.total_counted, opened]
    split
    · rfl
    · rw [Message.total_foldPending]

theorem turned_append (d : Direction) (s t : ByteString) :
    m.turned c d (s ++ t) =
      (((m.turned c d s).1.turned c d t).1,
        (m.turned c d s).2 ++ ((m.turned c d s).1.turned c d t).2) := by
  by_cases hs : s = []
  · rw [hs]
    rfl
  · by_cases ht : t = []
    · rw [ht, List.append_nil, turned_nil, List.append_nil]
    · have hst : s ++ t ≠ [] := fun hnil => hs (List.append_eq_nil_iff.mp hnil).1
      have hopened : ∀ message : Message a.blockLen,
          opened { m with phase := .data, message := message } c = message := fun _ => if_pos rfl
      -- the second piece finds the data open, and its count on top of that of the first
      rw [turned_of_ne hst, turned_of_ne hs, turned_of_ne ht, List.length_append]
      simp only [hopened, Message.turnBytes_counted, Message.counted_counted,
        Message.turnBytes_append]

/-- Two pieces are taken one after the other if and only if they are taken as one. -/
theorem takesData_append (d : Direction) (s t : ByteString) :
    m.takesData (s ++ t).length = .ok c ↔
      m.takesData s.length = .ok c ∧ (m.turned c d s).1.takesData t.length = .ok c := by
  rw [takesData_eq_ok_iff, takesData_eq_ok_iff, takesData_eq_ok_iff, total_turned, cipher_turned,
    List.length_append, ← Nat.add_assoc]
  constructor
  · rintro ⟨hopen, hlen⟩
    exact ⟨⟨hopen, Nat.le_of_add_right_le hlen⟩, ⟨hopen.1, phase_turned d s hopen.2⟩, hlen⟩
  · rintro ⟨⟨hopen, -⟩, -, hlen⟩
    exact ⟨hopen, hlen⟩

/-! ## 4. The two laws -/

theorem turn_opposite {d : Direction} {data out : ByteString} {m' : Mgm a}
    (h : m.turn d data = .done (m', out) ()) :
    m.turn d.opposite out = .done (m', data) () := by
  obtain ⟨c, htakes, hturned⟩ := turn_eq_done_iff.mp h
  have hlen : out.length = data.length := by rw [← length_turned (m := m) (c := c) d data, hturned]
  exact turn_eq_done_iff.mpr ⟨c, by rwa [hlen], turned_opposite hturned⟩

/-- The calls `call` on a context can be cut anywhere: two pieces, one after the other, go through
if and only if the whole does, and then they leave the same context and the same bytes. -/
def Cuts (call : Mgm a → ByteString → Outcome (Mgm a × ByteString) Unit) (m : Mgm a) : Prop :=
  ∀ (s t out : ByteString) (m' : Mgm a), call m (s ++ t) = .done (m', out) () ↔
    ∃ m₁ out₁ out₂, call m s = .done (m₁, out₁) () ∧ call m₁ t = .done (m', out₂) () ∧
      out = out₁ ++ out₂

theorem cuts_turn (m : Mgm a) (d : Direction) : Cuts (fun m => m.turn d) m := by
  intro s t out m'
  simp only [turn_eq_done_iff]
  constructor
  · rintro ⟨c, htakes, hturned⟩
    obtain ⟨hs, ht⟩ := (takesData_append d s t).mp htakes
    rw [turned_append] at hturned
    obtain ⟨rfl, rfl⟩ := Prod.mk.inj hturned
    exact ⟨_, _, _, ⟨c, hs, rfl⟩, ⟨c, ht, rfl⟩, rfl⟩
  · rintro ⟨m₁, out₁, out₂, ⟨c, hs, hfirst⟩, ⟨c', ht, hsecond⟩, rfl⟩
    obtain rfl : (m.turned c d s).1 = m₁ := congrArg Prod.fst hfirst
    -- the second piece finds the cipher of the first
    have hcipher := (takesData_eq_ok_iff.mp ht).1.1
    rw [cipher_turned, (takesData_eq_ok_iff.mp hs).1.1] at hcipher
    obtain rfl := Option.some.inj hcipher
    refine ⟨c, (takesData_append d s t).mpr ⟨hs, ht⟩, ?_⟩
    rw [turned_append, hsecond, hfirst]

/-- **Encryption and decryption mirror each other in every context**, and pieces may be cut
anywhere. Both directions accept the same lengths and refuse the others for the same reason. What
one makes of a piece, the other makes the piece of, and it leaves the same context. -/
theorem turns_mirror (m : Mgm a) :
    (∀ s t : ByteString, s.length = t.length → (m.encrypt s).answer = (m.decrypt t).answer) ∧
      (∀ (plain sealed : ByteString) (m' : Mgm a),
        m.encrypt plain = .done (m', sealed) () ↔ m.decrypt sealed = .done (m', plain) ()) ∧
      Cuts Mgm.encrypt m ∧ Cuts Mgm.decrypt m := by
  refine ⟨?_, fun plain sealed m' => ⟨turn_opposite, turn_opposite⟩, cuts_turn m .encrypting,
    cuts_turn m .decrypting⟩
  intro s t hlen
  rw [Mgm.encrypt, Mgm.decrypt, answer_turn, answer_turn, hlen]

/-- In the midst of a block, with associated data before it and a piece that was decrypted. -/
theorem turns_mirror_kuznyechik :
    let c := Cipher.ofKey .kuznyechik (.zero 32)
    ∃ m, (∃ out, GoesThrough step (ofCipher c)
        [.setIv (List.replicate 16 0), .updateAad [1, 2], .decrypt [3]] out m) ∧
      (m.encrypt [4, 5]).answer = (m.decrypt [6, 7]).answer ∧
      ∃ m' sealed, m.encrypt [4, 5] = .done (m', sealed) () ∧
        m.decrypt sealed = .done (m', [4, 5]) () := by
  intro c
  obtain ⟨m₁, haad, hstands₁⟩ := (Stands.begin (m := ofCipher c) rfl (.zero 16)).goesThrough_opens
    [.updateAad [1, 2]] (by decide) (by decide)
  obtain ⟨m, hdata, hstands⟩ := hstands₁.goesThrough_decrypt [[3]] (by decide)
  obtain ⟨m', hturn, -⟩ := hstands.turn .encrypting [4, 5] (by decide)
  obtain ⟨hanswers, hbytes, -⟩ := turns_mirror m
  have hstart := step_setIv (m := ofCipher c) rfl (.zero 16)
  exact ⟨m, ⟨_, GoesThrough.cons hstart (haad.append hdata)⟩,
    hanswers [4, 5] [6, 7] rfl, m', _, hturn, (hbytes ..).mp hturn⟩

end Mgm

end GostSuite

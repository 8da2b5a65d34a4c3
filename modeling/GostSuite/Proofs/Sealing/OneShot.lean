import GostSuite.Proofs.Sealing.Session
import GostSuite.Sealing.MgmKey

/-!
# Opening is sealing backwards

A key for whole messages runs a session behind one call. So each direction has a closed form in the
masked payload and the tag of the definition (`encrypt_eq`, `decrypt_eq`), and everything that a
caller wants to know is read off the two: what is accepted, what the payload holds afterwards, and
which error says so.

The two directions meet in one fact. Both authenticate the ciphertext, the one that came out and the
one that went in, so the tag that `decrypt` compares with is the tag that `encrypt` gives for the
payload that masking turns into that ciphertext; and masking is its own inverse.
-/

set_option autoImplicit false

namespace GostSuite

namespace MgmKey

variable {a : Algorithm}

/-! ## 1. The session behind a call -/

theorem begin_stands (k : MgmKey a) (nonce : Block a) :
    Mgm.Stands k.cipher nonce k.tagLen [] [] (k.begin nonce) :=
  Mgm.Stands.begin (m := { Mgm.ofCipher k.cipher with tagLen := k.tagLen }) rfl nonce

theorem turn_done (k : MgmKey a) (d : Mgm.Direction) (nonce : Block a) {aad payload : ByteString}
    (hlen : aad.length + payload.length ≤ Mgm.maxLen a) :
    ∃ m, k.turn d nonce aad payload =
        .done (m, payload.mask (Mgm.keystream k.cipher nonce) 0) () ∧
      Mgm.Stands k.cipher nonce k.tagLen aad
        (Mgm.Message.cipherSide d (Mgm.keystream k.cipher nonce) 0 payload) m := by
  have hbegin := k.begin_stands nonce
  obtain ⟨m₁, haad, hopen⟩ := hbegin.updateAad aad (by
    rw [List.length_nil]
    omega)
  obtain ⟨m, hturn, hstands⟩ := hopen.turn d payload (by
    rw [List.nil_append, List.length_nil]
    omega)
  refine ⟨m, ?_, hstands⟩
  rw [turn, haad]
  exact hturn

/-- Too much is refused before a byte of the payload is touched, be it the associated data alone or
the two together. -/
theorem turn_refused (k : MgmKey a) (d : Mgm.Direction) (nonce : Block a)
    {aad payload : ByteString} (hlen : Mgm.maxLen a < aad.length + payload.length) :
    ∃ m, k.turn d nonce aad payload = .refused (m, payload) .dataTooLarge := by
  have hbegin := k.begin_stands nonce
  -- which of the two calls refuses depends on the associated data alone
  by_cases haad : aad.length ≤ Mgm.maxLen a
  · obtain ⟨m₁, hupdate, hopen⟩ := hbegin.updateAad aad (by
      rw [List.length_nil]
      omega)
    have hturn := hopen.turn_refused d payload (by
      rw [List.nil_append, List.length_nil]
      omega)
    refine ⟨m₁, ?_⟩
    rw [turn, hupdate]
    exact hturn
  · have hupdate := hbegin.updateAad_refused aad (by
      rw [List.length_nil]
      omega)
    refine ⟨k.begin nonce, ?_⟩
    rw [turn, hupdate]
    rfl

/-! ## 2. Both directions in closed form -/

/-- Sealing masks the payload and gives the tag of what comes out. -/
theorem encrypt_eq (k : MgmKey a) (nonce : Block a) (aad payload : ByteString) :
    k.encrypt nonce aad payload =
      if aad.length + payload.length ≤ Mgm.maxLen a then
        .done (payload.mask (Mgm.keystream k.cipher nonce) 0)
          (.ofBlock (Mgm.fullTag k.cipher nonce aad
            (payload.mask (Mgm.keystream k.cipher nonce) 0)) k.tagLen)
      else .refused payload .dataTooLarge := by
  by_cases hlen : aad.length + payload.length ≤ Mgm.maxLen a
  · obtain ⟨m, hturn, hstands⟩ := k.turn_done .encrypting nonce hlen
    rw [if_pos hlen, encrypt, hturn]
    change Outcome.mk _ m.finish.answer = _
    rw [hstands.finish]
    rfl
  · obtain ⟨m, hturn⟩ := k.turn_refused .encrypting nonce (Nat.lt_of_not_le hlen)
    rw [if_neg hlen, encrypt, hturn]
    rfl

/-- Opening compares with the tag of what went in, and masks or wipes. -/
theorem decrypt_eq (k : MgmKey a) (nonce : Block a) (aad payload tag : ByteString) :
    k.decrypt nonce aad payload tag =
      if tag.length ≠ k.tagLen then .refused payload (.invalidTagLength tag.length a.blockLen)
      else if aad.length + payload.length ≤ Mgm.maxLen a then
        if tag = (Mgm.fullTag k.cipher nonce aad payload).toList.take tag.length then
          .done (payload.mask (Mgm.keystream k.cipher nonce) 0) ()
        else .refused (List.replicate payload.length 0) .authenticationFailed
      else .refused payload .dataTooLarge := by
  by_cases htag : tag.length = k.tagLen
  · have hbounds : Bounds.tagLen a tag.length = .ok () := by rw [htag, k.tagLen_ok]
    have hgo : ¬(tag.length ≠ k.tagLen) := fun hne => hne htag
    rw [decrypt, if_neg hgo, if_neg hgo]
    by_cases hlen : aad.length + payload.length ≤ Mgm.maxLen a
    · obtain ⟨m, hturn, hstands⟩ := k.turn_done .decrypting nonce hlen
      have hverify := hstands.verify hbounds
      change _ = if tag = (Mgm.fullTag k.cipher nonce aad payload).toList.take tag.length
        then _ else _ at hverify
      rw [if_pos hlen]
      by_cases hright : tag = (Mgm.fullTag k.cipher nonce aad payload).toList.take tag.length
      · rw [if_pos hright] at hverify ⊢
        simp only [hturn, Outcome.done, hverify]
      · rw [if_neg hright] at hverify ⊢
        simp only [hturn, Outcome.done, hverify, ByteString.length_mask]
    · obtain ⟨m, hturn⟩ := k.turn_refused .decrypting nonce (Nat.lt_of_not_le hlen)
      rw [if_neg hlen, hturn]
      rfl
  · rw [decrypt, if_pos htag, if_pos htag]

/-! ## 3. What is opened -/

theorem encrypt_eq_done_iff (k : MgmKey a) (nonce : Block a) (aad payload out : ByteString)
    (tag : Tag) :
    k.encrypt nonce aad payload = .done out tag ↔
      aad.length + payload.length ≤ Mgm.maxLen a ∧
        out = payload.mask (Mgm.keystream k.cipher nonce) 0 ∧
        tag = .ofBlock (Mgm.fullTag k.cipher nonce aad out) k.tagLen := by
  rw [encrypt_eq]
  by_cases hlen : aad.length + payload.length ≤ Mgm.maxLen a
  · rw [if_pos hlen, Outcome.done_inj]
    constructor
    · rintro ⟨rfl, rfl⟩
      exact ⟨hlen, rfl, rfl⟩
    · rintro ⟨-, rfl, rfl⟩
      exact ⟨rfl, rfl⟩
  · rw [if_neg hlen]
    exact iff_of_false Outcome.refused_ne_done fun h => hlen h.1

theorem decrypt_eq_done_iff (k : MgmKey a) (nonce : Block a) (aad payload tag out : ByteString) :
    k.decrypt nonce aad payload tag = .done out () ↔
      tag.length = k.tagLen ∧ aad.length + payload.length ≤ Mgm.maxLen a ∧
        out = payload.mask (Mgm.keystream k.cipher nonce) 0 ∧
        tag = (Mgm.fullTag k.cipher nonce aad payload).toList.take tag.length := by
  rw [decrypt_eq]
  by_cases htag : tag.length = k.tagLen
  · rw [if_neg (not_not_intro htag)]
    by_cases hlen : aad.length + payload.length ≤ Mgm.maxLen a
    · rw [if_pos hlen]
      by_cases hright : tag = (Mgm.fullTag k.cipher nonce aad payload).toList.take tag.length
      · rw [if_pos hright, Outcome.done_inj]
        constructor
        · rintro ⟨rfl, -⟩
          exact ⟨htag, hlen, rfl, hright⟩
        · rintro ⟨-, -, rfl, -⟩
          exact ⟨rfl, rfl⟩
      · rw [if_neg hright]
        exact iff_of_false Outcome.refused_ne_done fun h => hright h.2.2.2
    · rw [if_neg hlen]
      exact iff_of_false Outcome.refused_ne_done fun h => hlen h.2.1
  · rw [if_pos htag]
    exact iff_of_false Outcome.refused_ne_done fun h => htag h.1

/-- **Opening is sealing backwards.** A key opens what it has sealed and nothing else: a payload is
opened to `p` exactly if its tag has the configured length and sealing `p` gives this payload and
this tag. A tag of another length and too much data are refused with the payload as it was; every
other failure is a failure to authenticate, and leaves zeros. Sealing fails for too much data, and
for nothing else. -/
theorem decrypt_iff_encrypt (k : MgmKey a) (nonce : Block a) (aad payload tag : ByteString) :
    (∀ p, k.decrypt nonce aad payload tag = .done p () ↔
      tag.length = k.tagLen ∧ k.encrypt nonce aad p = .done payload ⟨tag⟩) ∧
    (tag.length ≠ k.tagLen →
      k.decrypt nonce aad payload tag =
        .refused payload (.invalidTagLength tag.length a.blockLen)) ∧
    (tag.length = k.tagLen → Mgm.maxLen a < aad.length + payload.length →
      k.decrypt nonce aad payload tag = .refused payload .dataTooLarge) ∧
    (tag.length = k.tagLen → aad.length + payload.length ≤ Mgm.maxLen a →
      (k.decrypt nonce aad payload tag).answer ≠ .ok () →
      k.decrypt nonce aad payload tag =
        .refused (List.replicate payload.length 0) .authenticationFailed) ∧
    (Mgm.maxLen a < aad.length + payload.length →
      k.encrypt nonce aad payload = .refused payload .dataTooLarge) ∧
    (aad.length + payload.length ≤ Mgm.maxLen a →
      ∃ c t, k.encrypt nonce aad payload = .done c t) := by
  refine ⟨fun p => ?_, ?_, ?_, ?_, ?_, ?_⟩
  · rw [decrypt_eq_done_iff, encrypt_eq_done_iff]
    -- masking is its own inverse, so either side knows the other's payload
    constructor
    · rintro ⟨htag, hlen, rfl, hright⟩
      refine ⟨htag, ?_, (ByteString.mask_mask 0 payload).symm, ?_⟩
      · rwa [ByteString.length_mask]
      · rw [Tag.ofBlock, ← htag, ← hright]
    · rintro ⟨htag, hlen, rfl, hright⟩
      refine ⟨htag, ?_, (ByteString.mask_mask 0 p).symm, ?_⟩
      · rwa [ByteString.length_mask]
      · rw [htag]
        exact congrArg Tag.bytes hright
  · intro htag
    rw [decrypt_eq, if_pos htag]
  · intro htag hlen
    rw [decrypt_eq, if_neg (not_not_intro htag), if_neg (Nat.not_le_of_lt hlen)]
  · intro htag hlen hfail
    rw [decrypt_eq, if_neg (not_not_intro htag), if_pos hlen] at hfail ⊢
    by_cases hright : tag = (Mgm.fullTag k.cipher nonce aad payload).toList.take tag.length
    · rw [if_pos hright] at hfail
      exact absurd rfl hfail
    · rw [if_neg hright]
  · intro hlen
    rw [encrypt_eq, if_neg (Nat.not_le_of_lt hlen)]
  · intro hlen
    exact ⟨_, _, by rw [encrypt_eq, if_pos hlen]⟩

end MgmKey

end GostSuite

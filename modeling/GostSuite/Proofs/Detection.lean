import GostSuite.Proofs.Mac.Changed
import GostSuite.Proofs.Sealing.SealedStream
import GostSuite.Proofs.Transport.ExportedKey

/-!
# What whole codes always show

A sealed stream and an exported key are protected in one way: the plain code of the plaintext, then a
keystream over both. Keystreams move no byte, so a change of what is sent is a change of the
plaintext in the same place, or of the code. If the code is a whole block, two kinds of changes cannot
go through, under any keys:

> changes of the code alone, and changes of one block of what the code is made of.

The first kind is plain, because a code is compared with all of its bytes. The second kind is
`Omac.wholeCode_ne`, a law about two messages and one key. Of changes of several blocks nothing is
said; they have to be weighed against the chance of meeting the right code.

An exported key has its initial value before it when the code is made, half a block, so its blocks
begin in the middle of those of the record.
-/

set_option autoImplicit false

namespace GostSuite

open ByteString

variable {a : Algorithm}

/-! ## 1. Sealed streams -/

namespace SealedStream

variable {k : Setup a} {s : SealedStream a}

theorem Setup.tag_ne (k : Setup a) {i : Nat} {message message' : ByteString}
    (hlen : message.length = message'.length) (h : AgreeOutside a.blockLen i message message')
    (hne : message ≠ message') : k.tag a.blockLen message ≠ k.tag a.blockLen message' := by
  intro htag
  rw [Setup.tag, Setup.tag, ← hlen] at htag
  have hcode := mask_injective message.length htag
  rw [List.take_of_length_le (Nat.le_of_eq (Bytes.length_toList _)),
    List.take_of_length_le (Nat.le_of_eq (Bytes.length_toList _))] at hcode
  exact Omac.wholeCode_ne k.mac hlen h hne (Bytes.ext hcode)

/-- Who receives the pieces gets through to the tag, and is given `answer` for it. -/
def Receives (s : SealedStream a) (pieces : List ByteString) (tag : ByteString)
    (answer : Except Error (Option Tag)) : Prop :=
  (∀ o ∈ transcript step s (pieces.map .decrypt), o.answer = .ok none) ∧
    (step (runCalls step s (pieces.map .decrypt)) (.verify tag)).answer = answer

/-- A receiver accepts the tag of the plaintext that he gets, and no other. -/
theorem Reached.receives (h : Reached k a.blockLen [] s) (pieces : List ByteString)
    (tag : ByteString) :
    Receives s pieces tag (if tag = k.tag a.blockLen (mask k.keystream 0 pieces.flatten) then
      .ok none else .error .authenticationFailed) := by
  obtain ⟨r, hgo, hreceived⟩ := h.receive (mask k.keystream 0 pieces.flatten) pieces
    (mask_mask 0 pieces.flatten).symm
  refine ⟨hgo.answers, ?_⟩
  rw [hgo.final, hreceived.answer_verify]

theorem New.reached_whole (h : s.New) (hwhole : s.code.macLen = a.blockLen) :
    ∃ k, Reached k a.blockLen [] s := by
  obtain ⟨k, size, hreached⟩ := h.reached
  obtain rfl : size = a.blockLen := hreached.code.macLen.symm.trans hwhole
  exact ⟨k, hreached⟩

/-- What a sender has sent, and the tag that he got for it. -/
structure Sent (s : SealedStream a) (calls : List Call) (ciphertext tag : ByteString) : Prop where
  pieces : ∀ call ∈ calls, call.turns = true
  ciphertext : ciphertextOf s calls = ciphertext
  tag : (step (runCalls step s calls) .finish).answer = .ok (some ⟨tag⟩)

theorem Reached.sent (h : Reached k a.blockLen [] s) (calls : List Call)
    (hcalls : ∀ call ∈ calls, call.turns = true) :
    Sent s calls (ciphertextOf s calls) (k.tag a.blockLen (plaintextOf s calls)) :=
  ⟨hcalls, rfl, (h.run calls hcalls).2.2.answer_finish⟩

theorem Sent.tag_eq {calls : List Call} {ciphertext tag : ByteString}
    (hsent : Sent s calls ciphertext tag) (h : Reached k a.blockLen [] s) :
    tag = k.tag a.blockLen (ciphertext.mask k.keystream 0) := by
  obtain ⟨-, hsides, hend⟩ := h.run calls hsent.pieces
  have hplain : plaintextOf s calls = ciphertext.mask k.keystream 0 := by
    rw [← hsent.ciphertext, hsides]
    exact (mask_mask 0 _).symm
  rw [List.nil_append, hplain] at hend
  have hanswer := hend.answer_finish.symm.trans hsent.tag
  simp only [Except.ok.injEq, Option.some.injEq, Tag.mk.injEq] at hanswer
  exact hanswer.symm

theorem Sent.accepted {calls : List Call} {ciphertext tag : ByteString}
    (hsent : Sent s calls ciphertext tag) (hnew : s.New) (hwhole : s.code.macLen = a.blockLen)
    {pieces : List ByteString} (hpieces : pieces.flatten = ciphertext) :
    Receives s pieces tag (.ok none) := by
  obtain ⟨k, hreached⟩ := hnew.reached_whole hwhole
  have hreceives := hreached.receives pieces tag
  rwa [hpieces, ← hsent.tag_eq hreached, if_pos rfl] at hreceives

/-- A changed tag is rejected, and so is a ciphertext that is changed in one block. -/
theorem Sent.rejected {calls : List Call} {ciphertext tag : ByteString}
    (hsent : Sent s calls ciphertext tag) (hnew : s.New) (hwhole : s.code.macLen = a.blockLen)
    {pieces : List ByteString} {tag' : ByteString} (hlen : pieces.flatten.length = ciphertext.length)
    (hchanged : pieces.flatten = ciphertext ∧ tag' ≠ tag ∨
      tag' = tag ∧ pieces.flatten ≠ ciphertext ∧
        ∃ i, AgreeOutside a.blockLen i ciphertext pieces.flatten) :
    Receives s pieces tag' (.error .authenticationFailed) := by
  obtain ⟨k, hreached⟩ := hnew.reached_whole hwhole
  have htag := hsent.tag_eq hreached
  have hother : tag' ≠ k.tag a.blockLen (mask k.keystream 0 pieces.flatten) := by
    rcases hchanged with ⟨hsame, hother⟩ | ⟨rfl, hother, i, hagree⟩
    · rw [hsame, ← htag]
      exact hother
    · rw [htag]
      refine k.tag_ne (by rw [length_mask, length_mask, hlen]) (hagree.mask k.keystream 0) ?_
      exact fun hsame => hother (mask_injective 0 hsame).symm
  have hreceives := hreached.receives pieces tag'
  rwa [if_neg hother] at hreceives

end SealedStream

/-! ## 2. Exported keys -/

namespace ExportedKey

variable {cipherKey macKey : Key} {iv key record record' : ByteString}

theorem read_badMac (h : make a key cipherKey macKey iv = .ok record)
    (hlen : record'.length = record.length)
    (hcode : codePart a cipherKey iv record' ≠
      (fullCode a macKey iv (keyPart a cipherKey iv record')).toList) :
    read a record' cipherKey macKey iv = .error .badMac := by
  have hmade := length_of_make h
  rw [recordLen] at hmade
  rw [read_eq, if_neg (by omega), if_pos (make_eq_ok_iff.mp h).1, if_neg hcode]

theorem eq_of_parts (hkey : keyPart a cipherKey iv record = keyPart a cipherKey iv record')
    (hcode : codePart a cipherKey iv record = codePart a cipherKey iv record') :
    record = record' := by
  have hmask : record.mask (keystream a cipherKey iv) 0 =
      record'.mask (keystream a cipherKey iv) 0 := by
    rw [← List.take_append_drop (record.length - a.blockLen) (record.mask _ 0),
      ← List.take_append_drop (record'.length - a.blockLen) (record'.mask _ 0)]
    exact congrArg₂ (· ++ ·) hkey hcode
  exact mask_injective 0 hmask

theorem getElem?_keyPart (hlen : record.length = record'.length) {p : Nat}
    (h : record[p]? = record'[p]?) :
    (keyPart a cipherKey iv record)[p]? = (keyPart a cipherKey iv record')[p]? := by
  rw [keyPart, keyPart, List.getElem?_take, List.getElem?_take, getElem?_mask, getElem?_mask, hlen,
    h]

theorem keyPart_congr (hlen : record.length = record'.length)
    (h : ∀ p < record.length - a.blockLen, record[p]? = record'[p]?) :
    keyPart a cipherKey iv record = keyPart a cipherKey iv record' := by
  apply List.ext_getElem?
  intro p
  by_cases hp : p < record.length - a.blockLen
  · exact getElem?_keyPart hlen (h p hp)
  · rw [keyPart, keyPart, List.getElem?_take, List.getElem?_take, ← hlen, if_neg hp, if_neg hp]

theorem codePart_congr (hlen : record.length = record'.length)
    (h : ∀ p, record.length - a.blockLen ≤ p → record[p]? = record'[p]?) :
    codePart a cipherKey iv record = codePart a cipherKey iv record' := by
  apply List.ext_getElem?
  intro p
  rw [codePart, codePart, List.getElem?_drop, List.getElem?_drop, getElem?_mask, getElem?_mask,
    ← hlen, h _ (Nat.le_add_right _ p)]

/-- A record of the right length is refused if it differs in its code alone, or in one block of what
the code is made of. -/
theorem read_changed (h : make a key cipherKey macKey iv = .ok record)
    (hlen : record'.length = record.length) (hne : record' ≠ record)
    (hchanged : (∀ p < record.length - a.blockLen, record[p]? = record'[p]?) ∨
      ∃ i, ∀ p, ¬(p < key.length ∧ (p + a.halfBlockLen) / a.blockLen = i) →
        record[p]? = record'[p]?) :
    read a record' cipherKey macKey iv = .error .badMac := by
  obtain ⟨hkey, hcode⟩ := parts_of_make h
  have hiv := (make_eq_ok_iff.mp h).1
  have hkeyLen : record.length - a.blockLen = key.length := by
    rw [length_of_make h, recordLen, Nat.add_sub_cancel]
  refine read_badMac h hlen ?_
  rcases hchanged with hagree | ⟨i, hagree⟩
  · -- the key is the old one and has the old code, so the record would be the old one as well
    have hkey' : keyPart a cipherKey iv record' = key :=
      (keyPart_congr hlen.symm hagree).symm.trans hkey
    intro hcode'
    rw [hkey', ← hcode] at hcode'
    exact hne (eq_of_parts (hkey'.trans hkey.symm) hcode')
  · -- the code is the old one, and that of another key
    have hcode' : codePart a cipherKey iv record' = codePart a cipherKey iv record := by
      refine codePart_congr hlen fun p hp => (hagree p fun hin => ?_).symm
      rw [hlen, hkeyLen] at hp
      exact Nat.not_le_of_lt hin.1 hp
    have hkey' : key ≠ keyPart a cipherKey iv record' := by
      intro hsame
      exact hne (eq_of_parts (hsame.symm.trans hkey.symm) hcode')
    have hlengths : (iv ++ key).length = (iv ++ keyPart a cipherKey iv record').length := by
      rw [List.length_append, List.length_append, keyPart, List.length_take, length_mask, hlen,
        hkeyLen, Nat.min_eq_left (by omega)]
    have hblock : AgreeOutside a.blockLen i (iv ++ key)
        (iv ++ keyPart a cipherKey iv record') := by
      refine agreeOutside_append iv fun p hp => ?_
      have hplace : record[p]? = record'[p]? := hagree p fun hin => hp (by rw [hiv, hin.2])
      rw [← hkey]
      exact getElem?_keyPart hlen.symm hplace
    rw [hcode', hcode]
    intro hsame
    exact Omac.wholeCode_ne (.ofKey a macKey) hlengths hblock
      (fun hboth => hkey' (List.append_cancel_left hboth)) (Bytes.ext hsame)

theorem read_flip (h : make a key cipherKey macKey iv = .ok record) {p : Nat} (j : Fin 8)
    (hp : p < record.length) : read a (record.flip p j) cipherKey macKey iv = .error .badMac := by
  refine read_changed h (length_flip record p j) (flip_ne record j hp) ?_
  by_cases hcode : record.length - a.blockLen ≤ p
  · refine .inl fun q hq => (getElem?_flip_of_ne record j ?_).symm
    omega
  · have hmade := length_of_make h
    rw [recordLen] at hmade
    refine .inr ⟨(p + a.halfBlockLen) / a.blockLen, fun q hq =>
      (getElem?_flip_of_ne record j ?_).symm⟩
    rintro rfl
    exact hq ⟨by omega, rfl⟩

end ExportedKey

/-! ## 3. Both -/

/-- **A whole code shows every change of one block.** A message has been sent with a whole tag. Its
receiver accepts the two, in whatever pieces; he rejects the ciphertext with any other tag, and with
its tag any ciphertext of the same length that differs in one block. A key has been exported. It is
read from its record, and not from a record of the same length that differs in its code alone, or in
one block of the initial value and the key. So a single bit that is turned over is never missed,
wherever it is. No key is excepted. -/
theorem changes_detected (a : Algorithm) :
    (∀ (s : SealedStream a) (calls : List SealedStream.Call) (ciphertext tag : ByteString),
      s.New → s.code.macLen = a.blockLen → s.Sent calls ciphertext tag →
        (∀ pieces : List ByteString, pieces.flatten = ciphertext →
          s.Receives pieces tag (.ok none)) ∧
        (∀ (pieces : List ByteString) (tag' : ByteString),
          pieces.flatten.length = ciphertext.length →
          (pieces.flatten = ciphertext ∧ tag' ≠ tag ∨
            tag' = tag ∧ pieces.flatten ≠ ciphertext ∧
              ∃ i, AgreeOutside a.blockLen i ciphertext pieces.flatten) →
          s.Receives pieces tag' (.error .authenticationFailed)) ∧
        (∀ (pieces : List ByteString) (p : Nat) (j : Fin 8), p < ciphertext.length →
          pieces.flatten = ciphertext.flip p j →
          s.Receives pieces tag (.error .authenticationFailed)) ∧
        (∀ (pieces : List ByteString) (p : Nat) (j : Fin 8), p < tag.length →
          pieces.flatten = ciphertext →
          s.Receives pieces (tag.flip p j) (.error .authenticationFailed))) ∧
    (∀ (cipherKey macKey : Key) (iv key record : ByteString),
      ExportedKey.make a key cipherKey macKey iv = .ok record →
        ExportedKey.read a record cipherKey macKey iv = .ok key ∧
        (∀ record' : ByteString, record'.length = record.length → record' ≠ record →
          ((∀ p < record.length - a.blockLen, record[p]? = record'[p]?) ∨
            ∃ i, ∀ p, ¬(p < key.length ∧ (p + a.halfBlockLen) / a.blockLen = i) →
              record[p]? = record'[p]?) →
          ExportedKey.read a record' cipherKey macKey iv = .error .badMac) ∧
        (∀ (p : Nat) (j : Fin 8), p < record.length →
          ExportedKey.read a (record.flip p j) cipherKey macKey iv = .error .badMac)) := by
  constructor
  · intro s calls ciphertext tag hnew hwhole hsent
    refine ⟨fun pieces => hsent.accepted hnew hwhole,
      fun pieces tag' => hsent.rejected hnew hwhole, ?_, ?_⟩
    · intro pieces p j hp hpieces
      refine hsent.rejected hnew hwhole ?_ (.inr ⟨rfl, ?_, p / a.blockLen, ?_⟩)
      · rw [hpieces, length_flip]
      · rw [hpieces]
        exact flip_ne ciphertext j hp
      · rw [hpieces]
        exact agreeOutside_flip a.blockLen ciphertext p j
    · intro pieces p j hp hpieces
      exact hsent.rejected hnew hwhole (by rw [hpieces]) (.inl ⟨hpieces, flip_ne tag j hp⟩)
  · intro cipherKey macKey iv key record hmade
    exact ⟨ExportedKey.read_of_make hmade, fun record' => ExportedKey.read_changed hmade,
      fun p j => ExportedKey.read_flip hmade j⟩

/-- A message of three bytes with the lowest bit of its last byte turned over on its way. -/
theorem changes_detected_magma :
    ∃ (s : SealedStream .magma) (ciphertext tag : ByteString), s.New ∧
      s.Sent [.encrypt [1, 2], .encrypt [3]] ciphertext tag ∧
      s.Receives [ciphertext.flip 2 0] tag (.error .authenticationFailed) := by
  have hmade : ∃ s : SealedStream .magma,
      SealedStream.ofKey .magma (.zero 32) (List.replicate 8 0) [1, 2, 3, 4] 8 = .ok s :=
    SealedStream.derived_ok (.zero 32) rfl (by decide) rfl (by decide)
  obtain ⟨s, hs⟩ := hmade
  obtain ⟨_, _, -, hreached⟩ := SealedStream.reached_of_derived hs
  have hsent := hreached.sent [.encrypt [1, 2], .encrypt [3]] (by decide)
  have hlen : (s.ciphertextOf [.encrypt [1, 2], .encrypt [3]]).length = 3 := by
    rw [(hreached.run [.encrypt [1, 2], .encrypt [3]] (by decide)).2.1, length_mask]
    rfl
  have hnew : s.New := .ofKey hs
  refine ⟨s, _, _, hnew, hsent, ?_⟩
  refine ((changes_detected .magma).1 s _ _ _ hnew hreached.code.macLen hsent).2.2.1 _ 2 0
    (by omega) ?_
  exact List.append_nil _

end GostSuite

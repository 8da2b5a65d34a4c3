import GostSuite.Proofs.Sealing.Counters

/-!
# What is authenticated says what was taken

A tag is made of blocks, and a reader who knows the blocks should know the associated data and the
ciphertext. Filling up with zeros does not give them: a string that ends in zeros has the blocks of
a shorter one, and nothing marks where the associated data ends. The last block settles it. It has
both lengths, and of strings whose lengths are known the blocks lose nothing.

So everything rests on the lengths being there in full. They are counted in bits and written in half
a block each, and what does not fit is lost without a word. The bound of the mode is exactly what
keeps them in.
-/

set_option autoImplicit false

namespace GostSuite

namespace Mgm

/-! ## 1. Reading the blocks back -/

namespace Message

variable {n : Nat} {aad aad' ciphertext ciphertext' : ByteString}

/-- Both lengths are read back from the block that has them, if their bits fit. -/
theorem lengths_inj {x y x' y' : Nat} (hx : 8 * x < 256 ^ (n / 2)) (hy : 8 * y < 256 ^ (n / 2))
    (hx' : 8 * x' < 256 ^ (n / 2)) (hy' : 8 * y' < 256 ^ (n / 2))
    (h : lengths n x y = lengths n x' y') : x = x' ∧ y = y' := by
  have hfits : ∀ v w,
      (ByteString.bigEndian (n / 2) v ++ ByteString.bigEndian (n / 2) w).length ≤ n := by
    intro v w
    rw [List.length_append, ByteString.length_bigEndian, ByteString.length_bigEndian]
    omega
  have hlist := Bytes.padded_injOn (by simp) h
  rw [List.take_of_length_le (hfits _ _), List.take_of_length_le (hfits _ _)] at hlist
  obtain ⟨hfirst, hsecond⟩ := List.append_inj hlist (by simp)
  have hbits := ByteString.bigEndian_injOn hx hx' hfirst
  have hbits' := ByteString.bigEndian_injOn hy hy' hsecond
  exact ⟨by omega, by omega⟩

variable [BlockSize n]

/-- **The blocks of a tag belong to one pair of strings**, as long as the lengths fit. -/
theorem authenticated_inj (haad : 8 * aad.length < 256 ^ (n / 2))
    (hciphertext : 8 * ciphertext.length < 256 ^ (n / 2))
    (haad' : 8 * aad'.length < 256 ^ (n / 2))
    (hciphertext' : 8 * ciphertext'.length < 256 ^ (n / 2))
    (h : authenticated n aad ciphertext = authenticated n aad' ciphertext') :
    aad = aad' ∧ ciphertext = ciphertext' := by
  have hn : 0 < n := BlockSize.pos
  -- the last block comes first: without the lengths the rest says nothing
  obtain ⟨hblocks, hlast⟩ := List.append_inj' h rfl
  obtain ⟨hlen, hlen'⟩ :=
    lengths_inj haad hciphertext haad' hciphertext' (List.singleton_inj.mp hlast)
  have hcount : (aad.paddedBlocks n).length = (aad'.paddedBlocks n).length := by
    rw [length_paddedBlocks, length_paddedBlocks, hlen]
  obtain ⟨hfirst, hsecond⟩ := List.append_inj hblocks hcount
  exact ⟨ByteString.paddedBlocks_injOn hn hlen hfirst,
    ByteString.paddedBlocks_injOn hn hlen' hsecond⟩

end Message

/-! ## 2. Messages that are accepted -/

/-- A message that a context has taken from its nonce to its tag: the associated data, the
ciphertext, and the blocks that were added up for the tag. Contexts of all ciphers with blocks of
`n` bytes are meant. -/
inductive Accepted : (n : Nat) → (aad ciphertext : ByteString) → List (Bytes n) → Prop
  | message {a : Algorithm} {c : Cipher a} {m : Mgm a} (hcipher : m.cipher = some c)
    (nonce : Block a) (since : List Call) (hsince : ∀ call ∈ since, call.restarts a = false)
    (hended : ended a since = true) {t : Trace a.blockLen}
    (ht : t = m.trace (.setIv nonce.toList :: since)) :
    Accepted a.blockLen t.aad t.ciphertext (t.terms.map Term.block)

/-- The bound of the mode over blocks of `n` bytes. -/
def Fits (n : Nat) (aad ciphertext : ByteString) : Prop :=
  ∃ a : Algorithm, a.blockLen = n ∧ aad.length + ciphertext.length ≤ maxLen a

variable {n : Nat} {aad aad' ciphertext ciphertext' : ByteString} {blocks : List (Bytes n)}

theorem Accepted.eq (h : Accepted n aad ciphertext blocks) :
    Fits n aad ciphertext ∧ blocks = Message.authenticated n aad ciphertext := by
  cases h with
  | @message a c m hcipher nonce since hsince hended t ht =>
    have h := recorded_calls hcipher nonce since hsince
    rw [hended, ← ht] at h
    exact ⟨⟨a, rfl, h.bounded⟩, h.blocks⟩

variable {a : Algorithm} {m : Mgm a} {c : Cipher a}

/-- A context that takes both strings in one piece each records them as they are. -/
theorem trace_whole (hcipher : m.cipher = some c) (nonce : Block a) {aad ciphertext : ByteString}
    (hlen : aad.length + ciphertext.length ≤ maxLen a) :
    let t := m.trace [.setIv nonce.toList, .updateAad aad, .decrypt ciphertext, .finish]
    t.aad = aad ∧ t.ciphertext = ciphertext := by
  intro t
  have hroom : ([] : ByteString).length + aad.length ≤ maxLen a := by
    rw [List.length_nil, Nat.zero_add]
    exact Nat.le_of_add_right_le hlen
  obtain ⟨m₁, hupdate, hstands⟩ := (Stands.begin hcipher nonce).updateAad aad hroom
  obtain ⟨m₂, hturn, -⟩ := hstands.turn .decrypting ciphertext hlen
  have haad : step (m.begin c nonce) (.updateAad aad) = .done (m₁, []) none := by
    rw [step, hupdate]
    rfl
  have hdata : step m₁ (.decrypt ciphertext) =
      .done (m₂, ciphertext.mask (keystream c nonce) 0) none := by
    rw [step, Mgm.decrypt, hturn]
    rfl
  have hend : Call.finish.bytes (step m₂ .finish) = {} := Call.bytes_of_sides fun _ => rfl
  have hbytes : t.bytes = ⟨aad, ciphertext.mask (keystream c nonce) 0, ciphertext, [], []⟩ := by
    rw [bytes_trace]
    simp only [transcript, step_setIv hcipher, haad, hdata, Outcome.done, List.zipWith_cons_cons,
      List.zipWith_nil_left, List.foldr_cons, List.foldr_nil, hend, Trace.append_empty]
    change {} ++ (({ aad := aad } : Trace a.blockLen) ++ ⟨[], _, ciphertext, [], []⟩) = _
    rw [Trace.empty_append, Trace.append_def, List.append_nil]
    rfl
  exact ⟨congrArg Trace.aad hbytes, congrArg Trace.ciphertext hbytes⟩

/-- A message that keeps within the bound is accepted. -/
theorem Accepted.of_fits (h : Fits n aad ciphertext) :
    Accepted n aad ciphertext (Message.authenticated n aad ciphertext) := by
  obtain ⟨a, rfl, hlen⟩ := h
  let c : Cipher a := .ofKey a (.zero 32)
  obtain ⟨haad, hciphertext⟩ := trace_whole (m := ofCipher c) rfl (.zero a.blockLen) hlen
  have haccepted : Accepted a.blockLen _ _ _ := .message (m := ofCipher c) rfl (.zero a.blockLen)
    [.updateAad aad, .decrypt ciphertext, .finish] (by simp [Call.restarts]) rfl rfl
  rw [haccepted.eq.2, haad, hciphertext] at haccepted
  exact haccepted

theorem accepted_iff :
    Accepted n aad ciphertext blocks ↔
      Fits n aad ciphertext ∧ blocks = Message.authenticated n aad ciphertext :=
  ⟨Accepted.eq, fun ⟨hfits, heq⟩ => heq ▸ .of_fits hfits⟩

/-! ## 3. Lengths that lose nothing -/

/-- The length of a string in bits is written into half a block of `n` bytes, by way of a machine
word of eight bytes of which the last ones are taken, and all of it is there. -/
structure WritesLength (n : Nat) (s : ByteString) : Prop where
  half : 8 * s.length < 256 ^ (n / 2)
  word : 8 * s.length < 2 ^ 64
  written : (ByteString.bigEndian 8 (8 * s.length)).drop (8 - n / 2) =
    ByteString.bigEndian (n / 2) (8 * s.length)
  read : ByteString.value (ByteString.bigEndian (n / 2) (8 * s.length)) = 8 * s.length

theorem writesLength_of_le {s : ByteString} (h : s.length ≤ maxLen a) :
    WritesLength a.blockLen s := by
  obtain ⟨hhalf, hword⟩ := bits_lt_of_le_maxLen h
  have hwidth : 8 - a.blockLen / 2 + a.blockLen / 2 = 8 := by cases a <;> rfl
  have hwritten := ByteString.drop_bigEndian (8 - a.blockLen / 2) (a.blockLen / 2) (8 * s.length)
  rw [hwidth] at hwritten
  refine ⟨hhalf, hword, hwritten, ?_⟩
  rw [ByteString.value_bigEndian, Nat.mod_eq_of_lt hhalf]

theorem Fits.writesLength (h : Fits n aad ciphertext) :
    WritesLength n aad ∧ WritesLength n ciphertext := by
  obtain ⟨a, rfl, hlen⟩ := h
  exact ⟨writesLength_of_le (Nat.le_of_add_right_le hlen),
    writesLength_of_le (Nat.le_of_add_left_le hlen)⟩

/-! ## 4. The law -/

theorem Accepted.inj (h : Accepted n aad ciphertext blocks)
    (h' : Accepted n aad' ciphertext' blocks) : aad = aad' ∧ ciphertext = ciphertext' := by
  obtain ⟨hfits, hblocks⟩ := h.eq
  obtain ⟨hfits', hblocks'⟩ := h'.eq
  obtain ⟨haad, hciphertext⟩ := hfits.writesLength
  obtain ⟨haad', hciphertext'⟩ := hfits'.writesLength
  obtain ⟨a, rfl, -⟩ := hfits
  exact Message.authenticated_inj haad.half hciphertext.half haad'.half hciphertext'.half
    (hblocks.symm.trans hblocks')

/-- **The blocks that are added up determine the message.** Two messages that are accepted under any
ciphers with blocks of one size, any keys and nonces, and have the same blocks, are the same. The
lengths of an accepted message lose nothing on their way into the last block. What is accepted is
exactly what keeps within the bound, with the blocks of the definition. And the strings and blocks
of an accepted message are those that the callers see and that the tag is made of. -/
theorem encoding_injective (n : Nat) :
    (∀ (aad ciphertext aad' ciphertext' : ByteString) (blocks : List (Bytes n)),
      Accepted n aad ciphertext blocks → Accepted n aad' ciphertext' blocks →
        aad = aad' ∧ ciphertext = ciphertext') ∧
    (∀ (aad ciphertext : ByteString) (blocks : List (Bytes n)),
      Accepted n aad ciphertext blocks → WritesLength n aad ∧ WritesLength n ciphertext) ∧
    (∀ (aad ciphertext : ByteString) (blocks : List (Bytes n)),
      Accepted n aad ciphertext blocks ↔
        Fits n aad ciphertext ∧ blocks = Message.authenticated n aad ciphertext) ∧
    (∀ (a : Algorithm) (c : Cipher a) (m : Mgm a), m.cipher = some c →
      ∀ (nonce : Block a) (since : List Call), (∀ call ∈ since, call.restarts a = false) →
        Faithful c m (.setIv nonce.toList :: since)) :=
  ⟨fun _ _ _ _ _ h h' => h.inj h', fun _ _ _ h => h.eq.1.writesLength, fun _ _ _ => accepted_iff,
    fun _ _ _ hcipher nonce since hsince => trace_faithful hcipher nonce since hsince⟩

/-- A zero at the end, and a byte on the other side: the blocks without the last one are the same,
and the messages are told apart all the same. -/
theorem encoding_injective_kuznyechik :
    ∃ blocks : List (Bytes 16), Accepted 16 [1] [] blocks ∧ ¬Accepted 16 [1, 0] [] blocks ∧
      ¬Accepted 16 [] [1] blocks := by
  obtain ⟨hinj, -, haccepted, -⟩ := encoding_injective 16
  have hfits : Fits 16 [1] [] := ⟨.kuznyechik, rfl, by decide⟩
  have h := (haccepted [1] [] _).mpr ⟨hfits, rfl⟩
  refine ⟨_, h, fun hzero => ?_, fun hmoved => ?_⟩
  · exact absurd (hinj _ _ _ _ _ h hzero).1 (by decide)
  · exact absurd (hinj _ _ _ _ _ h hmoved).1 (by decide)

end Mgm

end GostSuite

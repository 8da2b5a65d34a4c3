import GostSuite.Proofs.Mac.Contexts
import GostSuite.Proofs.Mac.OneBlock
import GostSuite.Proofs.Sealing.OneShot
import GostSuite.Proofs.Sealing.SealedStream
import GostSuite.Proofs.TagSizes

/-!
# What limits are good for

The six numbers of `Limits` are checked when they are set, and again by every context that is made
with them. These are different checks in different places: zero is a section for a stream and not
for a code, the length of a code is checked after the context was made, the counter is checked where
keys are derived. If one of the second checks asked for more than the first one did, limits that
were accepted would make a context that is refused, long after and far away from the setting.

No second check is ever the one that fails. Limits that come from the recommended ones by any
settings serve their algorithm (`serves_adjusted`): that is an invariant, which one setting keeps
and which therefore holds after any number of them, refused ones among the others. Everything that
a context asks of its numbers is in it, so what can still go wrong is what limits do not know: the
length of an initial value or a seed, and the algorithm of the context.

That a context is made does not say that it was made with these numbers. So each of them is followed
to where it shows, in tags, in keystream and in the keys of a sealed stream (`Suffices`).
-/

set_option autoImplicit false

namespace GostSuite

namespace Limits

variable {a : Algorithm} {l l' : Limits}

/-! ## 1. Settings -/

/-- The limits after a setting. One that is refused leaves them as they were. -/
def adjust (l : Limits) (setting : Setting) : Limits :=
  match l.set setting with
  | .ok l' => l'
  | .error _ => l

def adjusted (l : Limits) (settings : List Setting) : Limits := settings.foldl adjust l

/-- The limits are for the algorithm, and each number is in its bounds. -/
structure Serves (a : Algorithm) (l : Limits) : Prop where
  algorithm : l.algorithm = a
  tagLen : 1 ≤ l.tagLen ∧ l.tagLen ≤ a.blockLen
  macLen : 1 ≤ l.macLen ∧ l.macLen ≤ a.blockLen
  streamSection : l.streamSection % a.blockLen = 0
  macSection : l.macSection ≠ 0 ∧ l.macSection % a.blockLen = 0
  masterSection : l.masterSection ≠ 0 ∧ l.masterSection % a.blockLen = 0
  counterLen : 1 ≤ l.counterLen ∧ l.counterLen ≤ 4

theorem serves_recommended (a : Algorithm) : Serves a (recommended a) := by
  cases a <;> exact ⟨rfl, by decide, by decide, rfl, by decide, by decide, by decide⟩

/-- A setting checks the one number that it changes. -/
theorem Serves.set (h : Serves a l) {setting : Setting} (hset : l.set setting = .ok l') :
    Serves a l' := by
  obtain rfl := h.algorithm
  cases setting with
  | tagLen len =>
    obtain ⟨⟨⟩, hcheck, rfl⟩ := map_eq_ok_iff.mp hset
    exact { h with algorithm := rfl, tagLen := Mgm.tagLen_eq_ok_iff.mp hcheck }
  | macLen size =>
    obtain ⟨⟨⟩, hcheck, rfl⟩ := map_eq_ok_iff.mp hset
    exact { h with algorithm := rfl, macLen := macLen_eq_ok_iff.mp hcheck }
  | streamSection size =>
    obtain ⟨⟨⟩, hcheck, rfl⟩ := map_eq_ok_iff.mp hset
    exact { h with algorithm := rfl, streamSection := (accepted_eq_ok_iff.mp hcheck).1 }
  | macSection size =>
    obtain ⟨⟨⟩, hcheck, rfl⟩ := map_eq_ok_iff.mp hset
    exact { h with algorithm := rfl, macSection := macSection_eq_ok_iff.mp hcheck }
  | masterSection size =>
    obtain ⟨⟨⟩, hcheck, rfl⟩ := map_eq_ok_iff.mp hset
    exact { h with algorithm := rfl, masterSection := macSection_eq_ok_iff.mp hcheck }
  | counterLen len =>
    obtain ⟨⟨⟩, hcheck, rfl⟩ := map_eq_ok_iff.mp hset
    exact { h with algorithm := rfl, counterLen := (accepted_eq_ok_iff.mp hcheck).1 }

theorem Serves.adjust (h : Serves a l) (setting : Setting) : Serves a (l.adjust setting) := by
  rw [Limits.adjust]
  split
  · next hset => exact h.set hset
  · exact h

theorem Serves.adjusted (h : Serves a l) (settings : List Setting) :
    Serves a (l.adjusted settings) := by
  induction settings generalizing l with
  | nil => exact h
  | cons setting settings ih => exact ih (h.adjust setting)

theorem serves_adjusted (a : Algorithm) (settings : List Setting) :
    Serves a ((recommended a).adjusted settings) :=
  (serves_recommended a).adjusted settings

theorem Serves.require (h : Serves a l) : l.require a = .ok () := if_pos h.algorithm

/-! ## 2. Contexts with the numbers of limits -/

theorem Serves.mgm (h : Serves a l) (key : Key) :
    Mgm.ofLimits a key l = .ok { Mgm.ofKey a key with tagLen := l.tagLen } := by
  rw [Mgm.ofLimits, h.require, Mgm.tagLen_eq_ok_iff.mpr h.tagLen]
  rfl

theorem Serves.mgmKey (h : Serves a l) (key : Key) :
    MgmKey.ofLimits a key l =
      .ok ⟨.ofKey a key, l.tagLen, Mgm.tagLen_eq_ok_iff.mpr h.tagLen⟩ := by
  have hcheck := Mgm.tagLen_eq_ok_iff.mpr h.tagLen
  rw [MgmKey.ofLimits, h.require]
  dsimp only [bind, Except.bind]
  split
  · rfl
  · next e herror =>
    rw [hcheck] at herror
    cases herror

theorem Serves.omac (h : Serves a l) (key : Key) :
    ∃ m, Omac.ofLimits a key l = .ok m ∧ Omac.Fed (.ofKey a key) l.macLen [] m := by
  have hfed := Omac.Fed.ofCipher (.ofKey a key)
  refine ⟨{ Omac.ofKey a key with macLen := l.macLen }, ?_, hfed.key, hfed.chain, rfl, rfl⟩
  rw [Omac.ofLimits, h.require, macLen_eq_ok_iff.mpr h.macLen]
  rfl

theorem Serves.meshedOmac (h : Serves a l) (key : Key) :
    ∃ m, MeshedOmac.ofLimits a key l = .ok m ∧
      MeshedOmac.Fed key l.macSection l.masterSection l.macLen [] m := by
  obtain ⟨m₀, hok, hfed⟩ := MeshedOmac.ofKey_ok a key h.macSection.1 h.macSection.2
    h.masterSection.1 h.masterSection.2
  have hset := m₀.setMacLen_eq h.macLen
  refine ⟨{ m₀ with macLen := l.macLen }, ?_,
    hfed.keys, hfed.processed, hfed.chain, hfed.sectionLen, rfl, hfed.unfinished⟩
  rw [MeshedOmac.ofLimits, h.require]
  refine bind_eq_ok_iff.mpr ⟨(), rfl, bind_eq_ok_iff.mpr ⟨m₀, hok, ?_⟩⟩
  rw [hset]
  rfl

theorem Serves.stream (h : Serves a l) (key : Key) (iv : ByteString) :
    CounterStream.ofLimits a key iv l =
      if iv.length = a.halfBlockLen then .ok (.start (.ofKey a key) iv l.streamSection)
      else .error (.invalidLength a.halfBlockLen iv.length) := by
  rw [CounterStream.ofLimits, h.require]
  change CounterStream.ofCipher (.ofKey a key) iv l.streamSection = _
  by_cases hiv : iv.length = a.halfBlockLen
  · rw [if_pos hiv, CounterStream.ofCipher_ok _ hiv h.streamSection]
  · rw [if_neg hiv, CounterStream.ofCipher_wrong_length _ hiv h.streamSection]

open SealedStream in
theorem Serves.sealed (h : Serves a l) (key : Key) {seed iv : ByteString}
    (hseed : seed.length = seedLen) (hiv : iv.length = a.halfBlockLen) :
    ∃ (cipherKey macKey : Key) (s : SealedStream a),
      KeyTree.derive key.toList label seed l.counterLen (2 * keyLen) =
          .ok (cipherKey.toList ++ macKey.toList) ∧
        SealedStream.ofLimits a key seed iv l = .ok s ∧
        Reached (.ofKeys a cipherKey macKey iv l.streamSection) l.macLen [] s := by
  obtain ⟨s₀, hderived⟩ := derived_ok key hseed h.streamSection hiv h.counterLen
  obtain ⟨cipherKey, macKey, hkeys, hstart⟩ := reached_of_derived hderived
  obtain ⟨s, hset, hreached⟩ := hstart.setMacLen h.macLen
  exact ⟨cipherKey, macKey, s, hkeys,
    ofLimits_eq_ok_iff.mpr ⟨h.algorithm, s₀, hderived, hset⟩, hreached⟩

open SealedStream in
/-- The seed is looked at before the initial value. -/
theorem Serves.sealed_refused (h : Serves a l) (key : Key) {seed iv : ByteString}
    (hlen : ¬(seed.length = seedLen ∧ iv.length = a.halfBlockLen)) :
    SealedStream.ofLimits a key seed iv l =
      if seed.length = seedLen then .error (.invalidLength a.halfBlockLen iv.length)
      else .error (.invalidLength seedLen seed.length) := by
  have hrefused : ∀ e, derived a key seed iv l.streamSection l.counterLen = .error e →
      SealedStream.ofLimits a key seed iv l = .error e := by
    intro e he
    rw [SealedStream.ofLimits, h.require, he]
    rfl
  by_cases hseed : seed.length = seedLen
  · have hiv : iv.length ≠ a.halfBlockLen := fun hiv => hlen ⟨hseed, hiv⟩
    have hread : Bytes.read seedLen seed = .ok ⟨seed, hseed⟩ := Bytes.read_toList ⟨seed, hseed⟩
    have hderive : KeyTree.derive key.toList label seed l.counterLen (2 * keyLen) = .ok _ :=
      KeyTree.derive_eq_ok_iff.mpr ⟨check_two_keys h.counterLen, rfl⟩
    rw [if_pos hseed]
    apply hrefused
    rw [derived, hread]
    change KeyTree.derive key.toList label seed l.counterLen (2 * keyLen) >>= _ = _
    rw [hderive]
    change CounterStream.ofCipher _ iv l.streamSection >>= _ = _
    rw [CounterStream.ofCipher_wrong_length _ hiv h.streamSection]
    rfl
  · rw [if_neg hseed]
    apply hrefused
    rw [derived, Bytes.read_wrong_length hseed]
    rfl

/-! ## 3. The law -/

/-- What limits do for the contexts of a key. -/
structure Suffices (a : Algorithm) (l : Limits) (key : Key) : Prop where
  /-- The authenticated mode is made, and its tags are as long as they shall be. -/
  mgm : ∃ m, Mgm.ofLimits a key l = .ok m ∧ (Mgm.tags a).GivesLength m l.tagLen ∧
    ∀ (nonce : Block a) (aad : ByteString) (pieces : List ByteString),
      aad.length + pieces.flatten.length ≤ Mgm.maxLen a →
      let c := Cipher.ofKey a key
      let ciphertext := ByteString.mask (Mgm.keystream c nonce) 0 pieces.flatten
      ∃ m', GoesThrough Mgm.step m
          (.setIv nonce.toList :: .updateAad aad :: pieces.map .encrypt) ciphertext m' ∧
        (Mgm.step m' .finish).answer =
          .ok (some (.ofBlock (Mgm.fullTag c nonce aad ciphertext) l.tagLen))
  /-- So are keys that seal whole messages. -/
  mgmKey : ∃ k, MgmKey.ofLimits a key l = .ok k ∧
    ∀ (nonce : Block a) (aad payload : ByteString),
      aad.length + payload.length ≤ Mgm.maxLen a →
      let c := Cipher.ofKey a key
      let ciphertext := payload.mask (Mgm.keystream c nonce) 0
      k.encrypt nonce aad payload =
        .done ciphertext (.ofBlock (Mgm.fullTag c nonce aad ciphertext) l.tagLen)
  omac : ∃ m, Omac.ofLimits a key l = .ok m ∧ (Omac.tags a).GivesLength m l.macLen ∧
    ∀ pieces, GivesTag Omac.step .update .finish m pieces
      (.ofBlock (Omac.wholeCode (.ofKey a key) pieces.flatten) l.macLen)
  /-- The meshed code changes its keys at the two sections. -/
  meshedOmac : ∃ m, MeshedOmac.ofLimits a key l = .ok m ∧
    (MeshedOmac.tags a).GivesLength m l.macLen ∧
    ∀ pieces, GivesTag MeshedOmac.step .update .finish m pieces
      (.ofBlock (MeshedOmac.wholeCode a key l.macSection l.masterSection pieces.flatten) l.macLen)
  /-- A stream is made of any initial value of half a block, and meshes at its section. -/
  stream : ∀ iv : ByteString, iv.length = a.halfBlockLen →
    ∃ s, CounterStream.ofLimits a key iv l = .ok s ∧
      ∀ calls : List CounterStream.Call, (∀ call ∈ calls, call.reads = true) →
        ∃ s', GoesThrough CounterStream.step s calls
          (CounterStream.readings
            (CounterStream.keystreamByte (.ofKey a key) iv l.streamSection) 0 calls) s'
  stream_refused : ∀ iv : ByteString, iv.length ≠ a.halfBlockLen →
    CounterStream.ofLimits a key iv l = .error (.invalidLength (a.halfBlockLen) iv.length)
  /-- A sealed stream derives its keys with the counter, masks with the section and cuts its codes
  to their length. -/
  sealed : ∀ seed iv : ByteString, seed.length = SealedStream.seedLen → iv.length = a.halfBlockLen →
    ∃ (cipherKey macKey : Key) (s : SealedStream a),
      KeyTree.derive key.toList SealedStream.label seed l.counterLen (2 * keyLen) =
          .ok (cipherKey.toList ++ macKey.toList) ∧
        SealedStream.ofLimits a key seed iv l = .ok s ∧
        (SealedStream.tags a).GivesLength s l.macLen ∧
        ∀ calls : List SealedStream.Call, (∀ call ∈ calls, call.turns = true) →
          let k := SealedStream.Setup.ofKeys a cipherKey macKey iv l.streamSection
          let message := SealedStream.plaintextOf s calls
          (∀ o ∈ transcript SealedStream.step s calls, o.answer = .ok none) ∧
            SealedStream.ciphertextOf s calls = message.mask k.keystream 0 ∧
            (SealedStream.step (runCalls SealedStream.step s calls) .finish).answer =
              .ok (some ⟨k.tag l.macLen message⟩)
  sealed_refused : ∀ seed iv : ByteString,
    ¬(seed.length = SealedStream.seedLen ∧ iv.length = a.halfBlockLen) →
    SealedStream.ofLimits a key seed iv l =
      if seed.length = SealedStream.seedLen then .error (.invalidLength (a.halfBlockLen) iv.length)
      else .error (.invalidLength SealedStream.seedLen seed.length)
  /-- Contexts of another algorithm are refused. -/
  others : ∀ b, b ≠ a → ∀ seed iv : ByteString,
    Mgm.ofLimits b key l = .error (.unsupportedAlgorithm b) ∧
      MgmKey.ofLimits b key l = .error (.unsupportedAlgorithm b) ∧
      Omac.ofLimits b key l = .error (.unsupportedAlgorithm b) ∧
      MeshedOmac.ofLimits b key l = .error (.unsupportedAlgorithm b) ∧
      CounterStream.ofLimits b key iv l = .error (.unsupportedAlgorithm b) ∧
      SealedStream.ofLimits b key seed iv l = .error (.unsupportedAlgorithm b)

theorem Serves.suffices (h : Serves a l) (key : Key) : Suffices a l key where
  mgm := by
    let m : Mgm a := { Mgm.ofKey a key with tagLen := l.tagLen }
    have hlength : (Mgm.tags a).GivesLength m l.tagLen :=
      (Mgm.lawful a).givesLength (Mgm.keepsSize a) rfl h.tagLen.2
    refine ⟨m, h.mgm key, hlength, fun nonce aad pieces hlen => ?_⟩
    have hcipher : m.cipher = some (.ofKey a key) := rfl
    have hstart := Mgm.Stands.begin hcipher nonce
    obtain ⟨m₁, haad, hopen⟩ := hstart.updateAad aad (by
      rw [List.length_nil]
      omega)
    obtain ⟨m', hpieces, hend⟩ := hopen.goesThrough_encrypt pieces (by
      rw [List.nil_append, List.length_nil]
      omega)
    have hstep : Mgm.step _ (.updateAad aad) = .done (m₁, []) none :=
      congrArg StepOutcome.ofUnit haad
    refine ⟨m', .cons (Mgm.step_setIv hcipher nonce) (.cons hstep hpieces), ?_⟩
    rw [Mgm.step, StepOutcome.ofTag, hend.finish]
    rfl
  mgmKey := by
    refine ⟨_, h.mgmKey key, fun nonce aad payload hlen => ?_⟩
    rw [MgmKey.encrypt_eq, if_pos hlen]
  omac := by
    obtain ⟨m, hm, hfed⟩ := h.omac key
    exact ⟨m, hm, (Omac.lawful a).givesLength (Omac.keepsSize a) hfed.macLen h.macLen.2,
      hfed.givesTag⟩
  meshedOmac := by
    obtain ⟨m, hm, hfed⟩ := h.meshedOmac key
    exact ⟨m, hm,
      (MeshedOmac.lawful a).givesLength (MeshedOmac.keepsSize a) hfed.macLen h.macLen.2,
      hfed.givesTag h.macSection.1 h.macSection.2 h.masterSection.2⟩
  stream := by
    intro iv hiv
    have hok := h.stream key iv
    rw [if_pos hiv] at hok
    obtain ⟨perSection, hsection⟩ := Nat.dvd_of_mod_eq_zero h.streamSection
    refine ⟨_, hok, fun calls hcalls => ?_⟩
    rw [hsection, CounterStream.keystreamByte_eq]
    obtain ⟨s', hgo, -⟩ := CounterStream.goesThrough_reads
      (CounterStream.Consumed.start (.ofKey a key) iv perSection) calls hcalls
    exact ⟨s', hgo⟩
  stream_refused := by
    intro iv hiv
    have hrefused := h.stream key iv
    rwa [if_neg hiv] at hrefused
  sealed := by
    intro seed iv hseed hiv
    obtain ⟨cipherKey, macKey, s, hkeys, hok, hreached⟩ := h.sealed key hseed hiv
    refine ⟨cipherKey, macKey, s, hkeys, hok, (SealedStream.lawful a).givesLength
      (SealedStream.keepsSize a) hreached.code.macLen h.macLen.2, fun calls hcalls => ?_⟩
    obtain ⟨hanswers, hsides, hend⟩ := hreached.run calls hcalls
    rw [List.nil_append] at hend
    exact ⟨hanswers, hsides, hend.answer_finish⟩
  sealed_refused := fun _ _ hlen => h.sealed_refused key hlen
  others := by
    intro b hb seed iv
    have hrequire : l.require b = .error (.unsupportedAlgorithm b) :=
      if_neg fun heq => hb (heq.symm.trans h.algorithm)
    refine ⟨?_, ?_, ?_, ?_, ?_, ?_⟩
    · rw [Mgm.ofLimits, hrequire]; rfl
    · rw [MgmKey.ofLimits, hrequire]; rfl
    · rw [Omac.ofLimits, hrequire]; rfl
    · rw [MeshedOmac.ofLimits, hrequire]; rfl
    · rw [CounterStream.ofLimits, hrequire]; rfl
    · rw [SealedStream.ofLimits, hrequire]; rfl

/-- **Limits suffice.** Whatever is set, in whatever order, and whether it is accepted or not, the
limits are in their bounds, and every context of their algorithm can be made with them: the
authenticated mode, keys that seal whole messages, both codes, and streams of either kind if the
initial value has half a block and the seed has eight bytes. The context works with these numbers:
its tags have the length that the limits say, after any calls, unless another one has been set;
keystream and codes are those of the sections, and keys are derived with the counter. -/
theorem adjusted_suffices (a : Algorithm) (settings : List Setting) (key : Key) :
    let l := (recommended a).adjusted settings
    Serves a l ∧ Suffices a l key :=
  ⟨serves_adjusted a settings, (serves_adjusted a settings).suffices key⟩

/-- Of nine settings four are refused, among them an empty section of the code. The section of the
stream is zero and stays, which turns its meshing off. -/
theorem adjusted_suffices_magma :
    let settings : List Setting :=
      [.tagLen 9, .tagLen 4, .macLen 3, .streamSection 0, .macSection 16, .macSection 0,
        .masterSection 7, .counterLen 4, .counterLen 5]
    let l := (recommended .magma).adjusted settings
    l = ⟨.magma, 4, 3, 0, 16, 640, 4⟩ ∧
      (∃ m m' tag, Mgm.ofLimits .magma (.zero 32) l = .ok m ∧
        GoesThrough Mgm.step m [.setIv (List.replicate 8 0), .updateAad [1], .encrypt [2, 3]]
          (ByteString.mask (Mgm.keystream (.ofKey .magma (.zero 32)) (.zero 8)) 0 [2, 3]) m' ∧
        (Mgm.step m' .finish).answer = .ok (some tag) ∧ tag.bytes.length = 4) ∧
      (∃ s, CounterStream.ofLimits .magma (.zero 32) [1, 2, 3, 4] l = .ok s) ∧
      CounterStream.ofLimits .magma (.zero 32) [1, 2, 3] l = .error (.invalidLength 4 3) ∧
      (∃ s, SealedStream.ofLimits .magma (.zero 32) (List.replicate 8 7) [1, 2, 3, 4] l = .ok s) ∧
      SealedStream.ofLimits .magma (.zero 32) [7] [1, 2, 3] l = .error (.invalidLength 8 1) ∧
      Omac.ofLimits .kuznyechik (.zero 32) l = .error (.unsupportedAlgorithm .kuznyechik) := by
  intro settings l
  obtain ⟨-, h⟩ := adjusted_suffices .magma settings (.zero 32)
  obtain ⟨m, hm, hlength, hsession⟩ := h.mgm
  obtain ⟨m', hgo, htag⟩ := hsession (.zero 8) [1] [[2, 3]] (by decide)
  obtain ⟨s, hs, -⟩ := h.stream [1, 2, 3, 4] rfl
  obtain ⟨_, _, t, -, ht, -⟩ := h.sealed (List.replicate 8 7) [1, 2, 3, 4] rfl rfl
  refine ⟨rfl, ⟨m, m', _, hm, hgo, htag, ?_⟩, ⟨s, hs⟩, h.stream_refused [1, 2, 3] (by decide),
    ⟨t, ht⟩, h.sealed_refused [7] [1, 2, 3] (by decide),
    (h.others .kuznyechik (by decide) [] []).2.2.1⟩
  rw [← hgo.final] at htag
  exact hlength _ _ htag

end Limits

end GostSuite

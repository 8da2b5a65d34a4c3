import GostSuite.Proofs.Mac.Contexts
import GostSuite.Proofs.Sealing.Reachable

/-!
# Starting again

A context serves one message after another. What starts a message has to take back all that the
messages before have left: bytes that wait for their block, counters, a tag that is out, the keys of
a later section. If one of these stays, the next tag depends on it and on nothing that anybody can
see. So a started context is compared with a new one, which has no past.

For the authenticated mode and for the plain code the two are the same, in every field. For the
meshed code they are not quite. A reset goes back to the keys that the last key gave, and these
belong to the master section of that time, while the context keeps the master section that is set
now, for the next key. Nothing but a key reads it, so all other calls are answered alike
(`Alike.step`), and so are all continuations without a new key (`Alike.answers_eq`).
-/

set_option autoImplicit false

namespace GostSuite

variable {a : Algorithm}

/-! ## 1. The authenticated mode -/

namespace Mgm

variable {m : Mgm a} {c : Cipher a}

/-- A new context of a cipher and a length of tags. -/
def Fresh (c : Cipher a) (tagLen : Nat) (m : Mgm a) : Prop :=
  (ofCipher c).setTagLen tagLen = .done m ()

theorem fresh_of_bounds (c : Cipher a) {tagLen : Nat} (h : 1 ≤ tagLen ∧ tagLen ≤ a.blockLen) :
    Fresh c tagLen { ofCipher c with tagLen := tagLen } := by
  rw [Fresh, setTagLen, tagLen_eq_ok_iff.mpr h]
  rfl

theorem setIv_eq (hcipher : m.cipher = some c) (nonce : Block a) :
    m.setIv nonce.toList = .done (m.begin c nonce) () := by
  rw [setIv, keyed_eq hcipher, Bytes.read_toList]

/-- A nonce starts a message, and the context is a new one that the nonce has started. -/
theorem setIv_fresh (h : Reachable Made step m) (hcipher : m.cipher = some c) :
    ∃ fresh, Fresh c m.tagLen fresh ∧ ∀ nonce : ByteString, nonce.length = a.blockLen →
      ∃ m', m.setIv nonce = .done m' () ∧ fresh.setIv nonce = .done m' () := by
  refine ⟨_, fresh_of_bounds c (tagLen_of_reachable h), fun nonce hlen => ?_⟩
  let block : Block a := ⟨nonce, hlen⟩
  refine ⟨m.begin c block, setIv_eq hcipher block, ?_⟩
  have hbegin : ({ ofCipher c with tagLen := m.tagLen } : Mgm a).begin c block =
      m.begin c block := by
    rw [begin, begin, hcipher]
    rfl
  rw [← hbegin]
  exact setIv_eq rfl block

/-- A key leaves a new context of the cipher with that key. -/
theorem setKey_fresh (h : Reachable Made step m) (hcipher : m.cipher = some c) (key : Key) :
    Fresh (c.rekey key) m.tagLen (m.setKey key) := by
  have hnew : m.setKey key = { ofCipher (c.rekey key) with tagLen := m.tagLen } := by
    rw [setKey, hcipher]
    rfl
  rw [hnew]
  exact fresh_of_bounds _ (tagLen_of_reachable h)

end Mgm

/-! ## 2. The plain code -/

namespace Omac

variable {m : Omac a} {k : MacKey a}

/-- A new context of a cipher and a length of codes. -/
def Fresh (c : Cipher a) (macLen : Nat) (m : Omac a) : Prop :=
  (ofCipher c).setMacLen macLen = .done m ()

/-- A reset leaves a new context of the cipher that is there. -/
theorem reset_fresh (h : Reachable Made step m) (hkey : m.key = some k) :
    Fresh k.cipher m.macLen m.reset := by
  have hsound := sound_of_reachable h
  have hnew : m.reset = { ofCipher k.cipher with macLen := m.macLen } := by
    rw [reset, hkey, hsound.key k hkey]
    rfl
  rw [Fresh, setMacLen, macLen_eq_ok_iff.mpr hsound.macLen, hnew]
  rfl

end Omac

/-! ## 3. The meshed code -/

/-- What a list of calls is answered. -/
def answers {σ κ : Type} (step : σ → κ → StepOutcome σ) (s : σ) (calls : List κ) :
    List (Except Error (Option Tag)) :=
  (transcript step s calls).map Outcome.answer

namespace MeshedOmac

variable {m m' : MeshedOmac a}

theorem fresh_of_bounds (key : Key) {sectionLen masterSection macLen : Nat}
    (hlen : sectionLen ≠ 0 ∧ sectionLen % a.blockLen = 0)
    (hmaster : masterSection ≠ 0 ∧ masterSection % a.blockLen = 0)
    (hsize : 1 ≤ macLen ∧ macLen ≤ a.blockLen) :
    Fresh key sectionLen masterSection macLen { unkeyed a with
      initial := some (SectionKeys.ofKey a key masterSection)
      keys := some (SectionKeys.ofKey a key masterSection)
      sectionLen := sectionLen
      masterSection := masterSection
      macLen := macLen } :=
  ⟨_, ofKey_eq_ok_iff.mpr ⟨hlen, hmaster, rfl⟩, setMacLen_eq _ hsize⟩

/-- A key leaves a new context of the numbers that are set. -/
theorem setKey_fresh (h : Reachable Made step m) (key : Key) :
    ∃ fresh, m.setKey key = .done fresh () ∧
      Fresh key m.sectionLen m.masterSection m.macLen fresh := by
  have hsound := sound_of_reachable h
  exact ⟨_, setKey_eq hsound.masterSection.2 key,
    fresh_of_bounds key hsound.sectionLen hsound.masterSection hsound.macLen⟩

/-- The contexts are the same up to the section of the master stream of the next key. -/
def Alike (m m' : MeshedOmac a) : Prop :=
  ∃ masterSection, m' = { m with masterSection := masterSection }

/-- A reset leaves a new context of the last key, up to the section of the next one. -/
theorem reset_alike (h : Reachable Made step m) {key : Key} {masterSection : Nat}
    (hlast : LastKeyed key masterSection m) :
    ∃ fresh, Fresh key m.sectionLen masterSection m.macLen fresh ∧ Alike m.reset fresh := by
  have hsound := sound_of_reachable h
  obtain ⟨hmaster, hinitial⟩ := hlast.initial
  refine ⟨_, fresh_of_bounds key hsound.sectionLen hmaster hsound.macLen, masterSection, ?_⟩
  rw [reset, restart, hinitial]
  rfl

theorem ready_alike (m : MeshedOmac a) (masterSection : Nat) :
    ({ m with masterSection := masterSection } : MeshedOmac a).ready = m.ready := rfl

theorem Alike.finish (h : Alike m m') :
    m.finish.answer = m'.finish.answer ∧ Alike m.finish.after m'.finish.after := by
  obtain ⟨masterSection, rfl⟩ := h
  rw [MeshedOmac.finish, MeshedOmac.finish, ready_alike m masterSection]
  cases m.ready with
  | error e => exact ⟨rfl, masterSection, rfl⟩
  | ok keys => exact ⟨rfl, masterSection, rfl⟩

theorem Alike.update (h : Alike m m') (data : ByteString) :
    (m.update data).answer = (m'.update data).answer ∧
      Alike (m.update data).after (m'.update data).after := by
  obtain ⟨masterSection, rfl⟩ := h
  rw [MeshedOmac.update, MeshedOmac.update, ready_alike m masterSection]
  cases m.ready with
  | error e => exact ⟨rfl, masterSection, rfl⟩
  | ok keys => exact ⟨rfl, masterSection, rfl⟩

/-- **Contexts that are alike answer alike and stay alike**, until there is a new key. -/
theorem Alike.step (h : Alike m m') {call : Call} (hcall : call.keys = false) :
    (step m call).answer = (step m' call).answer ∧
      Alike (step m call).after.1 (step m' call).after.1 := by
  cases call with
  | update data =>
    obtain ⟨hanswer, halike⟩ := h.update data
    exact ⟨congrArg (Except.map fun _ => none) hanswer, halike⟩
  | finish =>
    obtain ⟨hanswer, halike⟩ := h.finish
    exact ⟨congrArg (Except.map some) hanswer, halike⟩
  | verify expected =>
    obtain ⟨hanswer, halike⟩ := h.finish
    refine ⟨?_, halike⟩
    change Except.map _ (Except.bind m.finish.answer _) =
      Except.map _ (Except.bind m'.finish.answer _)
    rw [hanswer]
  | reset =>
    obtain ⟨masterSection, rfl⟩ := h
    exact ⟨rfl, masterSection, rfl⟩
  | setMacLen size =>
    obtain ⟨masterSection, rfl⟩ := h
    rw [MeshedOmac.step, MeshedOmac.step, setMacLen, setMacLen]
    cases Bounds.macLen a size with
    | error e => exact ⟨rfl, masterSection, rfl⟩
    | ok _ => exact ⟨rfl, masterSection, rfl⟩
  | setSections sectionLen masterSection =>
    -- the section of the next key is set in both, so it is a change that makes them the same
    obtain ⟨masterSection', rfl⟩ := h
    rw [MeshedOmac.step, MeshedOmac.step, setSections, setSections]
    cases (do Bounds.macSection a sectionLen; Bounds.macSection a masterSection) with
    | error e => exact ⟨rfl, masterSection', rfl⟩
    | ok _ => exact ⟨rfl, masterSection, rfl⟩
  | setKey key => exact absurd hcall (by simp [Call.keys])

theorem Alike.answers_eq (h : Alike m m') (calls : List Call)
    (hcalls : ∀ call ∈ calls, call.keys = false) :
    answers MeshedOmac.step m calls = answers MeshedOmac.step m' calls := by
  induction calls generalizing m m' with
  | nil => rfl
  | cons call calls ih =>
    obtain ⟨hcall, hcalls⟩ := List.forall_mem_cons.mp hcalls
    obtain ⟨hanswer, halike⟩ := h.step hcall
    have hrest := ih halike hcalls
    rw [answers] at hrest ⊢
    rw [answers, transcript, transcript, List.map_cons, List.map_cons, hanswer, hrest]
    rfl

end MeshedOmac

/-! ## 4. The law -/

/-- **A context that starts again has no past.** Whatever has been called on it before:

* a nonce leaves an authenticated context as it leaves a new one of its cipher and its tag length,
  and a key leaves it as a new one of its cipher under that key;
* a reset leaves a context of the plain code as a new one of its cipher and its code length;
* a keyed context of the meshed code has a last key, and a master section of the time when it got
  that key. After a reset, and as long as it is not keyed, it gives the answers of a new context of
  that key, that master section, and the section and code length that are set now. A key leaves it
  as a new one of that key and the numbers that are set now. -/
theorem restarts_erase_history (a : Algorithm) :
    (∀ m : Mgm a, Reachable Mgm.Made Mgm.step m → ∀ c, m.cipher = some c →
      (∃ fresh, Mgm.Fresh c m.tagLen fresh ∧ ∀ nonce : ByteString, nonce.length = a.blockLen →
        ∃ m', m.setIv nonce = .done m' () ∧ fresh.setIv nonce = .done m' ()) ∧
      ∀ key, Mgm.Fresh (c.rekey key) m.tagLen (m.setKey key)) ∧
    (∀ m : Omac a, Reachable Omac.Made Omac.step m → ∀ k, m.key = some k →
      Omac.Fresh k.cipher m.macLen m.reset) ∧
    ∀ m : MeshedOmac a, Reachable MeshedOmac.Made MeshedOmac.step m →
      (m.keys.isSome = true → ∃ key masterSection, MeshedOmac.LastKeyed key masterSection m) ∧
      (∀ key masterSection, MeshedOmac.LastKeyed key masterSection m →
        ∃ fresh : MeshedOmac a,
          MeshedOmac.Fresh key m.sectionLen masterSection m.macLen fresh ∧ ∀ calls,
            (∀ call ∈ calls, MeshedOmac.Call.keys call = false) →
              answers MeshedOmac.step m.reset calls = answers MeshedOmac.step fresh calls) ∧
      ∀ key, ∃ fresh, m.setKey key = .done fresh () ∧
        MeshedOmac.Fresh key m.sectionLen m.masterSection m.macLen fresh := by
  refine ⟨?_, ?_, ?_⟩
  · intro m h c hcipher
    exact ⟨Mgm.setIv_fresh h hcipher, Mgm.setKey_fresh h hcipher⟩
  · intro m h k hkey
    exact Omac.reset_fresh h hkey
  · intro m h
    refine ⟨MeshedOmac.lastKeyed_of_reachable h, ?_, MeshedOmac.setKey_fresh h⟩
    intro key masterSection hlast
    obtain ⟨fresh, hfresh, halike⟩ := MeshedOmac.reset_alike h hlast
    exact ⟨fresh, hfresh, halike.answers_eq⟩

/-- A message is dropped after its nonce, one in the middle of a block, and one in a later section
after which both sections are changed. -/
theorem restarts_magma :
    let key : Key := .zero 32
    let nonce : ByteString := List.replicate 8 5
    let mgm := runCalls Mgm.step (.ofKey .magma key) [.setIv nonce, .setTagLen 4]
    let omac := runCalls Omac.step (.ofKey .magma key) [.update [1, 2, 3]]
    (∃ fresh m', Mgm.Fresh (.ofKey .magma key) 4 fresh ∧ mgm.setIv nonce = .done m' () ∧
      fresh.setIv nonce = .done m' ()) ∧
    Omac.Fresh (.ofKey .magma key) 8 omac.reset ∧
    ∃ m fresh : MeshedOmac .magma, MeshedOmac.LastKeyed key 24 m ∧ m.masterSection = 32 ∧
      MeshedOmac.Fresh key 8 24 m.macLen fresh ∧
      answers MeshedOmac.step m.reset [.update [1, 2, 3], .finish] =
        answers MeshedOmac.step fresh [.update [1, 2, 3], .finish] := by
  intro key nonce mgm omac
  obtain ⟨hmgm, homac, hmeshed⟩ := restarts_erase_history .magma
  refine ⟨?_, ?_, ?_⟩
  · have hreach : Reachable Mgm.Made Mgm.step mgm :=
      .called (.called (.made (.origin (.withKey key))) (Mgm.Call.setIv nonce)) (.setTagLen 4)
    obtain ⟨⟨fresh, hfresh, hnonce⟩, -⟩ := hmgm mgm hreach (.ofKey .magma key) rfl
    obtain ⟨m', hm', hfresh'⟩ := hnonce nonce rfl
    exact ⟨fresh, m', hfresh, hm', hfresh'⟩
  · have hreach : Reachable Omac.Made Omac.step omac :=
      .called (.made (.ofKey key)) (Omac.Call.update [1, 2, 3])
    exact homac omac hreach (.ofCipher (.ofKey .magma key)) rfl
  · have hmade : ∃ m₀, MeshedOmac.ofKey .magma key 16 24 = .ok m₀ := ⟨_, rfl⟩
    obtain ⟨m₀, hmade⟩ := hmade
    let calls : List MeshedOmac.Call := [.update (List.replicate 21 4), .setSections 8 32]
    have hreach : Reachable MeshedOmac.Made MeshedOmac.step (runCalls MeshedOmac.step m₀ calls) :=
      .called (.called (.made (.ofKey hmade)) (MeshedOmac.Call.update _)) (.setSections 8 32)
    have hlast : MeshedOmac.LastKeyed key 24 (runCalls MeshedOmac.step m₀ calls) :=
      .called (.called (.ofKey hmade) rfl) rfl
    obtain ⟨-, hreset, -⟩ := hmeshed _ hreach
    obtain ⟨fresh, hfresh, hanswers⟩ := hreset key 24 hlast
    exact ⟨_, fresh, hlast, rfl, hfresh, hanswers _ (by simp [MeshedOmac.Call.keys])⟩

end GostSuite

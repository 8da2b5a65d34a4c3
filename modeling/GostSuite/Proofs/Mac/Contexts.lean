import GostSuite.Proofs.Mac.Meshed

/-!
# Contexts of the codes that can be reached

Both codes are made in a few ways and then called in any order, with calls that are refused among
the others. Two things are known of every context that this leads to.

The numbers in it are in their bounds (`Omac.Sound`, `MeshedOmac.Sound`). Each of them is checked when
it is set and at no other time, so whoever reads it later reads a number that has been checked.

What it was keyed with is known too. For the plain code this is a matter of the state: the whitening
key belongs to the cipher. The meshed code remembers the keys that it began with, and these depend on
the master section of that moment, which may have been replaced since. So `MeshedOmac.LastKeyed`
tells the key and the master section by the calls, and not by the state.
-/

set_option autoImplicit false

namespace GostSuite

variable {a : Algorithm}

theorem macLen_eq_ok_iff {size : Nat} :
    Bounds.macLen a size = .ok () ↔ 1 ≤ size ∧ size ≤ a.blockLen := by
  rw [Bounds.macLen, accepted_eq_ok_iff]
  exact and_iff_left rfl

theorem macSection_eq_ok_iff {size : Nat} :
    Bounds.macSection a size = .ok () ↔ size ≠ 0 ∧ size % a.blockLen = 0 := by
  rw [Bounds.macSection, accepted_eq_ok_iff]
  exact and_iff_left rfl

/-! ## 1. The plain code -/

namespace Omac

/-- The contexts that a caller can have before the first call. -/
inductive Made : Omac a → Prop
  | unkeyed : Made (unkeyed a)
  | ofCipher (c : Cipher a) : Made (ofCipher c)
  | ofKey (key : Key) : Made (ofKey a key)
  | ofLimits {key : Key} {limits : Limits} {m : Omac a} (made : ofLimits a key limits = .ok m) :
    Made m

/-- The whitening key belongs to the cipher, and the length of the code is in its bounds. -/
structure Sound (m : Omac a) : Prop where
  key : ∀ k, m.key = some k → k = .ofCipher k.cipher
  macLen : 1 ≤ m.macLen ∧ m.macLen ≤ a.blockLen

theorem sound_ofCipher (c : Cipher a) : Sound (ofCipher c) where
  key k hk := by
    cases hk
    rfl
  macLen := ⟨a.blockLen_pos, Nat.le_refl _⟩

theorem Made.sound {m : Omac a} (h : Made m) : Sound m := by
  cases h with
  | unkeyed =>
    refine ⟨fun k hk => ?_, a.blockLen_pos, Nat.le_refl _⟩
    cases hk
  | ofCipher c => exact sound_ofCipher c
  | ofKey key => exact sound_ofCipher (.ofKey a key)
  | ofLimits made =>
    rw [Omac.ofLimits, bind_eq_ok_iff] at made
    obtain ⟨⟨⟩, -, made⟩ := made
    obtain ⟨⟨⟩, hlen, made⟩ := bind_eq_ok_iff.mp made
    obtain rfl := Except.ok.inj made
    exact ⟨(sound_ofCipher _).key, macLen_eq_ok_iff.mp hlen⟩

theorem Sound.step {m : Omac a} (h : Sound m) (call : Call) : Sound (step m call).after.1 := by
  have hfinish : Sound m.finish.after := by
    rw [Omac.finish]
    split
    · exact h
    · exact ⟨h.key, h.macLen⟩
  cases call with
  | update data =>
    change Sound (m.update data).after
    rw [Omac.update]
    split
    · exact h
    · exact ⟨h.key, h.macLen⟩
  | finish => exact hfinish
  | verify expected => exact hfinish
  | reset => exact ⟨h.key, h.macLen⟩
  | setKey key => exact ⟨(sound_ofCipher (.ofKey a key)).key, h.macLen⟩
  | setMacLen size =>
    exact Outcome.ofCheck_keeps (P := Sound) h fun hcheck => ⟨h.key, macLen_eq_ok_iff.mp hcheck⟩

theorem sound_of_reachable {m : Omac a} (h : Reachable Made step m) : Sound m :=
  h.invariant (fun _ => Made.sound) fun _ call hsound => hsound.step call

end Omac

/-! ## 2. The meshed code -/

namespace MeshedOmac

variable {m : MeshedOmac a}

/-- A new context of a key and its three numbers. -/
def Fresh (key : Key) (sectionLen masterSection macLen : Nat) (m : MeshedOmac a) : Prop :=
  ∃ m₀, ofKey a key sectionLen masterSection = .ok m₀ ∧ m₀.setMacLen macLen = .done m ()

/-- The contexts that a caller can have before the first call. -/
inductive Made : MeshedOmac a → Prop
  | unkeyed : Made (unkeyed a)
  | ofKey {key : Key} {sectionLen masterSection : Nat} {m : MeshedOmac a}
      (made : ofKey a key sectionLen masterSection = .ok m) : Made m
  | ofLimits {key : Key} {limits : Limits} {m : MeshedOmac a}
      (made : ofLimits a key limits = .ok m) : Made m

/-- The numbers are in their bounds, and the keys that a reset goes back to are there if and only if
there are keys at all. -/
structure Sound (m : MeshedOmac a) : Prop where
  sectionLen : m.sectionLen ≠ 0 ∧ m.sectionLen % a.blockLen = 0
  masterSection : m.masterSection ≠ 0 ∧ m.masterSection % a.blockLen = 0
  macLen : 1 ≤ m.macLen ∧ m.macLen ≤ a.blockLen
  keyed : m.keys.isSome = m.initial.isSome

theorem setMacLen_eq (m : MeshedOmac a) {size : Nat} (hsize : 1 ≤ size ∧ size ≤ a.blockLen) :
    m.setMacLen size = .done { m with macLen := size } () := by
  rw [setMacLen, macLen_eq_ok_iff.mpr hsize]
  rfl

theorem ofLimits_fresh {key : Key} {limits : Limits} (h : ofLimits a key limits = .ok m) :
    Fresh key limits.macSection limits.masterSection limits.macLen m := by
  rw [ofLimits, bind_eq_ok_iff] at h
  obtain ⟨⟨⟩, -, h⟩ := h
  obtain ⟨m₀, hm₀, h⟩ := bind_eq_ok_iff.mp h
  obtain ⟨⟨⟩, hanswer, h⟩ := bind_eq_ok_iff.mp h
  obtain rfl := Except.ok.inj h
  refine ⟨m₀, hm₀, ?_⟩
  rw [Outcome.done, ← hanswer]

theorem sound_unkeyed (a : Algorithm) : Sound (unkeyed a) := by
  cases a <;> exact ⟨by decide, by decide, by decide, rfl⟩

theorem sound_ofKey {key : Key} {sectionLen masterSection : Nat}
    (h : ofKey a key sectionLen masterSection = .ok m) : Sound m := by
  obtain ⟨hlen, hmaster, rfl⟩ := ofKey_eq_ok_iff.mp h
  exact ⟨hlen, hmaster, (sound_unkeyed a).macLen, rfl⟩

theorem Sound.setMacLen (h : Sound m) (size : Nat) : Sound (m.setMacLen size).after :=
  Outcome.ofCheck_keeps (P := Sound) h fun hcheck =>
    ⟨h.sectionLen, h.masterSection, macLen_eq_ok_iff.mp hcheck, h.keyed⟩

theorem Made.sound (h : Made m) : Sound m := by
  cases h with
  | unkeyed => exact sound_unkeyed a
  | ofKey made => exact sound_ofKey made
  | @ofLimits _ limits _ made =>
    obtain ⟨m₀, hm₀, hset⟩ := ofLimits_fresh made
    have hsound := (sound_ofKey hm₀).setMacLen limits.macLen
    rwa [hset] at hsound

namespace Call

/-- The call is about the message: it brings bytes, or it asks for the code. -/
def works : Call → Bool
  | .update _ | .finish | .verify _ => true
  | .reset | .setKey _ | .setMacLen _ | .setSections _ _ => false

/-- The call keys the context. -/
def keys : Call → Bool
  | .setKey _ => true
  | _ => false

end Call

/-- **Work on a message moves nothing but the message**: the chain with its keys, the count of its
bytes, and whether it is finished. Keys neither come nor go. -/
theorem step_works (m : MeshedOmac a) {call : Call} (hcall : call.works = true) :
    ∃ keys chain processed finished,
      (step m call).after.1 = { m with
        keys := keys, chain := chain, processed := processed, finished := finished } ∧
      keys.isSome = m.keys.isSome := by
  have hready : ∀ keys, m.ready = .ok keys → m.keys.isSome = true := by
    intro keys h
    rw [ready] at h
    split at h
    · cases h
    · split at h
      · cases h
      · next hkeys => rw [hkeys]; rfl
  have hfinish : ∃ keys chain processed finished,
      m.finish.after = { m with
        keys := keys, chain := chain, processed := processed, finished := finished } ∧
      keys.isSome = m.keys.isSome := by
    rw [MeshedOmac.finish]
    cases hkeys : m.ready with
    | error e => exact ⟨m.keys, m.chain, m.processed, m.finished, rfl, rfl⟩
    | ok keys => exact ⟨some _, _, _, true, rfl, (hready keys hkeys).symm⟩
  cases call with
  | update data =>
    change ∃ keys chain processed finished, (m.update data).after = _ ∧ _
    rw [MeshedOmac.update]
    cases hkeys : m.ready with
    | error e => exact ⟨m.keys, m.chain, m.processed, m.finished, rfl, rfl⟩
    | ok keys => exact ⟨some _, _, _, m.finished, rfl, (hready keys hkeys).symm⟩
  | finish => exact hfinish
  | verify expected => exact hfinish
  | reset | setKey _ | setMacLen _ | setSections _ _ => exact absurd hcall (by simp [Call.works])

theorem Sound.step (h : Sound m) (call : Call) : Sound (step m call).after.1 := by
  cases hworks : call.works with
  | true =>
    obtain ⟨keys, chain, processed, finished, hafter, hkeys⟩ := step_works m hworks
    rw [hafter]
    exact ⟨h.sectionLen, h.masterSection, h.macLen, hkeys.trans h.keyed⟩
  | false =>
    cases call with
    | reset => exact ⟨h.sectionLen, h.masterSection, h.macLen, rfl⟩
    | setKey key =>
      change Sound (m.setKey key).after
      rw [setKey_eq h.masterSection.2]
      exact ⟨h.sectionLen, h.masterSection, h.macLen, rfl⟩
    | setMacLen size => exact h.setMacLen size
    | setSections sectionLen masterSection =>
      refine Outcome.ofCheck_keeps (P := Sound) h fun hcheck => ?_
      obtain ⟨⟨⟩, hlen, hmaster⟩ := bind_eq_ok_iff.mp hcheck
      exact ⟨macSection_eq_ok_iff.mp hlen, macSection_eq_ok_iff.mp hmaster, h.macLen, h.keyed⟩
    | update _ | finish | verify _ => exact absurd hworks (by simp [Call.works])

theorem sound_of_reachable (h : Reachable Made step m) : Sound m :=
  h.invariant (fun _ => Made.sound) fun _ call hsound => hsound.step call

/-! ## 3. The last key -/

/-- The context was keyed last with `key`, at a time when its master section was
`masterSection`. -/
inductive LastKeyed (key : Key) (masterSection : Nat) : MeshedOmac a → Prop
  | ofKey {sectionLen : Nat} {m : MeshedOmac a}
      (made : ofKey a key sectionLen masterSection = .ok m) : LastKeyed key masterSection m
  | ofLimits {limits : Limits} {m : MeshedOmac a} (made : ofLimits a key limits = .ok m)
      (master : limits.masterSection = masterSection) : LastKeyed key masterSection m
  | setKey {m : MeshedOmac a} (h : Reachable Made step m)
      (master : m.masterSection = masterSection) :
    LastKeyed key masterSection (step m (.setKey key)).after.1
  | called {m : MeshedOmac a} (h : LastKeyed key masterSection m) {call : Call}
      (other : call.keys = false) : LastKeyed key masterSection (step m call).after.1

theorem initial_setMacLen (m : MeshedOmac a) (size : Nat) :
    (m.setMacLen size).after.initial = m.initial :=
  Outcome.ofCheck_keeps (P := fun m' : MeshedOmac a => m'.initial = m.initial) rfl fun _ => rfl

/-- Only a key replaces the keys that a reset goes back to. -/
theorem initial_step (m : MeshedOmac a) {call : Call} (hcall : call.keys = false) :
    (step m call).after.1.initial = m.initial := by
  cases hworks : call.works with
  | true =>
    obtain ⟨keys, chain, processed, finished, hafter, -⟩ := step_works m hworks
    rw [hafter]
  | false =>
    cases call with
    | reset => rfl
    | setMacLen size => exact initial_setMacLen m size
    | setSections sectionLen masterSection =>
      exact Outcome.ofCheck_keeps (P := fun m' : MeshedOmac a => m'.initial = m.initial) rfl
        fun _ => rfl
    | setKey _ => exact absurd hcall (by simp [Call.keys])
    | update _ | finish | verify _ => exact absurd hworks (by simp [Call.works])

/-- A context with keys has been keyed at some time. -/
theorem lastKeyed_of_reachable (h : Reachable Made step m) (hkeys : m.keys.isSome = true) :
    ∃ key masterSection, LastKeyed key masterSection m := by
  rw [(sound_of_reachable h).keyed] at hkeys
  induction h with
  | made h =>
    cases h with
    | unkeyed => exact absurd hkeys (by simp [unkeyed])
    | ofKey made => exact ⟨_, _, .ofKey made⟩
    | ofLimits made => exact ⟨_, _, .ofLimits made rfl⟩
  | called h call ih =>
    cases hcall : call.keys with
    | false =>
      rw [initial_step _ hcall] at hkeys
      obtain ⟨key, masterSection, hlast⟩ := ih hkeys
      exact ⟨key, masterSection, hlast.called hcall⟩
    | true =>
      cases call with
      | setKey key => exact ⟨key, _, .setKey h rfl⟩
      | _ => exact absurd hcall (by simp [Call.keys])

/-- What a context remembers are the keys that its last key gave it. -/
theorem LastKeyed.initial {key : Key} {masterSection : Nat} (h : LastKeyed key masterSection m) :
    (masterSection ≠ 0 ∧ masterSection % a.blockLen = 0) ∧
      m.initial = some (SectionKeys.ofKey a key masterSection) := by
  induction h with
  | ofKey made =>
    obtain ⟨-, hmaster, rfl⟩ := ofKey_eq_ok_iff.mp made
    exact ⟨hmaster, rfl⟩
  | @ofLimits limits m made master =>
    obtain ⟨m₀, hm₀, hset⟩ := ofLimits_fresh made
    have hinitial := initial_setMacLen m₀ limits.macLen
    rw [hset] at hinitial
    obtain ⟨-, hmaster, rfl⟩ := ofKey_eq_ok_iff.mp hm₀
    rw [← master]
    exact ⟨hmaster, hinitial⟩
  | setKey h master =>
    have hsound := sound_of_reachable h
    rw [← master]
    refine ⟨hsound.masterSection, ?_⟩
    change (MeshedOmac.setKey _ key).after.initial = _
    rw [setKey_eq hsound.masterSection.2]
    rfl
  | called h other ih =>
    rw [initial_step _ other]
    exact ih

end MeshedOmac

end GostSuite

import GostSuite.Proofs.Cipher.Standard
import GostSuite.Proofs.CounterStream.Usage
import GostSuite.Proofs.Restart

/-!
# What is left of a cipher when its key is replaced

A Gost89 cipher has a parameter set besides its key, and a caller who wants another set than the
default makes the cipher and hands it to a context. The caller holds no cipher afterwards. Whether
the set is still there after a change of keys is up to the context, and nothing in what comes out
shows it: every set gives a permutation.

A cipher that is given a key in place keeps its set. So does whatever changes keys that way: the
authenticated mode (`Mgm.setKey_params`), and the counter stream, which replaces its own key at
every section (`CounterStream.sectionCipher_withKey`). The plain code makes a new cipher of the key,
with the default set (`Omac.setKey_default`). For a caller who chose the default this is the same;
for any other it is another code from then on.
-/

set_option autoImplicit false

namespace GostSuite

/-! ## 1. The authenticated mode -/

namespace Mgm

/-- The context has a cipher with some key and the parameter set. -/
def HasParams (params : ParamSet) (m : Mgm .gost89) : Prop :=
  ∃ key, m.cipher = some (.gost89OfKey key params)

theorem HasParams.step {params : ParamSet} {m : Mgm .gost89} (h : HasParams params m)
    (call : Call) : HasParams params (step m call).after.1 := by
  obtain ⟨key, hcipher⟩ := h
  obtain ⟨key', rfl⟩ | ⟨len, rfl⟩ | ⟨phase, message, hafter⟩ := m.step_cases call
  · refine ⟨key', ?_⟩
    change (m.setKey key').cipher = _
    rw [setKey, hcipher]
    rfl
  · exact Outcome.ofCheck_keeps (P := HasParams params) ⟨key, hcipher⟩ fun _ => ⟨key, hcipher⟩
  · rw [hafter]
    exact ⟨key, hcipher⟩

/-- A key leaves a new context of the same parameter set. -/
theorem setKey_params (params : ParamSet) (key : Key) (calls : List Call) (key' : Key) :
    let m := runCalls step (ofCipher (.gost89OfKey key params)) calls
    Fresh (.gost89OfKey key' params) m.tagLen (m.setKey key') := by
  intro m
  have hmade : Reachable Made step (ofCipher (.gost89OfKey key params)) :=
    .made (.origin (.withCipher (.gost89OfKey key params)))
  have hrun : HasParams params m :=
    runCalls_keeps (P := HasParams params) (fun _ call h => h.step call) ⟨key, rfl⟩ calls
  obtain ⟨present, hcipher⟩ := hrun
  exact setKey_fresh (hmade.run calls) hcipher key'

end Mgm

/-! ## 2. The plain code -/

namespace Omac

/-- A key leaves a new context of the default parameter set. -/
theorem setKey_default (params : ParamSet) (key : Key) (calls : List Call) (key' : Key) :
    let m := runCalls step (ofCipher (.gost89OfKey key params)) calls
    Fresh (.gost89OfKey key' default) m.macLen (m.setKey key') := by
  intro m
  have hmade : Reachable Made step (ofCipher (.gost89OfKey key params)) :=
    .made (.ofCipher (.gost89OfKey key params))
  have hlen := (sound_of_reachable (hmade.run calls)).macLen
  rw [Fresh, setMacLen, macLen_eq_ok_iff.mpr hlen]
  rfl

/-- The whole code of the empty message, by the cipher. -/
def emptyCode {n : Nat} (encrypt : Bytes n → Bytes n) : Bytes n :=
  (Chain.start n).close encrypt (encrypt (.zero n)).double

theorem finish_ofCipher {a : Algorithm} (c : Cipher a) :
    (ofCipher c).finish.answer = .ok (.ofBlock (emptyCode c.encrypt) a.blockLen) := rfl

end Omac

/-! ## 3. The law -/

open CounterStream KeyUsage in
/-- **What a change of keys leaves of a parameter set.** A context is made of a Gost89 cipher with
any set and key, and called in any way.

* A key leaves an authenticated context as a new one of that key and the same set, with its length
  of tags.
* A key leaves a context of the plain code as a new one of that key and the default set, with its
  length of codes.
* Every block of a counter stream is encrypted under the set, with the key of its section, however
  often there has been a new one. -/
theorem params_after_rekeying (params : ParamSet) (key : Key) :
    (∀ (calls : List Mgm.Call) (key' : Key),
      let m := runCalls Mgm.step (.ofCipher (.gost89OfKey key params)) calls
      Mgm.Fresh (.gost89OfKey key' params) m.tagLen (m.setKey key')) ∧
    (∀ (calls : List Omac.Call) (key' : Key),
      let m := runCalls Omac.step (.ofCipher (.gost89OfKey key params)) calls
      Omac.Fresh (.gost89OfKey key' default) m.macLen (m.setKey key')) ∧
    ∀ (iv : ByteString) (sectionLen : Nat) (s : CounterStream .gost89),
      ofCipher (.gost89OfKey key params) iv sectionLen = .ok s → ∀ calls : List CounterStream.Call,
        let log := s.blockLog calls
        ∀ (i : Nat) (hi : i < log.length),
          log[i].nextBlock.keystream =
            (Cipher.gost89OfKey (sectionKey (.gost89 params) key (keyOf due log i)) params).encrypt
              log[i].counter := by
  refine ⟨fun calls key' => Mgm.setKey_params params key calls key',
    fun calls key' => Omac.setKey_default params key calls key', ?_⟩
  intro iv sectionLen s hmade calls log i hi
  obtain ⟨hsection, -, rfl⟩ := ofCipher_eq_ok_iff.mp hmade
  have hrun := (Ledger.start (.gost89OfKey key params) iv hsection).run calls
  have hblock := (hrun.before i hi).blockAt hi
  have hcipher := sectionCipher_withKey (.gost89 params) key (keyOf due log i)
  exact hblock.keystream.trans (congrArg (Cipher.encrypt · log[i].counter) hcipher)

/-- Contexts of another set than the default, and a stream with a section of one block. -/
theorem params_after_rekeying_test :
    let c := Cipher.gost89OfKey (.zero 32) .test
    let key' : Key := .padded 32 [1, 2, 3]
    let mgm := runCalls Mgm.step (.ofCipher c) [.setIv (List.replicate 8 5), .setTagLen 4]
    let omac := runCalls Omac.step (.ofCipher c) [.update [1, 2, 3], .setMacLen 2]
    Mgm.Fresh (.gost89OfKey key' .test) mgm.tagLen (mgm.setKey key') ∧
    Omac.Fresh (.gost89OfKey key' default) omac.macLen (omac.setKey key') ∧
    ∃ s, CounterStream.ofCipher c [1, 2, 3, 4] 8 = .ok s ∧
      let log := s.blockLog [.apply (List.replicate 20 7)]
      ∀ (i : Nat) (hi : i < log.length),
        log[i].nextBlock.keystream =
          (Cipher.gost89OfKey
            (CounterStream.sectionKey (.gost89 .test) (.zero 32)
              (KeyUsage.keyOf CounterStream.due log i))
            .test).encrypt log[i].counter := by
  intro c key' mgm omac
  obtain ⟨hmgm, homac, hstream⟩ := params_after_rekeying .test (.zero 32)
  exact ⟨hmgm _ key', homac _ key', _, rfl, hstream [1, 2, 3, 4] 8 _ rfl _⟩

/-- **The plain code forgets the set.** A context with the set of the test parameters is given the
key that it has already. The code of the empty message is another one than before. -/
theorem Omac.setKey_forgets :
    let key : Key := .zero 32
    let m := Omac.ofCipher (.gost89OfKey key .test)
    m.finish.answer = .ok ⟨[0xe0, 0xd2, 0x0b, 0xd3, 0x87, 0x5b, 0x16, 0x35]⟩ ∧
      (m.setKey key).finish.answer = .ok ⟨[0x66, 0x44, 0x5a, 0x41, 0x48, 0x8c, 0xea, 0xef]⟩ := by
  intro key m
  let code (s : Substitution) : Tag :=
    .ofBlock (emptyCode (Gost89.encryptRows s (Gost89.words key))) 8
  have hcode (params : ParamSet) :
      (Omac.ofCipher (.gost89OfKey key params)).finish.answer = .ok (code params.substitution) := by
    rw [finish_ofCipher, Cipher.gost89OfKey, Cipher.encrypt_gost89_rows]
    rfl
  have htest : code Substitution.test = ⟨[0xe0, 0xd2, 0x0b, 0xd3, 0x87, 0x5b, 0x16, 0x35]⟩ := by
    decide +kernel
  have hdefault : code Substitution.cryptoProA =
      ⟨[0x66, 0x44, 0x5a, 0x41, 0x48, 0x8c, 0xea, 0xef]⟩ := by
    decide +kernel
  exact ⟨(hcode .test).trans (congrArg _ htest), (hcode default).trans (congrArg _ hdefault)⟩

end GostSuite

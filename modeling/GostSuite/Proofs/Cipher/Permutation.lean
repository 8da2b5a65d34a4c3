import GostSuite.Cipher.Meshing
import GostSuite.Proofs.Cipher.Kuznyechik
import GostSuite.Proofs.Cipher.Network

/-!
# Ciphers are permutations

A cipher with a key takes blocks to blocks and loses nothing: decryption is its inverse, on both
sides. This is the one property of a cipher that the modes of the suite rest on. A mode encrypts
counters that do not repeat, and may conclude that what comes out does not repeat either.

Two constructions are behind it, and each has its file. Here they meet in the family of ciphers,
where the key material is whatever it is: no key is weak in this respect, and no way to come by a
key matters. `KeyChange` lists the ways there are.
-/

set_option autoImplicit false

namespace GostSuite

namespace Cipher

variable {a : Algorithm}

/-! ## 1. Both directions -/

theorem encrypt_magma (words : List Word) (b : Bytes 8) :
    (Cipher.magma words).encrypt b =
      Magma.layout.across ParamSet.tc26Z.tables (Network.forward words) b := rfl

theorem encrypt_gost89 (words : List Word) (params : ParamSet) (b : Bytes 8) :
    (Cipher.gost89 words params).encrypt b =
      Gost89.layout.across params.tables (Network.forward words) b := rfl

theorem decrypt_encrypt (c : Cipher a) (b : Block a) : c.decrypt (c.encrypt b) = b := by
  cases c with
  | magma words => exact (Magma.layout.across_inverse ParamSet.tc26Z.tables words b).1
  | kuznyechik keys => exact Kuznyechik.decrypt_encrypt keys b
  | gost89 words params => exact (Gost89.layout.across_inverse params.tables words b).1

theorem encrypt_decrypt (c : Cipher a) (b : Block a) : c.encrypt (c.decrypt b) = b := by
  cases c with
  | magma words => exact (Magma.layout.across_inverse ParamSet.tc26Z.tables words b).2
  | kuznyechik keys => exact Kuznyechik.encrypt_decrypt keys b
  | gost89 words params => exact (Gost89.layout.across_inverse params.tables words b).2

theorem encrypt_injective (c : Cipher a) : Function.Injective c.encrypt :=
  Function.LeftInverse.injective c.decrypt_encrypt

theorem encrypt_bijective (c : Cipher a) : Function.Bijective c.encrypt :=
  ⟨c.encrypt_injective, Function.RightInverse.surjective c.encrypt_decrypt⟩

/-! ## 2. Whatever happens to the key -/

/-- What can happen to the key of a cipher after the cipher was made. -/
inductive KeyChange where
  | rekey (key : Key)
  | mesh

def change (c : Cipher a) : KeyChange → Cipher a
  | .rekey key => c.rekey key
  | .mesh => c.mesh

/-- The cipher after its key has changed any number of times. -/
def afterChanges (c : Cipher a) (changes : List KeyChange) : Cipher a := changes.foldl change c

/-- **Every cipher permutes its blocks, and its decryption is the inverse**, whatever its key
material is and however often it has been given a new key or has meshed its own. The network
permutes blocks under any tables and any key words at all, for every layout of its halves; the two
ciphers that run it are the layouts `Magma.layout` and `Gost89.layout` under their own tables. -/
theorem permutes_blocks :
    (∀ (a : Algorithm) (start : Cipher a) (changes : List KeyChange),
      let c := start.afterChanges changes
      Function.Bijective c.encrypt ∧
        ∀ b, c.decrypt (c.encrypt b) = b ∧ c.encrypt (c.decrypt b) = b) ∧
    (∀ (layout : Network.Layout) (tables : ByteTables) (words : List Word) (b : Bytes 8),
      layout.across tables (Network.backward words)
          (layout.across tables (Network.forward words) b) = b ∧
        layout.across tables (Network.forward words)
          (layout.across tables (Network.backward words) b) = b) ∧
    (∀ (words : List Word) (params : ParamSet) (b : Bytes 8),
      (Cipher.magma words).encrypt b =
          Magma.layout.across ParamSet.tc26Z.tables (Network.forward words) b ∧
        (Cipher.gost89 words params).encrypt b =
          Gost89.layout.across params.tables (Network.forward words) b) := by
  refine ⟨fun a start changes => ?_, fun layout tables words b => ?_,
    fun words params b => ⟨encrypt_magma words b, encrypt_gost89 words params b⟩⟩
  · intro c
    exact ⟨c.encrypt_bijective, fun b => ⟨c.decrypt_encrypt b, c.encrypt_decrypt b⟩⟩
  · exact layout.across_inverse tables words b

end Cipher

end GostSuite

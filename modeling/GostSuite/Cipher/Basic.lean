import GostSuite.Cipher.Kuznyechik
import GostSuite.Cipher.Network
import GostSuite.Error

/-!
# Keyed ciphers

A `Cipher a` is algorithm `a` with a key: its expanded key material and, for Gost89, the parameter
set that it was made with. Every mode of the suite is written over this family, so a statement about
all ciphers is a statement about all `a` and all `c : Cipher a`.

A cipher can be given a new key in place. `rekey` replaces the key material and nothing else: the
parameter set is not part of the key and stays.
-/

set_option autoImplicit false

namespace GostSuite

abbrev Block (a : Algorithm) := Bytes a.blockLen

instance (a : Algorithm) : BlockSize a.blockLen := ⟨a.blockLen_pos⟩

/-- An algorithm with its key material. -/
inductive Cipher : Algorithm → Type where
  | magma (words : List Word) : Cipher .magma
  | kuznyechik (roundKeys : List Kuznyechik.State) : Cipher .kuznyechik
  | gost89 (words : List Word) (params : ParamSet) : Cipher .gost89

namespace Cipher

variable {a : Algorithm}

def gost89OfKey (key : Key) (params : ParamSet) : Cipher .gost89 :=
  .gost89 (Gost89.words key) params

/-- The algorithm with a key; Gost89 takes its default parameter set. -/
def ofKey : (a : Algorithm) → Key → Cipher a
  | .magma, key => .magma (Magma.words key)
  | .kuznyechik, key => .kuznyechik (Kuznyechik.roundKeys key)
  | .gost89, key => gost89OfKey key default

/-- The algorithm with a key that still has to show its length. -/
def ofBytes (a : Algorithm) (key : ByteString) : Except Error (Cipher a) :=
  (Bytes.read 32 key).map (ofKey a)

/-- The same cipher under another key. -/
def rekey : Cipher a → Key → Cipher a
  | .magma _, key => .magma (Magma.words key)
  | .kuznyechik _, key => .kuznyechik (Kuznyechik.roundKeys key)
  | .gost89 _ params, key => gost89OfKey key params

def encrypt : Cipher a → Block a → Block a
  | .magma words, b => Magma.run (Network.forward words) b
  | .kuznyechik keys, b => Kuznyechik.encrypt keys b
  | .gost89 words params, b => Gost89.join (Gost89.runHalves params (Network.forward words) b)

def decrypt : Cipher a → Block a → Block a
  | .magma words, b => Magma.run (Network.backward words) b
  | .kuznyechik keys, b => Kuznyechik.decrypt keys b
  | .gost89 words params, b => Gost89.join (Gost89.runHalves params (Network.backward words) b)

/-- The block through the sixteen rounds of the imitation code. -/
def imitationRounds : Cipher .gost89 → Bytes 8 → Bytes 8
  | .gost89 words params, b => Gost89.joinStraight (Gost89.runHalves params (Network.half words) b)

/-- The one-line report: the key is kept back. -/
def report : Cipher a → String
  | .magma _ => Report.opened "Magma" []
  | .kuznyechik _ => Report.opened "Kuznyechik" []
  | .gost89 _ params => Report.opened "Gost89" [("param_set", params.name)]

end Cipher

end GostSuite

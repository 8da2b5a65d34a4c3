/-!
# The ciphers by name

Three block ciphers share one network of modes. Magma and Kuznyechik are the ciphers of
GOST R 34.12-2015, with 64-bit and 128-bit blocks. Gost89 is GOST 28147-89, which leaves its
substitution table to a parameter set; six sets have been assigned an object identifier.

Everything that depends on the cipher alone is decided here: the block length, and through it the
length of an initial value and of a full tag.
-/

set_option autoImplicit false

namespace GostSuite

/-- Every cipher takes a key of 32 bytes. -/
def keyLen : Nat := 32

/-- The block ciphers of the suite. -/
inductive Algorithm where
  | magma
  | kuznyechik
  | gost89
  deriving DecidableEq, Repr

namespace Algorithm

def all : List Algorithm := [magma, kuznyechik, gost89]

def name : Algorithm → String
  | magma => "Magma"
  | kuznyechik => "Kuznyechik"
  | gost89 => "Gost89"

def blockLen : Algorithm → Nat
  | magma => 8
  | kuznyechik => 16
  | gost89 => 8

/-- The bytes of an initial value: half a block, the other half counts. -/
def halfBlockLen (a : Algorithm) : Nat := a.blockLen / 2

/-- The bytes of a full message authentication code: a block. -/
def macLen (a : Algorithm) : Nat := a.blockLen

def rank : Algorithm → Nat
  | magma => 0
  | kuznyechik => 1
  | gost89 => 2

instance : Ord Algorithm := ⟨fun a b => compare a.rank b.rank⟩

theorem blockLen_pos (a : Algorithm) : 0 < a.blockLen := by cases a <;> decide

end Algorithm

/-- The substitution tables that have been published for GOST 28147-89. -/
inductive ParamSet where
  | test
  | cryptoProA
  | cryptoProB
  | cryptoProC
  | cryptoProD
  | tc26Z
  deriving DecidableEq, Repr

namespace ParamSet

def all : List ParamSet := [test, cryptoProA, cryptoProB, cryptoProC, cryptoProD, tc26Z]

def name : ParamSet → String
  | test => "Test"
  | cryptoProA => "CryptoProA"
  | cryptoProB => "CryptoProB"
  | cryptoProC => "CryptoProC"
  | cryptoProD => "CryptoProD"
  | tc26Z => "Tc26Z"

def oid : ParamSet → String
  | test => "1.2.643.2.2.31.0"
  | cryptoProA => "1.2.643.2.2.31.1"
  | cryptoProB => "1.2.643.2.2.31.2"
  | cryptoProC => "1.2.643.2.2.31.3"
  | cryptoProD => "1.2.643.2.2.31.4"
  | tc26Z => "1.2.643.7.1.2.5.1.1"

/-- The parameter set that an object identifier stands for. -/
def ofOid? (oid : String) : Option ParamSet := all.find? fun set => set.oid == oid

/-- The set of a cipher that is keyed without naming one. -/
instance : Inhabited ParamSet := ⟨cryptoProA⟩

end ParamSet

end GostSuite

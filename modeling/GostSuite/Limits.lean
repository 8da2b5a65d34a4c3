import GostSuite.Error

/-!
# Limits

The numbers that a context can be tuned with: how long its tags are, how many bytes a section key
serves, how wide the counter of the key derivation is. `Limits` holds one value of each for one
algorithm, and starts with the recommended ones.

Each number has its bounds, checked in one place by whoever takes the number, be it a setting here
or a call on a context. Tags and codes have one to `n` bytes, `n` the block length. A section is a
multiple of the block; for a stream it may be zero, which turns meshing off, for a code it may not.
-/

set_option autoImplicit false

namespace GostSuite

/-! ## Bounds -/

namespace Bounds

def tagLen (a : Algorithm) (len : Nat) : Except Error Unit :=
  if 1 ≤ len ∧ len ≤ a.blockLen then .ok () else .error (.invalidTagLength len a.blockLen)

theorem tagLen_blockLen (a : Algorithm) : tagLen a a.blockLen = .ok () :=
  if_pos ⟨a.blockLen_pos, Nat.le_refl _⟩

def macLen (a : Algorithm) (size : Nat) : Except Error Unit :=
  if 1 ≤ size ∧ size ≤ a.macLen then .ok () else .error (.invalidMacSize size a.macLen)

/-- The section of a stream is a multiple of the block; zero turns meshing off. -/
def streamSection (a : Algorithm) (size : Nat) : Except Error Unit :=
  if size % a.blockLen = 0 then .ok () else .error (.invalidSectionSize size a.blockLen)

/-- The section of a code is a multiple of the block, and not zero. -/
def macSection (a : Algorithm) (size : Nat) : Except Error Unit :=
  if size ≠ 0 ∧ size % a.blockLen = 0 then .ok ()
  else .error (.invalidSectionSize size a.blockLen)

def counterLen (len : Nat) : Except Error Unit :=
  if 1 ≤ len ∧ len ≤ 4 then .ok ()
  else .error (.internalError "the KDF counter must be 1 to 4 bytes")

end Bounds

/-- One value for each tunable number. -/
structure Limits where
  algorithm : Algorithm
  tagLen : Nat
  macLen : Nat
  /-- Bytes of keystream under one section key. -/
  streamSection : Nat
  /-- Bytes of message under one section key of the meshed code. -/
  macSection : Nat
  /-- Bytes of keystream under one master key of the meshed code. -/
  masterSection : Nat
  counterLen : Nat
  deriving DecidableEq

namespace Limits

/-- The recommended values: full tags, sections of four kilobytes for Kuznyechik and one for the
others, and a master section that serves sixteen section keys. -/
def recommended (a : Algorithm) : Limits :=
  let stream := match a with
    | .kuznyechik => 4096
    | .magma | .gost89 => 1024
  { algorithm := a
    tagLen := a.blockLen
    macLen := a.blockLen
    streamSection := stream
    macSection := stream
    masterSection := 16 * (keyLen + a.blockLen)
    counterLen := 1 }

instance : Inhabited Limits := ⟨recommended .kuznyechik⟩

inductive Setting where
  | tagLen (len : Nat)
  | macLen (size : Nat)
  | streamSection (size : Nat)
  | macSection (size : Nat)
  | masterSection (size : Nat)
  | counterLen (len : Nat)

/-- The limits with one number changed, unless it breaks its bounds. -/
def set (l : Limits) : Setting → Except Error Limits
  | .tagLen len => (Bounds.tagLen l.algorithm len).map fun _ => { l with tagLen := len }
  | .macLen size => (Bounds.macLen l.algorithm size).map fun _ => { l with macLen := size }
  | .streamSection size =>
    (Bounds.streamSection l.algorithm size).map fun _ => { l with streamSection := size }
  | .macSection size =>
    (Bounds.macSection l.algorithm size).map fun _ => { l with macSection := size }
  | .masterSection size =>
    (Bounds.macSection l.algorithm size).map fun _ => { l with masterSection := size }
  | .counterLen len => (Bounds.counterLen len).map fun _ => { l with counterLen := len }

/-- Limits serve the algorithm that they were made for. -/
def require (l : Limits) (a : Algorithm) : Except Error Unit :=
  if l.algorithm = a then .ok () else .error (.unsupportedAlgorithm a)

def report (l : Limits) : String :=
  Report.full "Limits"
    [("algorithm", l.algorithm.name), ("tag_len", toString l.tagLen),
      ("mac_len", toString l.macLen), ("ctr_section", toString l.streamSection),
      ("omac_section", toString l.macSection), ("omac_master_section", toString l.masterSection),
      ("kdf_counter_len", toString l.counterLen)]

end Limits

end GostSuite

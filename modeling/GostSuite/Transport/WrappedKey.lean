import GostSuite.Transport.ImitationMac
import GostSuite.Transport.Record

/-!
# Wrapped keys

CryptoPro key wrapping. A key of 32 bytes travels as

    ukm ‖ encrypted key ‖ code

under a key encryption key that both sides have. That key is not used itself: it is diversified
with the eight bytes of `ukm`, which are sent along, and what comes out encrypts and authenticates.
The code is the first half of an imitation code whose chain starts at `ukm`, so the record as a whole
is covered.

Diversification makes eight passes, one for each byte of `ukm`. A pass encrypts the key under
itself with cipher feedback. The bits of the byte choose which words of the key add up to the first
half of the initial value; the others add up to the second.
-/

set_option autoImplicit false

namespace GostSuite

namespace WrappedKey

/-- Bytes of the material that diversifies. -/
def ukmLen : Nat := 8

def codeLen : Nat := 4

def recordLen : Nat := ukmLen + keyLen + codeLen

/-- The sum of the key words whose numbers `chosen` accepts. -/
def sumWords (key : Key) (chosen : Nat → Bool) : Word :=
  ((Gost89.words key).zipIdx.filter fun (_, i) => chosen i).foldl (fun sum (w, _) => sum + w) 0

/-- The initial value of a pass. -/
def passStart (key : Key) (selector : UInt8) : Bytes 8 :=
  let bit := selector.toNat.testBit
  ⟨(sumWords key bit).littleEndian ++ (sumWords key fun i => !bit i).littleEndian, by simp⟩

/-- Cipher feedback: each block is added onto the encrypted one before it. -/
def feedback (encrypt : Bytes 8 → Bytes 8) : (last : Bytes 8) → List (Bytes 8) → List (Bytes 8)
  | _, [] => []
  | last, block :: blocks =>
    let out := encrypt last ^^^ block
    out :: feedback encrypt out blocks

def keyBlocks (key : Key) : List (Bytes 8) := (key.toList.blocks 8).1

def ofBlocks (blocks : List (Bytes 8)) : Key := .padded 32 (ByteString.join blocks)

/-- One pass of the diversification. -/
def pass (params : ParamSet) (key : Key) (selector : UInt8) : Key :=
  let c := Cipher.gost89OfKey key params
  ofBlocks (feedback c.encrypt (passStart key selector) (keyBlocks key))

/-- The key encryption key, diversified. -/
def diversify (params : ParamSet) (kek : Key) (ukm : Bytes 8) : Key :=
  ukm.toList.foldl (pass params) kek

/-- The cipher under the diversified key. -/
def cipher (params : ParamSet) (kek : Key) (ukm : Bytes 8) : Cipher .gost89 :=
  .gost89OfKey (diversify params kek ukm) params

/-- The code of a key. -/
def code (c : Cipher .gost89) (ukm : Bytes 8) (key : Key) : ByteString :=
  (ImitationMac.chain c ukm key.toList).toList.take codeLen

/-- The record of `key`. -/
def make (params : ParamSet) (kek : Key) (ukm : Bytes 8) (key : Key) : ByteString :=
  let c := cipher params kek ukm
  ukm.toList ++ ByteString.join ((keyBlocks key).map c.encrypt) ++ code c ukm key

/-- The key of a record that was made under the same key encryption key. -/
def read (params : ParamSet) (kek : Key) (record : ByteString) : Except Error Key := do
  let malformed := Error.invalidLength recordLen record.length
  if record.length ≠ recordLen then
    throw malformed
  let (ukm, rest) ← Record.field malformed ukmLen record
  let (encrypted, rest) ← Record.field malformed keyLen rest
  let (received, _) ← Record.field malformed codeLen rest
  let ukm := Bytes.padded 8 ukm
  let c := cipher params kek ukm
  let key := ofBlocks ((keyBlocks (.padded 32 encrypted)).map c.decrypt)
  if code c ukm key ≠ received then
    throw .badMac
  return key

end WrappedKey

end GostSuite

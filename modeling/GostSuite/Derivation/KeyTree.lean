import GostSuite.Bytes.BigEndian
import GostSuite.Hash.Hmac
import GostSuite.Limits
import GostSuite.Outcome

/-!
# Keys from keys

The key tree derives any number of 32-byte blocks from one key. Block `i`, counted from one, is the
keyed code of

    i ‖ label ‖ 00 ‖ seed ‖ L

where `i` has the width of the counter and `L` is the length of the whole output in bits, without
leading zero bytes. So the blocks of outputs of different lengths have nothing in common.

A request is refused if the counter is not one to four bytes wide, if the output is not whole
blocks, or if the counter cannot number its blocks; the first of these that holds is the answer.

The bytes are given as a string (`derive`), or written over a buffer that the caller lends (`fill`).
-/

set_option autoImplicit false

namespace GostSuite

namespace KeyTree

def blockLen : Nat := 32

/-- The bits of an output, as short as they can be written. -/
def lengthField (outLen : Nat) : ByteString :=
  (ByteString.bigEndian 8 (8 * outLen)).dropWhile (· == 0)

/-- The message of block `i`. -/
def blockMessage (label seed : ByteString) (counterLen outLen i : Nat) : ByteString :=
  ByteString.bigEndian counterLen i ++ label ++ [0] ++ seed ++ lengthField outLen

/-- Whether an output of this length can be derived with a counter of this width. -/
def check (counterLen outLen : Nat) : Except Error Unit := do
  Bounds.counterLen counterLen
  if outLen = 0 ∨ outLen % blockLen ≠ 0 then
    throw (.internalError "KDF output must be a nonzero multiple of 32 bytes")
  if (1 <<< (8 * counterLen)) - 1 < outLen / blockLen then
    throw (.internalError "the KDF counter cannot represent the output length")

def blocks (key label seed : ByteString) (counterLen outLen : Nat) : List (Bytes 32) :=
  let keyed := Hmac.ofKey key
  (List.range (outLen / blockLen)).map fun i =>
    keyed.code (blockMessage label seed counterLen outLen (i + 1))

/-- `outLen` bytes derived from a key under a label and a seed. -/
def derive (key label seed : ByteString) (counterLen outLen : Nat) : Except Error ByteString := do
  check counterLen outLen
  return (blocks key label seed counterLen outLen).flatMap Bytes.toList

/-- Writes derived blocks over a buffer, the `i`-th first. What is left is shorter than a block. -/
def overwrite (block : Nat → Bytes 32) (i : Nat) (out : ByteString) : ByteString :=
  if blockLen ≤ out.length then (block i).toList ++ overwrite block (i + 1) (out.drop blockLen)
  else out
termination_by out.length
decreasing_by
  simp only [blockLen, List.length_drop] at *
  omega

/-- Fills a buffer with bytes derived from a key under a label and a seed, block by block. -/
def fill (key label seed : ByteString) (counterLen : Nat) (out : ByteString) :
    Outcome ByteString Unit :=
  match check counterLen out.length with
  | .error e => .refused out e
  | .ok _ =>
    let keyed := Hmac.ofKey key
    let block := fun i => keyed.code (blockMessage label seed counterLen out.length i)
    .done (overwrite block 1 out) ()

end KeyTree

end GostSuite

import GostSuite.Bytes.Pieces
import GostSuite.Cipher.Basic
import GostSuite.Limits
import GostSuite.Tag

/-!
# The imitation code

The message code of GOST 28147-89: a chain of sixteen rounds a block instead of thirty-two. Blocks
are filled with zeros, and there are two of them at least, unless there is no message at all: a
message of one block is followed by a block of zeros.
-/

set_option autoImplicit false

namespace GostSuite

namespace ImitationMac

/-- The blocks of the chain of a message. -/
def chainBlocks (data : ByteString) : List (Bytes 8) :=
  match data.paddedBlocks 8 with
  | [block] => [block, .zero 8]
  | blocks => blocks

/-- The chain from `start` over a message. -/
def chain (c : Cipher .gost89) (start : Bytes 8) (data : ByteString) : Bytes 8 :=
  (chainBlocks data).foldl (fun state block => c.imitationRounds (state ^^^ block)) start

/-- The first `len` bytes of the code of a message. -/
def compute (c : Cipher .gost89) (data : ByteString) (len : Nat) : Except Error Tag := do
  Bounds.macLen .gost89 len
  return .ofBlock (chain c (.zero 8) data) len

end ImitationMac

end GostSuite

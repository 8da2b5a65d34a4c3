import GostSuite.Bytes.Pieces
import GostSuite.Cipher.Basic

/-!
# Codebook processing

The bare cipher on each complete block of a string, for cross-checks between implementations. A
last short block stays as it is. Implementations are registered by name; they compute the same
function, and an agreement between them is evidence for both.
-/

set_option autoImplicit false

namespace GostSuite

namespace Codebook

/-- The names under which the implementations of a cipher are registered. -/
def implementations : List String := ["gost-crypto", "RustCrypto"]

variable {a : Algorithm}

/-- Applies `f` to every complete block and leaves the rest alone. -/
def mapBlocks (f : Block a → Block a) (data : ByteString) : ByteString :=
  let (whole, rest) := data.blocks a.blockLen
  ByteString.join (whole.map f) ++ rest

def encrypt (c : Cipher a) : ByteString → ByteString := mapBlocks c.encrypt

def decrypt (c : Cipher a) : ByteString → ByteString := mapBlocks c.decrypt

end Codebook

end GostSuite

import GostSuite.Bytes.Pieces
import GostSuite.Cipher.Basic

/-!
# Key meshing

A key that has worked long enough is replaced by one that it computes itself: the encryption of a
fixed string of 32 bytes, `80 81 … 9f`, block by block. Both sides of a connection take the step at
the same place, so nothing is sent.
-/

set_option autoImplicit false

namespace GostSuite

/-- The 32 bytes whose encryption is the next key. -/
def meshingConstant : ByteString := (List.range 32).map fun i => UInt8.ofNat (0x80 + i)

namespace Cipher

variable {a : Algorithm}

def nextKey (c : Cipher a) : Key :=
  Bytes.padded 32 (ByteString.join ((meshingConstant.blocks a.blockLen).1.map c.encrypt))

/-- The cipher under the key of the next section. -/
def mesh (c : Cipher a) : Cipher a := c.rekey c.nextKey

end Cipher

end GostSuite

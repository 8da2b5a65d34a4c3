import GostSuite.Hash.Streebog

/-!
# The keyed hash

The keyed code of a message is the hash of a masked key and the hash of another masked key and the
message. Keys up to the 64 bytes of a block are filled with zeros, longer ones are hashed first.

The two masked keys are whole blocks, so `Hmac` takes them in once and serves any number of
messages under the key.
-/

set_option autoImplicit false

namespace GostSuite

/-- A key that has been taken in, for the inner and for the outer hash. -/
structure Hmac where
  inner : Streebog.Context
  outer : Streebog.Context

namespace Hmac

/-- The bytes of the key that fill a block: the key itself, or its hash if it is too long. -/
def shortened (key : ByteString) : ByteString :=
  if 64 < key.length then (Streebog.hash key).toList else key

/-- The context after the key, filled to a block and masked with one byte throughout. -/
def masked (key : ByteString) (mask : UInt8) : Streebog.Context :=
  let block := (Bytes.padded 64 (shortened key)).toList.map (· ^^^ mask)
  Streebog.Context.start.take (.ofBytes block) 512

def ofKey (key : ByteString) : Hmac := ⟨masked key 0x36, masked key 0x5c⟩

/-- The code of a message. -/
def code (h : Hmac) (message : ByteString) : Bytes 32 :=
  h.outer.finish (h.inner.finish message).toList

end Hmac

def hmac (key message : ByteString) : Bytes 32 := (Hmac.ofKey key).code message

end GostSuite

import GostSuite.CounterStream
import GostSuite.Mac.Omac
import GostSuite.Transport.Record

/-!
# Exported keys

KExp15 and KImp15: a key of any length travels as a record. The record is the key followed by its
message code, both encrypted in counter mode. The code covers the initial value and the key, so a
record made for one initial value does not read under another.

A record is a block longer than its key, and one shorter than a block is refused before anything
else is looked at.
-/

set_option autoImplicit false

namespace GostSuite

namespace ExportedKey

/-- Bytes of the record of a key. -/
def recordLen (a : Algorithm) (keyLen : Nat) : Nat := keyLen + a.blockLen

/-- The message code of the initial value and the key. -/
def code (a : Algorithm) (macKey : Key) (iv key : ByteString) : Except Error Tag := do
  let begun := (Omac.ofKey a macKey).update iv
  begun.answer
  let fed := begun.after.update key
  fed.answer
  fed.after.finish.answer

/-- The record of `key`. -/
def make (a : Algorithm) (key : ByteString) (cipherKey macKey : Key) (iv : ByteString) :
    Except Error ByteString := do
  let stream ← CounterStream.plain a cipherKey iv
  let tag ← code a macKey iv key
  return (stream.apply (key ++ tag.bytes)).1

/-- The key of a record that was made under the same keys and the same initial value. -/
def read (a : Algorithm) (record : ByteString) (cipherKey macKey : Key) (iv : ByteString) :
    Except Error ByteString := do
  let malformed := Error.invalidLength a.blockLen record.length
  if record.length < a.blockLen then
    throw malformed
  let stream ← CounterStream.plain a cipherKey iv
  let (key, rest) ← Record.field malformed (record.length - a.blockLen) (stream.apply record).1
  let (received, _) ← Record.field malformed a.blockLen rest
  let tag ← code a macKey iv key
  if !tag.verify received then
    throw .badMac
  return key

end ExportedKey

end GostSuite

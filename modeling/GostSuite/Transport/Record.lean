import GostSuite.Error

/-!
# Records

A record is a row of fields of known lengths. It is read from the front: a field is taken off, and
what stands behind it is read on. A record that ends inside a field is malformed, and it is up to
the reader to say what that means for him.
-/

set_option autoImplicit false

namespace GostSuite

namespace Record

/-- Takes a field of `len` bytes off the front, and gives what stands behind it. -/
def field (malformed : Error) (len : Nat) (record : ByteString) :
    Except Error (ByteString × ByteString) :=
  if len ≤ record.length then .ok (record.take len, record.drop len) else .error malformed

theorem field_of_le (malformed : Error) {len : Nat} {record : ByteString}
    (h : len ≤ record.length) :
    field malformed len record = .ok (record.take len, record.drop len) := if_pos h

end Record

end GostSuite

/-!
# Byte strings

Everything the suite reads or writes is a string of bytes. Messages, associated data and key
records have any length and are plain lists. Blocks, keys and digests have a length that their
type fixes, and that length is a field of the value and not a promise in a comment.

Addition is the bitwise exclusive or, byte by byte. `ByteString.xorOnto` changes the common length
only; on two strings of one fixed length it is the group operation of that length.
-/

set_option autoImplicit false

namespace GostSuite

abbrev ByteString := List UInt8

namespace ByteString

/-- Adds `mask` onto `data`. Bytes past the end of the shorter string keep their value, and the
length is that of `data`. -/
def xorOnto : ByteString → ByteString → ByteString
  | [], _ => []
  | b :: data, [] => b :: data
  | b :: data, m :: mask => (b ^^^ m) :: xorOnto data mask

@[simp] theorem length_xorOnto (data mask : ByteString) :
    (xorOnto data mask).length = data.length := by
  induction data generalizing mask with
  | nil => rfl
  | cons b data ih =>
    cases mask with
    | nil => rfl
    | cons m mask => simp [xorOnto, ih]

def hexPair (b : UInt8) : List Char :=
  [Nat.digitChar (b.toNat / 16), Nat.digitChar (b.toNat % 16)]

def hex (s : ByteString) : String :=
  String.ofList (s.flatMap hexPair)

/-- The code points of `text`, each cut to one byte; for labels, which are all below 128. -/
def ascii (text : String) : ByteString :=
  text.toList.map fun c => UInt8.ofNat c.toNat

end ByteString

/-- A value for each byte. -/
abbrev ByteTable (α : Type) := Vector α 256

@[inline] def ByteTable.entry {α : Type} (table : ByteTable α) (x : UInt8) : α :=
  table.get ⟨x.toNat, x.toNat_lt⟩

theorem ByteTable.entry_ofFn {α : Type} (f : Fin 256 → α) (x : UInt8) :
    ByteTable.entry (Vector.ofFn f) x = f ⟨x.toNat, x.toNat_lt⟩ :=
  Vector.getElem_ofFn x.toNat_lt

/-- A number that can be the length of a block. -/
class BlockSize (n : Nat) : Prop where
  pos : 0 < n

/-- A string of exactly `n` bytes. -/
structure Bytes (n : Nat) where
  toList : ByteString
  length_toList : toList.length = n
  deriving DecidableEq

/-- A cipher key: 32 bytes for every cipher of the suite. -/
abbrev Key := Bytes 32

namespace Bytes

variable {n : Nat}

attribute [simp] length_toList

@[ext] theorem ext {a b : Bytes n} (h : a.toList = b.toList) : a = b := by
  cases a; cases b; cases h; rfl

def zero (n : Nat) : Bytes n := ⟨List.replicate n 0, by simp⟩

/-- The first `n` bytes of `s`, with zeros after its end. A string of `n` bytes is kept as it is. -/
def padded (n : Nat) (s : ByteString) : Bytes n :=
  ⟨s.take n ++ List.replicate (n - s.length) 0, by simp; omega⟩

/-- Accepts a string of `n` bytes and no other. -/
def ofList? (n : Nat) (s : ByteString) : Option (Bytes n) :=
  if h : s.length = n then some ⟨s, h⟩ else none

/-- Bytewise addition. -/
def xor (a b : Bytes n) : Bytes n :=
  ⟨a.toList.xorOnto b.toList, by simp⟩

instance : XorOp (Bytes n) := ⟨xor⟩

def hex (b : Bytes n) : String := ByteString.hex b.toList

theorem toList_zero (n : Nat) : (zero n).toList = List.replicate n 0 := rfl

theorem toList_xor (a b : Bytes n) : (a ^^^ b).toList = a.toList.xorOnto b.toList := rfl

theorem padded_toList (b : Bytes n) : padded n b.toList = b := by
  ext1; simp [padded, List.take_of_length_le]

end Bytes

end GostSuite

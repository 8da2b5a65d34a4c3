import GostSuite.Bytes.BigEndian
import GostSuite.Field

/-!
# Kuznyechik

The 128-bit cipher of GOST R 34.12-2015: nine rounds of key addition, substitution and a linear
map, and a last key addition.

The linear map is a shift register of sixteen bytes that steps sixteen times. A step puts an inner
product of the state with fixed coefficients in front and drops the last byte; the coefficient of
the dropped byte is one, which is what lets the register run backward. The products are taken in
`GF(2^8)` modulo `x^8 + x^7 + x^6 + x + 1`, and the cipher reads them from tables. `linearDirect`
multiplies instead, and is what the round constants are made with. Each of the three registers has
its own way to move the bytes: `step` turns the state round and overwrites the front, `stepDirect`
copies place by place, and `stepBack` turns the other way and clears the end before it looks.

The key schedule is a Feistel network of 32 steps over the two halves of the key. The halves after
every eighth step are the next two round keys, and go to the next two of ten slots.
-/

set_option autoImplicit false

namespace GostSuite

namespace Kuznyechik

/-- A block, and the content of the register. -/
abbrev State := Bytes 16

/-- Round keys in one schedule. -/
def roundCount : Nat := 10

/-! ## Substitution -/

set_option maxRecDepth 2000 in
/-- The substitution, which Streebog shares. -/
def pi : ByteTable UInt8 :=
  #v[
    0xfc, 0xee, 0xdd, 0x11, 0xcf, 0x6e, 0x31, 0x16, 0xfb, 0xc4, 0xfa, 0xda, 0x23, 0xc5, 0x04, 0x4d,
    0xe9, 0x77, 0xf0, 0xdb, 0x93, 0x2e, 0x99, 0xba, 0x17, 0x36, 0xf1, 0xbb, 0x14, 0xcd, 0x5f, 0xc1,
    0xf9, 0x18, 0x65, 0x5a, 0xe2, 0x5c, 0xef, 0x21, 0x81, 0x1c, 0x3c, 0x42, 0x8b, 0x01, 0x8e, 0x4f,
    0x05, 0x84, 0x02, 0xae, 0xe3, 0x6a, 0x8f, 0xa0, 0x06, 0x0b, 0xed, 0x98, 0x7f, 0xd4, 0xd3, 0x1f,
    0xeb, 0x34, 0x2c, 0x51, 0xea, 0xc8, 0x48, 0xab, 0xf2, 0x2a, 0x68, 0xa2, 0xfd, 0x3a, 0xce, 0xcc,
    0xb5, 0x70, 0x0e, 0x56, 0x08, 0x0c, 0x76, 0x12, 0xbf, 0x72, 0x13, 0x47, 0x9c, 0xb7, 0x5d, 0x87,
    0x15, 0xa1, 0x96, 0x29, 0x10, 0x7b, 0x9a, 0xc7, 0xf3, 0x91, 0x78, 0x6f, 0x9d, 0x9e, 0xb2, 0xb1,
    0x32, 0x75, 0x19, 0x3d, 0xff, 0x35, 0x8a, 0x7e, 0x6d, 0x54, 0xc6, 0x80, 0xc3, 0xbd, 0x0d, 0x57,
    0xdf, 0xf5, 0x24, 0xa9, 0x3e, 0xa8, 0x43, 0xc9, 0xd7, 0x79, 0xd6, 0xf6, 0x7c, 0x22, 0xb9, 0x03,
    0xe0, 0x0f, 0xec, 0xde, 0x7a, 0x94, 0xb0, 0xbc, 0xdc, 0xe8, 0x28, 0x50, 0x4e, 0x33, 0x0a, 0x4a,
    0xa7, 0x97, 0x60, 0x73, 0x1e, 0x00, 0x62, 0x44, 0x1a, 0xb8, 0x38, 0x82, 0x64, 0x9f, 0x26, 0x41,
    0xad, 0x45, 0x46, 0x92, 0x27, 0x5e, 0x55, 0x2f, 0x8c, 0xa3, 0xa5, 0x7d, 0x69, 0xd5, 0x95, 0x3b,
    0x07, 0x58, 0xb3, 0x40, 0x86, 0xac, 0x1d, 0xf7, 0x30, 0x37, 0x6b, 0xe4, 0x88, 0xd9, 0xe7, 0x89,
    0xe1, 0x1b, 0x83, 0x49, 0x4c, 0x3f, 0xf8, 0xfe, 0x8d, 0x53, 0xaa, 0x90, 0xca, 0xd8, 0x85, 0x61,
    0x20, 0x71, 0x67, 0xa4, 0x2d, 0x2b, 0x09, 0x5b, 0xcb, 0x9b, 0x25, 0xd0, 0xbe, 0xe5, 0x6c, 0x52,
    0x59, 0xa6, 0x74, 0xd2, 0xe6, 0xf4, 0xb4, 0xc0, 0xd1, 0x66, 0xaf, 0xc2, 0x39, 0x4b, 0x63, 0xb6]

/-- The place of each byte in `pi`. -/
def piInverse : ByteTable UInt8 :=
  Vector.ofFn fun y => UInt8.ofNat (pi.toList.idxOf (UInt8.ofNat y))

def substitute (table : ByteTable UInt8) (s : State) : State := ⟨s.toList.map table.entry, by simp⟩

/-! ## The linear map -/

/-- The coefficients of the register, first byte first. -/
def coefficients : List UInt8 :=
  [0x94, 0x20, 0x85, 0x10, 0xc2, 0xc0, 0x01, 0xfb, 0x01, 0xc0, 0xc2, 0x10, 0x85, 0x20, 0x94, 0x01]

/-- `a · x`. The bit that falls out of the byte is `x^8`, which is `x^7 + x^6 + x + 1`. -/
def timesX (a : UInt8) : UInt8 := if a &&& 0x80 = 0 then a <<< 1 else (a <<< 1) ^^^ 0xc3

/-- Adds the multiples `a · x^i` for the bits `i` of `b` onto `sum`, and ends with the last bit. -/
def addProduct (sum a b : UInt8) : UInt8 :=
  if b = 0 then
    sum
  else
    addProduct (if b &&& 1 = 1 then sum ^^^ a else sum) (timesX a) (b >>> 1)
termination_by b.toNat
decreasing_by
  have hb : b.toNat ≠ 0 := fun h => ‹¬b = 0› (UInt8.toNat_inj.mp h)
  simp [Nat.shiftRight_eq_div_pow]
  omega

/-- The product modulo `x^8 + x^7 + x^6 + x + 1`. -/
def mul (a b : UInt8) : UInt8 := addProduct 0 a b

/-- The products of each coefficient with every byte. -/
def products : List (ByteTable UInt8) :=
  coefficients.map fun c => Vector.ofFn fun x => mul c (UInt8.ofNat x)

/-- The sum of the products `f c b` of coefficients and bytes at the same place. -/
@[specialize] def innerProduct {α : Type} (f : α → UInt8 → UInt8) : List α → ByteString → UInt8
  | c :: cs, b :: s => f c b ^^^ innerProduct f cs s
  | _, _ => 0

/-- The inner product of a state with the coefficients, from the tables. -/
def combine (s : ByteString) : UInt8 := innerProduct ByteTable.entry products s

/-- The same inner product by multiplication. -/
def combineDirect (s : ByteString) : UInt8 := innerProduct mul coefficients s

/-- Puts a byte at a place. -/
def put (s : State) (place : Nat) (x : UInt8) : State := ⟨s.toList.set place x, by simp⟩

/-- The last byte comes round to the front. -/
def rotateRight (s : State) : State := ⟨s.toList.getLastD 0 :: s.toList.dropLast, by simp⟩

/-- The first byte goes round to the end. -/
def rotateLeft (s : State) : State := ⟨s.toList.tail ++ [s.toList.headD 0], by simp⟩

/-- Copies every byte in front of place `last` to the place behind it, from the last one down. -/
def moveUp : (last : Nat) → State → State
  | 0, s => s
  | last + 1, s => moveUp last (put s (last + 1) (s.toList.getD last 0))

def step (s : State) : State := put (rotateRight s) 0 (combine s.toList)

def stepDirect (s : State) : State := put (moveUp 15 s) 0 (combineDirect s.toList)

/-- One step of the register backward: the byte that was dropped is what the inner product of the
others lacks to the first byte. The place of that byte is cleared, so that it does not count. -/
def stepBack (s : State) : State :=
  let others := put (rotateLeft s) 15 0
  put others 15 (s.toList.headD 0 ^^^ combine others.toList)

def linear (s : State) : State := Nat.repeat step 16 s

def linearDirect (s : State) : State := Nat.repeat stepDirect 16 s

def linearInverse (s : State) : State := Nat.repeat stepBack 16 s

/-! ## The key schedule -/

/-- Round constant `i`: the image of the number `i` as a block. -/
def roundConstant (i : Nat) : State := linearDirect ⟨ByteString.bigEndian 16 i, by simp⟩

/-- The round constants from one on, one for each step of the schedule. -/
def roundConstants : Vector State 32 := Vector.ofFn fun i => roundConstant (i + 1)

def mix (s : State) : State := linear (substitute pi s)

def keyStep (pair : State × State) (constant : State) : State × State :=
  (mix (pair.1 ^^^ constant) ^^^ pair.2, pair.1)

def halves (key : Key) : State × State :=
  (Bytes.padded 16 key.toList, Bytes.padded 16 (key.toList.drop 16))

/-- The two halves in the network, and the slots of the round keys. -/
structure Schedule where
  pair : State × State
  slots : Vector State 10

namespace Schedule

/-- The halves of the key are the first two round keys. -/
def start (slots : Vector State 10) (key : Key) : Schedule :=
  let pair := halves key
  ⟨pair, (slots.set 0 pair.1).set 1 pair.2⟩

/-- Step `i`, counted from zero. Every eighth step writes the pair to its two slots. -/
def advance (s : Schedule) (i : Fin 32) : Schedule :=
  let pair := keyStep s.pair roundConstants[i]
  if (i.val + 1) % 8 = 0 then
    let place := 2 + i.val / 8 * 2
    have hplace : place + 1 < 10 := by omega
    ⟨pair, (s.slots.set place pair.1).set (place + 1) pair.2⟩
  else
    ⟨pair, s.slots⟩

end Schedule

/-- The slots after the whole schedule, which held something else before it. -/
def fillSlots (slots : Vector State 10) (key : Key) : Vector State 10 :=
  (Fin.foldl 32 Schedule.advance (.start slots key)).slots

def expand (key : Key) : Vector State 10 := fillSlots (Vector.replicate 10 (.zero 16)) key

def roundKeys (key : Key) : List State := (expand key).toList

/-! ## The rounds -/

/-- Rounds with all keys but the last, and the addition of the last. -/
def encrypt : List State → State → State
  | [], s => s
  | [key], s => s ^^^ key
  | key :: keys, s => encrypt keys (mix (s ^^^ key))

/-- The same rounds undone, from the last key to the first. -/
def decrypt : List State → State → State
  | [], s => s
  | [key], s => s ^^^ key
  | key :: keys, s => substitute piInverse (linearInverse (decrypt keys s)) ^^^ key

end Kuznyechik

end GostSuite

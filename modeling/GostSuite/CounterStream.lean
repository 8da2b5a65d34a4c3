import GostSuite.Cipher.Meshing
import GostSuite.Limits
import GostSuite.Outcome

/-!
# Counter-mode keystream

A `CounterStream` turns a keyed cipher and an initial value into bytes. The initial value is the
leading half of a block and the counter starts at zero below it; every block of keystream is the
encryption of the counter, which then steps on as a whole.

Blocks are made one at a time, when the first byte of one is needed. The last block stays, with the
number of its bytes that have been used, and a call takes three kinds of steps: it uses up what is
left of that block, makes a block for every whole block of data, and makes one more for a short end,
of which the next call finds something left.

With a section length set, a key serves that many bytes at most. `generated` counts the bytes made
under the present key, in whole blocks, and a block that would exceed the section is made under the
next key. The counter goes on over the change. A section length of zero turns this off, but the
count goes on, so that a section set later sees what the key has already done.
-/

set_option autoImplicit false

namespace GostSuite

/-- A stream of keystream bytes. -/
structure CounterStream (a : Algorithm) where
  cipher : Cipher a
  counter : Block a
  /-- The last block that was made. -/
  keystream : Block a
  /-- Bytes of the last block that have been used; a whole block if the next byte needs a new one. -/
  position : Nat
  /-- Bytes that one key may serve; zero for no bound. -/
  sectionLen : Nat
  /-- Bytes made under the present key. -/
  generated : Nat

namespace CounterStream

variable {a : Algorithm}

def start (c : Cipher a) (iv : ByteString) (sectionLen : Nat) : CounterStream a :=
  { cipher := c
    counter := .padded a.blockLen iv
    keystream := .zero a.blockLen
    position := a.blockLen
    sectionLen := sectionLen
    generated := 0 }

/-- The stream of a keyed cipher, an initial value of half a block and a section length. -/
def ofCipher (c : Cipher a) (iv : ByteString) (sectionLen : Nat) :
    Except Error (CounterStream a) := do
  Bounds.streamSection a sectionLen
  if iv.length ≠ a.halfBlockLen then
    throw (.invalidLength a.halfBlockLen iv.length)
  return start c iv sectionLen

/-- The stream of a key without meshing. -/
def plain (a : Algorithm) (key : Key) (iv : ByteString) : Except Error (CounterStream a) :=
  ofCipher (.ofKey a key) iv 0

/-- The stream of a key with the section of some limits. -/
def ofLimits (a : Algorithm) (key : Key) (iv : ByteString) (limits : Limits) :
    Except Error (CounterStream a) := do
  limits.require a
  ofCipher (.ofKey a key) iv limits.streamSection

/-- The stream of a key with the recommended section. -/
def meshed (a : Algorithm) (key : Key) (iv : ByteString) : Except Error (CounterStream a) :=
  ofLimits a key iv (.recommended a)

/-- The stream with a key that may make one more block: the present one, or the next one if the
section is used up. What the count keeps is less than a block. -/
def meshIfDue (s : CounterStream a) : CounterStream a :=
  if s.sectionLen ≠ 0 ∧ s.sectionLen ≤ s.generated then
    { s with cipher := s.cipher.mesh, generated := s.generated &&& (a.blockLen - 1) }
  else s

/-- Makes one block of keystream from the counter. -/
def produce (s : CounterStream a) : CounterStream a :=
  { s with
    counter := s.counter.increment
    keystream := s.cipher.encrypt s.counter
    generated := s.generated + a.blockLen }

def nextBlock (s : CounterStream a) : CounterStream a := s.meshIfDue.produce

/-- The bytes of the last block that have not been used. -/
def leftover (s : CounterStream a) : ByteString := s.keystream.toList.drop s.position

/-- The stream after the use of `count` bytes of the last block. -/
def use (s : CounterStream a) (count : Nat) : CounterStream a :=
  { s with position := s.position + count }

/-- A new block, of which the first `count` bytes are used at once. -/
def openBlock (s : CounterStream a) (count : Nat) : CounterStream a :=
  { s.nextBlock with position := count }

/-- Adds new blocks of keystream onto the data: one for each whole block of it, and one for a short
end. -/
def applyBlocks (s : CounterStream a) (data : ByteString) : ByteString × CounterStream a :=
  let chunk : ByteString := data.take a.blockLen
  if _h : chunk.length = a.blockLen then
    let s := s.openBlock a.blockLen
    let (more, s') := applyBlocks s (data.drop a.blockLen)
    (chunk.xorOnto s.keystream.toList ++ more, s')
  else if data.isEmpty then
    ([], s)
  else
    let s := s.openBlock data.length
    (data.xorOnto s.keystream.toList, s)
termination_by data.length
decreasing_by
  have := a.blockLen_pos
  simp only [chunk, List.length_take] at _h
  simp only [List.length_drop]
  omega

/-- The data with keystream added on; this encrypts and decrypts. What is left of the last block
comes first. -/
def apply (s : CounterStream a) (data : ByteString) : ByteString × CounterStream a :=
  let left := s.leftover
  let head : ByteString := data.take left.length
  let (more, s) := (s.use head.length).applyBlocks (data.drop left.length)
  (head.xorOnto left ++ more, s)

/-- The next `count` bytes of keystream: what is added onto zeros. -/
def draw (s : CounterStream a) (count : Nat) : ByteString × CounterStream a :=
  s.apply (List.replicate count 0)

/-- Changes the section length for the blocks to come. -/
def setSection (s : CounterStream a) (sectionLen : Nat) : Outcome (CounterStream a) Unit :=
  .ofCheck s (Bounds.streamSection a sectionLen) { s with sectionLen := sectionLen }

inductive Call where
  /-- Add keystream onto the buffer. -/
  | apply (data : ByteString)
  /-- Overwrite the buffer with keystream. -/
  | keystream (data : ByteString)
  | setSection (sectionLen : Nat)

def step (s : CounterStream a) : Call → StepOutcome (CounterStream a)
  | .apply data =>
    let (out, s) := s.apply data
    .done (s, out) none
  | .keystream data =>
    let (out, s) := s.draw data.length
    .done (s, out) none
  | .setSection sectionLen => .ofUnit (s.setSection sectionLen)

def report (s : CounterStream a) : String :=
  Report.opened "Ctr"
    [("algorithm", a.name), ("section", toString s.sectionLen), ("num", toString s.generated)]

end CounterStream

end GostSuite

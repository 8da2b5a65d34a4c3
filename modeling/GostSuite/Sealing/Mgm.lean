import GostSuite.Cipher.Basic
import GostSuite.Field
import GostSuite.Limits
import GostSuite.Outcome

/-!
# The authenticated mode

Multilinear Galois Mode encrypts a message and authenticates it together with associated data that
stays readable. A message needs a nonce, and the nonce gives two counters: `Y` makes keystream, `Z`
makes one authentication factor for every block. The tag is the encrypted sum of the blocks, each
multiplied by its factor; the blocks are those of the associated data, those of the ciphertext, and
one with both lengths.

A context walks through five phases. A key allows nothing but a nonce. After the nonce, associated
data may come in any number of pieces, then the message in any number of pieces, then the tag. The
first byte of the message ends the associated data; an empty piece of the message does not. The
tag ends the message, and only a new nonce starts another, so a nonce gives one tag at most.

`pending` holds the bytes of a block that is not yet complete: first of associated data, later of
ciphertext. Both kinds are filled with zeros where they end short of a block. Associated data fills
the block up piece by piece. The message goes byte by byte: a byte meets the keystream byte of its
place in the block, so the keystream block stands as long as its block is pending.

What authenticates is the ciphertext, in both directions. It is the byte that comes out of an
encryption and the byte that goes into a decryption.

A context without a key says so before it takes anything. All the same the key is looked up again
for every block that is encrypted, in the midst of a piece, and a call that missed it there would
stop with the piece half taken.
-/

set_option autoImplicit false

namespace GostSuite

namespace Mgm

/-! ## Phases and directions -/

/-- How far a context has come. -/
inductive Phase where
  /-- There is no message; a context that has never seen a key is here too. -/
  | keySet
  /-- A message has started and nothing has been said about it. -/
  | ivSet
  | aad
  | data
  /-- The tag is out. -/
  | finalized
  deriving DecidableEq, Repr

def Phase.name : Phase → String
  | keySet => "KeySet"
  | ivSet => "IvSet"
  | aad => "Aad"
  | data => "Data"
  | finalized => "Finalized"

/-- Phases in which associated data may come. -/
def Phase.takesAad : Phase → Bool
  | ivSet | aad => true
  | _ => false

/-- Phases in which the message and the tag may come. -/
def Phase.takesData : Phase → Bool
  | ivSet | aad | data => true
  | _ => false

/-- Which way the bytes of a message go. -/
inductive Direction where
  | encrypting
  | decrypting
  deriving DecidableEq, Repr

/-- The ciphertext byte among the byte that goes in and the byte that comes out. -/
def Direction.cipherByte (d : Direction) (input output : UInt8) : UInt8 :=
  match d with
  | encrypting => output
  | decrypting => input

/-- The most bytes that associated data and message may have together: the number of their bits
has to fit half a block. -/
def maxLen (a : Algorithm) : Nat := (1 <<< (4 * a.blockLen - 3)) - 1

/-! ## A message under way -/

/-- A message over blocks of `n` bytes. -/
@[ext] structure Message (n : Nat) where
  /-- The keystream counter. -/
  y : Bytes n
  /-- The counter of the authentication factors. -/
  z : Bytes n
  /-- The sum of the blocks so far, each times its factor. -/
  sum : Bytes n
  aadLen : Nat
  dataLen : Nat
  /-- Bytes of a block that is not yet complete. -/
  pending : ByteString
  length_pending : pending.length < n
  /-- The last block of keystream. -/
  keystream : Bytes n
  deriving DecidableEq

namespace Message

variable {n : Nat}

def blank (n : Nat) [BlockSize n] : Message n :=
  { y := .zero n, z := .zero n, sum := .zero n, aadLen := 0, dataLen := 0, pending := []
    length_pending := BlockSize.pos, keystream := .zero n }

/-- Adds a block times its factor to the sum. -/
def fold (encrypt : Bytes n → Bytes n) (m : Message n) (block : Bytes n) : Message n :=
  { m with
    sum := m.sum ^^^ (encrypt m.z).fieldMul block
    z := m.z.incrementLeft }

def clearPending (m : Message n) : Message n :=
  { m with pending := [], length_pending := Nat.zero_lt_of_lt m.length_pending }

def room (m : Message n) : Nat := n - m.pending.length

/-- Makes a block of keystream. -/
def nextKeystream (encrypt : Bytes n → Bytes n) (m : Message n) : Message n :=
  { m with keystream := encrypt m.y, y := m.y.incrementRight }

/-- The keystream byte that the next byte of the message meets. -/
def keystreamByte (m : Message n) : UInt8 := m.keystream.toList.getD m.pending.length 0

/-- The block with both lengths, in bits, half a block each. -/
def lengthBlock (m : Message n) : Bytes n :=
  .padded n
    (ByteString.bigEndian (n / 2) (8 * m.aadLen) ++ ByteString.bigEndian (n / 2) (8 * m.dataLen))

end Message

end Mgm

/-! ## Contexts -/

/-- A context of the authenticated mode. -/
structure Mgm (a : Algorithm) where
  cipher : Option (Cipher a)
  phase : Mgm.Phase
  message : Mgm.Message a.blockLen
  /-- Bytes of the tags that the context makes. -/
  tagLen : Nat

namespace Mgm

variable {a : Algorithm}

def unkeyed (a : Algorithm) : Mgm a := ⟨none, .keySet, .blank a.blockLen, a.blockLen⟩

def ofCipher (c : Cipher a) : Mgm a := { unkeyed a with cipher := some c }

def ofKey (a : Algorithm) (key : Key) : Mgm a := ofCipher (.ofKey a key)

/-- The context of a key with the tag length of some limits. -/
def ofLimits (a : Algorithm) (key : Key) (limits : Limits) : Except Error (Mgm a) := do
  limits.require a
  Bounds.tagLen a limits.tagLen
  return { ofKey a key with tagLen := limits.tagLen }

def setTagLen (m : Mgm a) (len : Nat) : Outcome (Mgm a) Unit :=
  .ofCheck m (Bounds.tagLen a len) { m with tagLen := len }

/-- Keys the context and drops its message. A cipher that is already there is given the new key and
keeps its parameters. -/
def setKey (m : Mgm a) (key : Key) : Mgm a :=
  let cipher := match m.cipher with
    | some c => c.rekey key
    | none => .ofKey a key
  { m with cipher := some cipher, phase := .keySet, message := .blank a.blockLen }

/-- A block with its top bit set or cleared. -/
def withTopBit {n : Nat} (bit : Bool) (block : Bytes n) : Bytes n :=
  ⟨match block.toList with
    | [] => []
    | b :: low => (if bit then b ||| 0x80 else b &&& 0x7f) :: low,
   by have := block.length_toList; split <;> simp_all⟩

/-- Starts a message. The top bit of the nonce does not count: it tells the two counters apart. -/
def begin (m : Mgm a) (c : Cipher a) (nonce : Block a) : Mgm a :=
  { m with
    phase := .ivSet
    message :=
      { Message.blank a.blockLen with
        y := c.encrypt (withTopBit false nonce)
        z := c.encrypt (withTopBit true nonce) } }

/-- The cipher of a context, if it has one. -/
def keyed (m : Mgm a) : Except Error (Cipher a) :=
  match m.cipher with
  | some c => .ok c
  | none => .error .keyNotSet

/-- Adds a block times its factor to the sum. -/
def fold (m : Mgm a) (block : Block a) : Outcome (Mgm a) Unit :=
  match m.keyed with
  | .error e => .refused m e
  | .ok c => .done { m with message := m.message.fold c.encrypt block } ()

/-- Adds a block in the place of the pending bytes, which go whether this works or not. -/
def foldFor (m : Mgm a) (pending : ByteString) : Outcome (Mgm a) Unit :=
  let o := m.fold (.padded a.blockLen pending)
  ⟨{ o.after with message := o.after.message.clearPending }, o.answer⟩

/-- Completes the pending block with zeros and adds it, if there is one. -/
def foldPending (m : Mgm a) : Outcome (Mgm a) Unit :=
  if m.message.pending.isEmpty then .done m () else m.foldFor m.message.pending

/-- Fills the pending block up with the first bytes of `data`, as many as it lacks, and adds it to
the sum if that completes it. -/
def fill (m : Mgm a) (data : ByteString) : Outcome (Mgm a) Unit :=
  let pending := m.message.pending ++ data.take m.message.room
  if h : pending.length < a.blockLen then
    .done { m with message := { m.message with pending := pending, length_pending := h } } ()
  else m.foldFor pending

/-- Takes bytes of associated data, block by block. -/
def absorb (m : Mgm a) (data : ByteString) : Outcome (Mgm a) Unit :=
  if _h : data = [] then .done m ()
  else (m.fill data).andThen fun m' _ => m'.absorb (data.drop m.message.room)
termination_by data.length
decreasing_by
  have := m.message.length_pending
  have := List.length_pos_iff.mpr _h
  simp only [List.length_drop, Message.room]
  omega

/-- Makes a block of keystream if the next byte is the first of its block. -/
def refill (m : Mgm a) : Outcome (Mgm a) Unit :=
  if m.message.pending.isEmpty then
    match m.keyed with
    | .error e => .refused m e
    | .ok c => .done { m with message := m.message.nextKeystream c.encrypt } ()
  else .done m ()

/-- Encrypts or decrypts one byte of the message in place. -/
def turnByte (d : Direction) (m : Mgm a) (b : UInt8) : Outcome (Mgm a × UInt8) Unit :=
  let o := m.refill
  match o.answer with
  | .error e => .refused (o.after, b) e
  | .ok _ =>
    let out := b ^^^ o.after.message.keystreamByte
    let o := o.after.fill [d.cipherByte b out]
    ⟨(o.after, out), o.answer⟩

/-- Encrypts or decrypts bytes of the message in place, one after the other. -/
def turnBytes (d : Direction) (m : Mgm a) : ByteString → Outcome (Mgm a × ByteString) Unit
  | [] => .done (m, []) ()
  | b :: data =>
    let o := m.turnByte d b
    match o.answer with
    | .error e => .refused (o.after.1, o.after.2 :: data) e
    | .ok _ =>
      let rest := o.after.1.turnBytes d data
      ⟨(rest.after.1, o.after.2 :: rest.after.2), rest.answer⟩

/-- Starts a message with a nonce of one block. -/
def setIv (m : Mgm a) (nonce : ByteString) : Outcome (Mgm a) Unit :=
  match m.keyed, Bytes.read a.blockLen nonce with
  | .error e, _ => .refused m e
  | .ok _, .error e => .refused m e
  | .ok c, .ok nonce => .done (m.begin c nonce) ()

/-- The cipher of a context that is in one of the phases `wanted`. -/
def openFor (m : Mgm a) (wanted : Phase → Bool) : Except Error (Cipher a) := do
  let c ← m.keyed
  if !wanted m.phase then
    throw .badOrder
  return c

/-- Whether `len` more bytes keep within the bound of the mode. -/
def reserve (m : Mgm a) (len : Nat) : Except Error Unit :=
  if m.message.aadLen + m.message.dataLen + len ≤ maxLen a then .ok () else .error .dataTooLarge

/-- Whether `len` more bytes of associated data would be taken; this needs no look at them. -/
def takesAad (m : Mgm a) (len : Nat) : Except Error (Cipher a) := do
  let c ← m.openFor Phase.takesAad
  m.reserve len
  return c

/-- Whether `len` more bytes of the message would be taken; this needs no look at them. -/
def takesData (m : Mgm a) (len : Nat) : Except Error (Cipher a) := do
  let c ← m.openFor Phase.takesData
  m.reserve len
  return c

/-- Takes in a piece of associated data, which may be empty. -/
def updateAad (m : Mgm a) (aad : ByteString) : Outcome (Mgm a) Unit :=
  match m.takesAad aad.length with
  | .error e => .refused m e
  | .ok _ =>
    let message := { m.message with aadLen := m.message.aadLen + aad.length }
    { m with phase := .aad, message := message }.absorb aad

/-- Closes the associated data, if no byte of the message has come yet. -/
def openData (m : Mgm a) : Outcome (Mgm a) Unit :=
  if m.phase = .data then .done m ()
  else m.foldPending.andThen fun m _ => .done { m with phase := .data } ()

/-- Encrypts or decrypts a piece of the message in place. An empty piece changes nothing. -/
def turn (m : Mgm a) (d : Direction) (data : ByteString) : Outcome (Mgm a × ByteString) Unit :=
  match m.takesData data.length with
  | .error e => .refused (m, data) e
  | .ok _ =>
    if data.isEmpty then .done (m, data) ()
    else
      let o := m.openData
      match o.answer with
      | .error e => .refused (o.after, data) e
      | .ok _ =>
        let message := { o.after.message with dataLen := o.after.message.dataLen + data.length }
        { o.after with message := message }.turnBytes d data

def encrypt (m : Mgm a) (data : ByteString) : Outcome (Mgm a × ByteString) Unit :=
  m.turn .encrypting data

/-- Decrypts a piece of the message in place. What comes out is provisional until the tag has been
verified. -/
def decrypt (m : Mgm a) (data : ByteString) : Outcome (Mgm a × ByteString) Unit :=
  m.turn .decrypting data

/-- Ends the message and gives the whole tag. -/
def finalize (m : Mgm a) : Outcome (Mgm a) (Block a) :=
  match m.openFor Phase.takesData with
  | .error e => .refused m e
  | .ok _ =>
    m.foldPending.andThen fun m _ =>
      (m.fold m.message.lengthBlock).andThen fun m _ =>
        match m.keyed with
        | .error e => .refused m e
        | .ok c =>
          .done { m with phase := .finalized, message := .blank a.blockLen }
            (c.encrypt m.message.sum)

/-- Ends the message and gives its tag. -/
def finish (m : Mgm a) : Outcome (Mgm a) Tag :=
  m.finalize.judge fun full => .ok (.ofBlock full m.tagLen)

/-- Ends the message and compares the first bytes of its tag, as many as are expected. A length
that no tag has is refused before the message ends. -/
def verify (m : Mgm a) (expected : ByteString) : Outcome (Mgm a) Unit :=
  match Bounds.tagLen a expected.length with
  | .error e => .refused m e
  | .ok _ => m.finalize.judge fun full =>
    if (Tag.ofBlock full expected.length).verify expected then .ok ()
    else .error .authenticationFailed

/-! ## Calls and reports -/

inductive Call where
  | setKey (key : Key)
  | setIv (nonce : ByteString)
  | updateAad (aad : ByteString)
  | encrypt (data : ByteString)
  | decrypt (data : ByteString)
  | finish
  | verify (expected : ByteString)
  | setTagLen (len : Nat)

def step (m : Mgm a) : Call → StepOutcome (Mgm a)
  | .setKey key => .ofUnit (.done (m.setKey key) ())
  | .setIv nonce => .ofUnit (m.setIv nonce)
  | .updateAad aad => .ofUnit (m.updateAad aad)
  | .encrypt data => .ofBuffer (m.encrypt data)
  | .decrypt data => .ofBuffer (m.decrypt data)
  | .finish => .ofTag m.finish
  | .verify expected => .ofUnit (m.verify expected)
  | .setTagLen len => .ofUnit (m.setTagLen len)

def report (m : Mgm a) : String :=
  Report.opened "Mgm"
    [("algorithm", a.name), ("keyed", toString m.cipher.isSome), ("state", m.phase.name),
      ("aad_len", toString m.message.aadLen), ("data_len", toString m.message.dataLen),
      ("tag_len", toString m.tagLen)]

end Mgm

end GostSuite

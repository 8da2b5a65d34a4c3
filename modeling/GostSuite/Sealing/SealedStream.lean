import GostSuite.CounterStream
import GostSuite.Derivation.KeyTree
import GostSuite.Mac.Omac

/-!
# Sealed streams

CTR-ACPKM-OMAC: the message is encrypted with meshed keystream and its plaintext is authenticated
with a message code. Each half has a key of its own; both are derived from one key and a seed. The
code is encrypted too, with the keystream that follows the message, and that is the tag.

Sender and receiver make the same steps on the plaintext, so one context serves either of them. A
stream that has given its tag, or has compared it, is finished and takes nothing more; it looks at
that before it looks at anything else. The sender's code takes a piece in before the piece is
encrypted, the receiver's after it has been decrypted: a code that refused a piece would leave the
receiver's buffer changed.
-/

set_option autoImplicit false

namespace GostSuite

/-- A stream that is encrypted and authenticated. -/
structure SealedStream (a : Algorithm) where
  stream : CounterStream a
  code : Omac a
  finished : Bool

namespace SealedStream

variable {a : Algorithm}

/-- Bytes of the seed that both keys are derived from. -/
def seedLen : Nat := 8

def label : ByteString := .ascii "kdf tree"

/-- A stream whose keys are derived with a counter of `counterLen` bytes. -/
def derived (a : Algorithm) (key : Key) (seed iv : ByteString) (sectionLen counterLen : Nat) :
    Except Error (SealedStream a) := do
  let seed ← Bytes.read seedLen seed
  let keys ← KeyTree.derive key.toList label seed.toList counterLen (2 * keyLen)
  let stream ← CounterStream.ofCipher (.ofKey a (.padded 32 keys)) iv sectionLen
  return ⟨stream, .ofKey a (.padded 32 (keys.drop keyLen)), false⟩

/-- The stream of a key, a seed, an initial value of half a block and a section length. -/
def ofKey (a : Algorithm) (key : Key) (seed iv : ByteString) (sectionLen : Nat) :
    Except Error (SealedStream a) :=
  derived a key seed iv sectionLen 1

def setMacLen (s : SealedStream a) (size : Nat) : Outcome (SealedStream a) Unit :=
  let o := s.code.setMacLen size
  ⟨{ s with code := o.after }, o.answer⟩

/-- The stream of a key with the section, the tag length and the counter of some limits. -/
def ofLimits (a : Algorithm) (key : Key) (seed iv : ByteString) (limits : Limits) :
    Except Error (SealedStream a) := do
  limits.require a
  let s ← derived a key seed iv limits.streamSection limits.counterLen
  let o := s.setMacLen limits.macLen
  o.answer
  return o.after

def ensureOpen (s : SealedStream a) : Except Error Unit :=
  if s.finished then .error .badOrder else .ok ()

/-- Authenticates a piece of plaintext and encrypts it in place. -/
def encrypt (s : SealedStream a) (data : ByteString) : Outcome (SealedStream a × ByteString) Unit :=
  match s.ensureOpen with
  | .error e => .refused (s, data) e
  | .ok _ =>
    let o := s.code.update data
    match o.answer with
    | .error e => .refused ({ s with code := o.after }, data) e
    | .ok _ =>
      let (out, stream) := s.stream.apply data
      .done ({ s with stream := stream, code := o.after }, out) ()

/-- Decrypts a piece of ciphertext in place and authenticates what comes out. That is provisional
until the tag has been verified. -/
def decrypt (s : SealedStream a) (data : ByteString) : Outcome (SealedStream a × ByteString) Unit :=
  match s.ensureOpen with
  | .error e => .refused (s, data) e
  | .ok _ =>
    let (out, stream) := s.stream.apply data
    let o := s.code.update out
    ⟨({ s with stream := stream, code := o.after }, out), o.answer⟩

/-- Ends the message and gives its encrypted code. -/
def finish (s : SealedStream a) : Outcome (SealedStream a) Tag :=
  match s.ensureOpen with
  | .error e => .refused s e
  | .ok _ =>
    let o := s.code.finish
    match o.answer with
    | .error e => .refused { s with code := o.after } e
    | .ok code =>
      let (out, stream) := s.stream.apply code.bytes
      .done ⟨stream, o.after, true⟩ ⟨out⟩

/-- Ends the message and compares its encrypted code. -/
def verify (s : SealedStream a) (expected : ByteString) : Outcome (SealedStream a) Unit :=
  s.finish.judge fun tag =>
    if tag.verify expected then .ok () else .error .authenticationFailed

inductive Call where
  | encrypt (data : ByteString)
  | decrypt (data : ByteString)
  | finish
  | verify (expected : ByteString)
  | setMacLen (size : Nat)

def step (s : SealedStream a) : Call → StepOutcome (SealedStream a)
  | .encrypt data => .ofBuffer (s.encrypt data)
  | .decrypt data => .ofBuffer (s.decrypt data)
  | .finish => .ofTag s.finish
  | .verify expected => .ofUnit (s.verify expected)
  | .setMacLen size => .ofUnit (s.setMacLen size)

def report (s : SealedStream a) : String :=
  Report.opened "CtrAcpkmOmac"
    [("algorithm", a.name), ("section", toString s.stream.sectionLen),
      ("mac_len", toString s.code.macLen), ("finished", toString s.finished)]

end SealedStream

end GostSuite

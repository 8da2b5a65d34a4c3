import GostSuite.Cipher.Basic
import GostSuite.Limits
import GostSuite.Mac.Chain
import GostSuite.Outcome

/-!
# The message code

OMAC of GOST R 34.13-2015: one key, one chain, and a whitening key that is the double of the
encrypted zero block.

A context is keyed or not, and finished or not. A finished one answers nothing more until it is
reset or keyed again, so a chain gives its code once; a comparison finishes it too, whether it
succeeds or not. Of the two reasons to refuse, being finished comes first.

Keying builds a new cipher from the key alone: the parameter set of a Gost89 cipher that the
context was made of does not survive it.
-/

set_option autoImplicit false

namespace GostSuite

/-- A cipher and the first whitening key. -/
structure MacKey (a : Algorithm) where
  cipher : Cipher a
  whitening : Block a

/-- The whitening key is the double of the encrypted zero block. -/
def MacKey.ofCipher {a : Algorithm} (c : Cipher a) : MacKey a :=
  ⟨c, (c.encrypt (.zero a.blockLen)).double⟩

/-- Chains a block under a key that stays. -/
def MacKey.process {a : Algorithm} (k : MacKey a) (state block : Block a) : MacKey a × Block a :=
  (k, k.cipher.encrypt (state ^^^ block))

/-- The code of a whole message under a key, cut to `len` bytes. -/
def MacKey.close {a : Algorithm} (k : MacKey a) (c : Chain a.blockLen) (len : Nat) : Tag :=
  .ofBlock (c.close k.cipher.encrypt k.whitening) len

/-- A message code under way. -/
structure Omac (a : Algorithm) where
  key : Option (MacKey a)
  chain : Chain a.blockLen
  macLen : Nat
  finished : Bool

namespace Omac

variable {a : Algorithm}

def unkeyed (a : Algorithm) : Omac a := ⟨none, .start a.blockLen, a.blockLen, false⟩

def ofCipher (c : Cipher a) : Omac a := { unkeyed a with key := some (.ofCipher c) }

def ofKey (a : Algorithm) (key : Key) : Omac a := ofCipher (.ofKey a key)

def setMacLen (m : Omac a) (size : Nat) : Outcome (Omac a) Unit :=
  .ofCheck m (Bounds.macLen a size) { m with macLen := size }

/-- The context of a key with the code length of some limits. -/
def ofLimits (a : Algorithm) (key : Key) (limits : Limits) : Except Error (Omac a) := do
  limits.require a
  Bounds.macLen a limits.macLen
  return { ofKey a key with macLen := limits.macLen }

/-- Starts the chain again under the same key. -/
def reset (m : Omac a) : Omac a := { m with chain := .start a.blockLen, finished := false }

/-- Keys the context and starts the chain again. -/
def setKey (m : Omac a) (key : Key) : Omac a :=
  { m with key := some (.ofCipher (.ofKey a key)) }.reset

/-- The key of a context that can go on. -/
def ready (m : Omac a) : Except Error (MacKey a) :=
  if m.finished then .error .badOrder
  else match m.key with
    | none => .error .macKeyNotSet
    | some key => .ok key

def update (m : Omac a) (data : ByteString) : Outcome (Omac a) Unit :=
  match m.ready with
  | .error e => .refused m e
  | .ok key => .done { m with chain := (m.chain.feed MacKey.process key data).2 } ()

/-- Ends the message and gives its code. -/
def finish (m : Omac a) : Outcome (Omac a) Tag :=
  match m.ready with
  | .error e => .refused m e
  | .ok key => .done { m with finished := true } (key.close m.chain m.macLen)

/-- Ends the message and compares its code. -/
def verify (m : Omac a) (expected : ByteString) : Outcome (Omac a) Unit :=
  m.finish.judge fun tag =>
    if tag.verify expected then .ok () else .error .authenticationFailed

/-- The whole code of a message given at once. -/
def compute (a : Algorithm) (key : Key) (data : ByteString) : Except Error Tag :=
  ((ofKey a key).update data).after.finish.answer

inductive Call where
  | update (data : ByteString)
  | finish
  | verify (expected : ByteString)
  | reset
  | setKey (key : Key)
  | setMacLen (size : Nat)

def step (m : Omac a) : Call → StepOutcome (Omac a)
  | .update data => .ofUnit (m.update data)
  | .finish => .ofTag m.finish
  | .verify expected => .ofUnit (m.verify expected)
  | .reset => .ofUnit (.done m.reset ())
  | .setKey key => .ofUnit (.done (m.setKey key) ())
  | .setMacLen size => .ofUnit (m.setMacLen size)

def report (m : Omac a) : String :=
  Report.opened "Omac"
    [("algorithm", a.name), ("keyed", toString m.key.isSome), ("mac_len", toString m.macLen),
      ("finished", toString m.finished)]

end Omac

end GostSuite

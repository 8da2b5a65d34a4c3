import GostSuite.Sealing.Mgm

/-!
# Sealing whole messages

An `MgmKey` seals and opens messages that are at hand as a whole. It holds an expanded key and a
tag length and nothing that a call changes: every message is a fresh context of the mode.

Opening is strict. A tag of another length than the configured one is refused before anything
happens, and a payload that fails to authenticate is wiped, so no provisional plaintext is left for
a caller who does not look at the answer.
-/

set_option autoImplicit false

namespace GostSuite

structure MgmKey (a : Algorithm) where
  cipher : Cipher a
  tagLen : Nat
  tagLen_ok : Bounds.tagLen a tagLen = .ok ()

namespace MgmKey

variable {a : Algorithm}

def ofKey (a : Algorithm) (key : Key) : MgmKey a :=
  ⟨.ofKey a key, a.blockLen, Bounds.tagLen_blockLen a⟩

/-- A key with the tag length of some limits. -/
def ofLimits (a : Algorithm) (key : Key) (limits : Limits) : Except Error (MgmKey a) := do
  limits.require a
  match h : Bounds.tagLen a limits.tagLen with
  | .ok () => return ⟨.ofKey a key, limits.tagLen, h⟩
  | .error e => throw e

/-- The fresh context of a message. -/
def begin (k : MgmKey a) (nonce : Block a) : Mgm a :=
  { Mgm.ofCipher k.cipher with tagLen := k.tagLen }.begin k.cipher nonce

/-- Takes a message through a fresh context, up to its tag. -/
def turn (k : MgmKey a) (d : Mgm.Direction) (nonce : Block a) (aad payload : ByteString) :
    Outcome (Mgm a × ByteString) Unit :=
  let o := (k.begin nonce).updateAad aad
  match o.answer with
  | .error e => .refused (o.after, payload) e
  | .ok _ => o.after.turn d payload

/-- Encrypts the payload in place and gives the tag. -/
def encrypt (k : MgmKey a) (nonce : Block a) (aad payload : ByteString) :
    Outcome ByteString Tag :=
  let o := k.turn .encrypting nonce aad payload
  ⟨o.after.2, o.answer.bind fun _ => o.after.1.finish.answer⟩

/-- Decrypts the payload in place if the tag is right, and wipes it if the tag is wrong. -/
def decrypt (k : MgmKey a) (nonce : Block a) (aad payload tag : ByteString) :
    Outcome ByteString Unit :=
  if tag.length ≠ k.tagLen then .refused payload (.invalidTagLength tag.length a.blockLen)
  else
    let o := k.turn .decrypting nonce aad payload
    match o.answer with
    | .error e => .refused o.after.2 e
    | .ok _ =>
      match (o.after.1.verify tag).answer with
      | .ok _ => .done o.after.2 ()
      | .error e => .refused (List.replicate o.after.2.length 0) e

def report (k : MgmKey a) : String :=
  Report.opened "MgmKey" [("algorithm", a.name), ("tag_len", toString k.tagLen)]

end MgmKey

end GostSuite

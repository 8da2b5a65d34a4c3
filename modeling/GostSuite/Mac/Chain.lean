import GostSuite.Field
import GostSuite.Tag

/-!
# The chain of a message code

The codes of the suite chain the blocks of a message: each block is added to the state and the sum
is encrypted. The last block is treated differently, and nobody knows that a block is the last one
before the message ends. So a `Chain` holds the newest bytes back, a whole block of them at most,
and takes a block in only when a further byte shows that it was not the last.

A piece of the message comes in as it is cut: its bytes fill up the block that is held back, and
when a further byte finds that block full it is chained first. An empty piece brings no byte and
releases nothing. What chaining a block does beyond the chain, such as a change of keys, is up to
the code that the chain serves.

The last block is completed by whitening: with the first whitening key if it is whole, and
otherwise, filled with `80 00 …`, with the second, which is the double of the first.
-/

set_option autoImplicit false

namespace GostSuite

/-- The state of a chain over `n`-byte blocks and the bytes it holds back. -/
structure Chain (n : Nat) where
  state : Bytes n
  pending : ByteString
  length_pending : pending.length ≤ n
  deriving DecidableEq

namespace Chain

variable {n : Nat} {κ : Type}

def start (n : Nat) : Chain n := ⟨.zero n, [], Nat.zero_le n⟩

/-- Whether a whole block is held back. -/
def full (c : Chain n) : Bool := c.pending.length == n

/-- Bytes that can still be held back. -/
def room (c : Chain n) : Nat := n - c.pending.length

/-- Chains the block that is held back, if it is whole. `process` gives the new state, and what
becomes of the keys it needs. -/
def release (process : κ → Bytes n → Bytes n → κ × Bytes n) (k : κ) (c : Chain n) : κ × Chain n :=
  if c.full then
    let (k, state) := process k c.state (.padded n c.pending)
    (k, ⟨state, [], Nat.zero_le n⟩)
  else (k, c)

/-- Holds back the first bytes of `data`, as many as there is room for. -/
def hold (c : Chain n) (data : ByteString) : Chain n :=
  ⟨c.state, c.pending ++ data.take c.room, by
    have := c.length_pending
    simp [room]
    omega⟩

theorem room_release_pos [BlockSize n] (process : κ → Bytes n → Bytes n → κ × Bytes n) (k : κ)
    (c : Chain n) : 0 < (c.release process k).2.room := by
  have hn : 0 < n := BlockSize.pos
  have hc := c.length_pending
  unfold release
  split
  · simpa [room] using hn
  · rename_i hfull
    have hne : c.pending.length ≠ n := by simpa [full] using hfull
    simp only [room]
    omega

def feed [BlockSize n] (process : κ → Bytes n → Bytes n → κ × Bytes n) (k : κ) (c : Chain n)
    (data : ByteString) : κ × Chain n :=
  if _h : data = [] then (k, c)
  else
    let r := c.release process k
    feed process r.1 (r.2.hold data) (data.drop r.2.room)
termination_by data.length
decreasing_by
  have := room_release_pos process k c
  have := List.length_pos_iff.mpr _h
  simp only [List.length_drop]
  omega

/-- The last block, filled and whitened. -/
def lastBlock (c : Chain n) (whitening : Bytes n) : Bytes n :=
  if c.full then .padded n c.pending ^^^ whitening
  else .padded n (c.pending ++ [0x80]) ^^^ whitening.double

/-- The encrypted sum of the state and the last block: the whole code, before it is cut. -/
def close (encrypt : Bytes n → Bytes n) (whitening : Bytes n) (c : Chain n) : Bytes n :=
  encrypt (c.state ^^^ c.lastBlock whitening)

end Chain

end GostSuite

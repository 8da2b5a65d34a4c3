import GostSuite.Proofs.Bytes.Counting
import Mathlib.Data.Set.Function
import Mathlib.Logic.Function.Iterate

/-!
# Counters run through all their values

A mode that never reuses a counter block rests on more than one step being right. Its counter has to
go on for as long as the mode counts, and it must not come back before it has been everywhere; a
counter in one half of a block must leave the other half alone, since that is where the other
counter of the mode lives.

The suite has four counters, and they are one. A counter is a part of something, and its step is the
increment of that part. `CountsUp` lists what follows, and `CountsUp.of_increment` shows it from
this description only; so a counter of another width in another place needs no new argument.
-/

set_option autoImplicit false

namespace GostSuite

namespace ByteString

theorem iterate_increment (s : ByteString) (k : Nat) :
    increment^[k] s = bigEndian s.length (value s + k) := by
  induction k with
  | zero => exact (bigEndian_value s).symm
  | succ k ih =>
    rw [Function.iterate_succ_apply', ih, increment_bigEndian]
    rfl

theorem value_iterate_increment (s : ByteString) (k : Nat) :
    value (increment^[k] s) = (value s + k) % 256 ^ s.length := by
  rw [iterate_increment, value_bigEndian]

/-- No value comes back before all values of the width have been there. -/
theorem injOn_iterate_increment (s : ByteString) :
    Set.InjOn (fun k => increment^[k] s) (Set.Iio (256 ^ s.length)) := by
  intro i hi j hj h
  have hvalue := congrArg value h
  simp only [value_iterate_increment] at hvalue
  have hmod : i ≡ j [MOD 256 ^ s.length] := Nat.ModEq.add_left_cancel' _ hvalue
  exact hmod.eq_of_lt_of_lt hi hj

end ByteString

open ByteString in
/-- `step` adds one to the number that the bytes at `counter` are, and leaves those at `others`. -/
structure CountsUp {α : Type} (counter others : α → ByteString) (step : α → α) : Prop where
  length (a : α) : (counter (step a)).length = (counter a).length
  next (a : α) : value (counter (step a)) = (value (counter a) + 1) % 256 ^ (counter a).length
  stays (a : α) : others (step a) = others a
  later (a : α) (k : Nat) :
    value (counter (step^[k] a)) = (value (counter a) + k) % 256 ^ (counter a).length
  stays_later (a : α) (k : Nat) : others (step^[k] a) = others a
  /-- The counter is somewhere else after each number of steps below the number of its values. -/
  distinct (a : α) :
    Set.InjOn (fun k => counter (step^[k] a)) (Set.Iio (256 ^ (counter a).length))
  returns (a : α) : counter (step^[256 ^ (counter a).length] a) = counter a

theorem CountsUp.of_increment {α : Type} {counter others : α → ByteString} {step : α → α}
    (hcounter : ∀ a, counter (step a) = (counter a).increment)
    (hothers : ∀ a, others (step a) = others a) : CountsUp counter others step := by
  have hiterate : ∀ a k, counter (step^[k] a) = ByteString.increment^[k] (counter a) := by
    intro a k
    exact Function.Semiconj.iterate_right hcounter k a
  constructor
  case length =>
    intro a
    rw [hcounter, ByteString.length_increment]
  case next =>
    intro a
    rw [hcounter, ByteString.value_increment]
  case stays => exact hothers
  case later =>
    intro a k
    rw [hiterate, ByteString.value_iterate_increment]
  case stays_later =>
    intro a k
    induction k with
    | zero => rfl
    | succ k ih => rw [Function.iterate_succ_apply', hothers, ih]
  case distinct =>
    intro a
    simp only [hiterate]
    exact ByteString.injOn_iterate_increment (counter a)
  case returns =>
    intro a
    rw [hiterate, ByteString.iterate_increment, ← ByteString.bigEndian_mod, Nat.add_mod_right,
      ByteString.bigEndian_mod, ByteString.bigEndian_value]

namespace Bytes

variable {n : Nat}

def leading (b : Bytes n) : ByteString := b.toList.take (n / 2)

def trailing (b : Bytes n) : ByteString := b.toList.drop (n / 2)

theorem length_leading (b : Bytes n) : b.leading.length = n / 2 := by
  simp [leading]
  omega

theorem halves_incrementLeft (b : Bytes n) :
    b.incrementLeft.leading = b.leading.increment ∧ b.incrementLeft.trailing = b.trailing := by
  have hlen : b.leading.increment.length = n / 2 := by simp [length_leading]
  exact ⟨List.take_left' hlen, List.drop_left' hlen⟩

theorem halves_incrementRight (b : Bytes n) :
    b.incrementRight.trailing = b.trailing.increment ∧ b.incrementRight.leading = b.leading :=
  ⟨List.drop_left' b.length_leading, List.take_left' b.length_leading⟩

end Bytes

/-- **Incrementing is counting**, for a byte string of any length as for the whole of a block, its
leading half and its trailing half. Each of the four adds one modulo `256 ^ width`; `k` steps add
`k`; the counter takes all values before it takes one again; and what is not in the counter, the
other half of the block, stays as it is through all of it. -/
theorem increments_count_up :
    CountsUp id (fun _ => []) ByteString.increment ∧
      ∀ n, CountsUp Bytes.toList (fun _ => []) (Bytes.increment (n := n)) ∧
        CountsUp Bytes.leading Bytes.trailing (Bytes.incrementLeft (n := n)) ∧
        CountsUp Bytes.trailing Bytes.leading (Bytes.incrementRight (n := n)) := by
  refine ⟨.of_increment (fun _ => rfl) fun _ => rfl, fun n => ⟨?_, ?_, ?_⟩⟩
  · exact .of_increment (fun _ => rfl) fun _ => rfl
  · exact .of_increment (fun b => b.halves_incrementLeft.1) fun b => b.halves_incrementLeft.2
  · exact .of_increment (fun b => b.halves_incrementRight.1) fun b => b.halves_incrementRight.2

end GostSuite

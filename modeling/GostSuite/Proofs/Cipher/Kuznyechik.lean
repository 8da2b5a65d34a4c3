import GostSuite.Proofs.Bytes.Adding
import GostSuite.Proofs.Cipher.Register
import Mathlib.Logic.Function.Iterate
import Mathlib.Data.Fintype.EquivFin

/-!
# The rounds of Kuznyechik undone

Each layer of a round has its inverse next to it in the cipher, and each pair has its own reason.

* The substitution table takes every value (`pi_takes_every_value`), and the inverse table looks a
  value's place up; so the one is the inverse of the other on either side.
* The register gives its last byte up and takes an inner product in. The coefficient of the last
  byte is one, so what the inner product lacks without that byte is the byte itself
  (`combine_concat`), and `stepBack` undoes `step`.
* A key is added, and added again.

The rounds compose these, and the backward rounds take the keys in the opposite order
(`decrypt_encrypt`, `encrypt_decrypt`). No property of the keys is used, nor their number.
-/

set_option autoImplicit false

namespace GostSuite

namespace Kuznyechik

open Function (LeftInverse RightInverse)

/-! ## 1. Substitution -/

theorem entry_eq_getElem (table : ByteTable UInt8) (x : UInt8) (h : x.toNat < 256) :
    table.entry x = table[x.toNat] := rfl

/-- The values in a string, one bit of a number for each. -/
def valuesIn (s : ByteString) : Nat := s.foldl (fun seen b => seen ||| 1 <<< b.toNat) 0

theorem testBit_foldl {s : ByteString} {seen : Nat} {b : UInt8}
    (h : (s.foldl (fun seen c => seen ||| 1 <<< c.toNat) seen).testBit b.toNat = true) :
    seen.testBit b.toNat = true ∨ b ∈ s := by
  induction s generalizing seen with
  | nil => exact Or.inl h
  | cons c s ih =>
    rcases ih h with hseen | hmem
    · rw [Nat.testBit_or, Bool.or_eq_true, Nat.one_shiftLeft, Nat.testBit_two_pow,
        decide_eq_true_eq] at hseen
      rcases hseen with hseen | hc
      · exact Or.inl hseen
      · exact Or.inr (UInt8.toNat_inj.mp hc ▸ List.mem_cons_self)
    · exact Or.inr (List.mem_cons_of_mem c hmem)

theorem pi_takes_every_value (b : UInt8) : b ∈ pi.toList := by
  have hall : valuesIn pi.toList = 2 ^ 256 - 1 := by decide +kernel
  have hbit : (valuesIn pi.toList).testBit b.toNat = true := by
    rw [hall, Nat.testBit_two_pow_sub_one, decide_eq_true_eq]
    exact b.toNat_lt
  rcases testBit_foldl hbit with hzero | hmem
  · rw [Nat.zero_testBit] at hzero
    exact absurd hzero Bool.false_ne_true
  · exact hmem

/-- An entry at the place of a value is the value. -/
theorem entry_of_idxOf {table : ByteTable UInt8} {x y : UInt8} (hmem : y ∈ table.toList)
    (hplace : x.toNat = table.toList.idxOf y) : table.entry x = y := by
  have hlt := List.idxOf_lt_length_of_mem hmem
  have hget := List.getElem_idxOf hlt
  rw [Vector.getElem_toList] at hget
  simp only [entry_eq_getElem table x x.toNat_lt, hplace, hget]

theorem pi_piInverse (y : UInt8) : pi.entry (piInverse.entry y) = y := by
  have hmem := pi_takes_every_value y
  have hbyte : pi.toList.idxOf y < 2 ^ 8 :=
    (List.idxOf_lt_length_of_mem hmem).trans_eq pi.length_toList
  refine entry_of_idxOf hmem ?_
  rw [piInverse, ByteTable.entry_ofFn, UInt8.ofNat_toNat, UInt8.toNat_ofNat_of_lt' hbyte]

/-- On finitely many values an inverse on one side is one on the other. -/
theorem piInverse_pi (x : UInt8) : piInverse.entry (pi.entry x) = x := by
  have hfinite : Finite UInt8 := Finite.of_injective UInt8.toFin fun _ _ h => UInt8.toFin_inj.mp h
  have hleft : LeftInverse pi.entry piInverse.entry := pi_piInverse
  have hsurjective := Finite.injective_iff_surjective.mp hleft.injective
  exact hleft.rightInverse_of_surjective hsurjective x

theorem substitute_substitute {f g : ByteTable UInt8} (h : LeftInverse g.entry f.entry) (s : State) :
    substitute g (substitute f s) = s := by
  apply Bytes.ext
  change (s.toList.map f.entry).map g.entry = s.toList
  rw [List.map_map, h.comp_eq_id, List.map_id]

/-! ## 2. The register -/

theorem innerProduct_append {α : Type} (f : α → UInt8 → UInt8) {cs : List α} {s : ByteString}
    (h : cs.length = s.length) (ds : List α) (t : ByteString) :
    innerProduct f (cs ++ ds) (s ++ t) = innerProduct f cs s ^^^ innerProduct f ds t := by
  induction cs generalizing s with
  | nil =>
    obtain rfl : s = [] := List.length_eq_zero_iff.mp h.symm
    exact (UInt8.zero_xor).symm
  | cons c cs ih =>
    cases s with
    | nil => simp at h
    | cons b s =>
      rw [List.cons_append, List.cons_append, innerProduct, innerProduct, ih (by simpa using h),
        UInt8.xor_assoc]

theorem entry_productTable (c x : UInt8) :
    ByteTable.entry (Vector.ofFn fun x : Fin 256 => mul c (UInt8.ofNat x)) x = mul c x := by
  rw [ByteTable.entry_ofFn, UInt8.ofNat_toNat]

/-- Looking products up is multiplying. -/
theorem combine_eq_combineDirect (s : ByteString) : combine s = combineDirect s := by
  have h : ∀ cs : List UInt8, innerProduct ByteTable.entry
      (cs.map fun c => Vector.ofFn fun x : Fin 256 => mul c (UInt8.ofNat x)) s =
      innerProduct mul cs s := by
    intro cs
    induction cs generalizing s with
    | nil => rfl
    | cons c cs ih =>
      cases s with
      | nil => rfl
      | cons b s => rw [List.map_cons, innerProduct, innerProduct, ih, entry_productTable]
  exact h coefficients

/-- The byte at the end counts once: its coefficient is one. -/
theorem combine_concat {others : ByteString} (h : others.length = 15) (b : UInt8) :
    combine (others ++ [b]) = combine (others ++ [0]) ^^^ b := by
  have hsplit : coefficients = coefficients.dropLast ++ [1] := by decide
  have hlast : ∀ x : UInt8, innerProduct mul [1] [x] = x := by
    intro x
    change mul 1 x ^^^ 0 = x
    rw [mul_one_left, UInt8.xor_zero]
  have happ : ∀ x : UInt8, combine (others ++ [x]) =
      innerProduct mul coefficients.dropLast others ^^^ x := by
    intro x
    rw [combine_eq_combineDirect, combineDirect, hsplit, innerProduct_append _ (by rw [h]; rfl),
      hlast]
    rfl
  rw [happ, happ, UInt8.xor_zero]

theorem stepBack_step (s : State) : stepBack (step s) = s := by
  have hne : s.toList ≠ [] := List.ne_nil_of_length_pos (by rw [s.length_toList]; decide)
  have hconcat : s.toList.dropLast ++ [s.toList.getLast hne] = s.toList :=
    List.dropLast_append_getLast hne
  have hothers : s.toList.dropLast.length = 15 := by rw [List.length_dropLast, s.length_toList]
  have hfirst := combine_concat hothers (s.toList.getLast hne)
  rw [hconcat] at hfirst
  apply Bytes.ext
  rw [toList_stepBack]
  show s.toList.dropLast ++ [combine s.toList ^^^ combine (s.toList.dropLast ++ [0])] = s.toList
  rw [hfirst, UInt8.xor_comm (combine _), UInt8.xor_assoc, UInt8.xor_self, UInt8.xor_zero, hconcat]

theorem step_stepBack (s : State) : step (stepBack s) = s := by
  obtain ⟨first, others, hs⟩ : ∃ first others, s.toList = first :: others :=
    List.exists_cons_of_length_eq_add_one s.length_toList
  have hothers : others.length = 15 := by
    have hlen := s.length_toList
    rw [hs, List.length_cons] at hlen
    omega
  have hback : (stepBack s).toList = others ++ [first ^^^ combine (others ++ [0])] := by
    rw [toList_stepBack, hs]
    rfl
  apply Bytes.ext
  change combine (stepBack s).toList :: (stepBack s).toList.dropLast = s.toList
  rw [hback, List.dropLast_concat, combine_concat hothers, ← UInt8.xor_assoc,
    UInt8.xor_comm (combine _), UInt8.xor_assoc, UInt8.xor_self, UInt8.xor_zero, hs]

theorem repeat_eq_iterate {α : Type} (f : α → α) (count : Nat) (a : α) :
    Nat.repeat f count a = f^[count] a := by
  induction count with
  | zero => rfl
  | succ count ih => rw [Nat.repeat, ih, Function.iterate_succ_apply']

theorem linearInverse_linear (s : State) : linearInverse (linear s) = s := by
  have h : LeftInverse stepBack step := stepBack_step
  rw [linearInverse, linear, repeat_eq_iterate, repeat_eq_iterate]
  exact h.iterate 16 s

theorem linear_linearInverse (s : State) : linear (linearInverse s) = s := by
  have h : LeftInverse step stepBack := step_stepBack
  rw [linearInverse, linear, repeat_eq_iterate, repeat_eq_iterate]
  exact h.iterate 16 s

/-! ## 3. The rounds -/

/-- What a backward round does before it adds its key. -/
def unmix (s : State) : State := substitute piInverse (linearInverse s)

theorem unmix_mix (s : State) : unmix (mix s) = s := by
  rw [unmix, mix, linearInverse_linear, substitute_substitute piInverse_pi]

theorem mix_unmix (s : State) : mix (unmix s) = s := by
  rw [unmix, mix, substitute_substitute pi_piInverse, linear_linearInverse]

theorem encrypt_cons {keys : List State} (hmore : keys ≠ []) (key s : State) :
    encrypt (key :: keys) s = encrypt keys (mix (s ^^^ key)) := by
  obtain ⟨next, rest, rfl⟩ := List.exists_cons_of_ne_nil hmore
  rw [encrypt.eq_def]

theorem decrypt_cons {keys : List State} (hmore : keys ≠ []) (key s : State) :
    decrypt (key :: keys) s = unmix (decrypt keys s) ^^^ key := by
  obtain ⟨next, rest, rfl⟩ := List.exists_cons_of_ne_nil hmore
  rw [decrypt.eq_def, unmix]

theorem decrypt_encrypt (keys : List State) (s : State) : decrypt keys (encrypt keys s) = s := by
  fun_induction encrypt keys s with
  | case1 s => rfl
  | case2 key s => exact Bytes.xor_xor_cancel_right s key
  | case3 key keys s hmore ih =>
    rw [decrypt_cons hmore, ih, unmix_mix, Bytes.xor_xor_cancel_right]

theorem encrypt_decrypt (keys : List State) (s : State) : encrypt keys (decrypt keys s) = s := by
  fun_induction decrypt keys s with
  | case1 s => rfl
  | case2 key s => exact Bytes.xor_xor_cancel_right s key
  | case3 key keys s hmore ih =>
    rw [encrypt_cons hmore, Bytes.xor_xor_cancel_right]
    change encrypt keys (mix (unmix (decrypt keys s))) = s
    rw [mix_unmix, ih]

end Kuznyechik

end GostSuite

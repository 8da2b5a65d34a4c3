import Mathlib.Data.List.Count
import Mathlib.Data.List.Induction

/-!
# How much a key has worked

Two contexts of the suite change their keys while they work: the counter stream, and the meshed
code. Neither of them stores how many blocks its key has served. The one has a count that is cut
back, the other a count that only grows, and each decides by its own count when the key has to
change. Whether the decisions are right is a question about the blocks, and the blocks are gone.

So the blocks are written down. A log has one entry for each block, in their order, and `fresh` says
of an entry whether a new key was taken for its block. That numbers the keys (`keyOf`) and counts
the blocks under each of them (`blocksUnder`), with no word about how the context counts. All that
is ever needed of this is what one more entry does (`uses_concat`): after a new key there is one
block under the present key, and after any other block there is one more than before.

What is said about a block concerns the block and the entries before it. `Throughout` says it of
all of a log, and is proved entry by entry.
-/

set_option autoImplicit false

namespace GostSuite

namespace KeyUsage

variable {α : Type}

/-! ## 1. Statements about every entry -/

/-- Every entry stands in relation `P` to the entries before it. -/
def Throughout (P : List α → α → Prop) (log : List α) : Prop :=
  ∀ (i : Nat) (h : i < log.length), P (log.take i) log[i]

theorem Throughout.nil (P : List α → α → Prop) : Throughout P [] :=
  fun _ h => absurd h (Nat.not_lt_zero _)

theorem Throughout.concat {P : List α → α → Prop} {log : List α} (h : Throughout P log) {e : α}
    (he : P log e) : Throughout P (log ++ [e]) := by
  intro i hi
  rcases Nat.lt_or_ge i log.length with hlt | hge
  · rw [List.getElem_append_left hlt, List.take_append_of_le_length (Nat.le_of_lt hlt)]
    exact h i hlt
  · obtain rfl : i = log.length := by
      rw [List.length_append, List.length_singleton] at hi
      omega
    rwa [List.getElem_concat_length rfl, List.take_left]

theorem Throughout.of_concat {P : List α → α → Prop} {log : List α} {e : α}
    (h : Throughout P (log ++ [e])) : Throughout P log ∧ P log e := by
  refine ⟨fun i hi => ?_, ?_⟩
  · have hi' := h i (by rw [List.length_append]; omega)
    rwa [List.getElem_append_left hi, List.take_append_of_le_length (Nat.le_of_lt hi)] at hi'
  · have he := h log.length (by simp)
    rwa [List.getElem_concat_length rfl, List.take_left] at he

theorem Throughout.take {P : List α → α → Prop} {log : List α} (h : Throughout P log) (m : Nat) :
    Throughout P (log.take m) := by
  intro i hi
  have him : i < m := Nat.lt_of_lt_of_le hi (List.length_take_le _ _)
  have hlog : i < log.length := Nat.lt_of_lt_of_le hi (List.length_take_le' _ _)
  rw [List.getElem_take, List.take_take, Nat.min_eq_left (Nat.le_of_lt him)]
  exact h i hlog

/-! ## 2. Keys by number -/

/-- The number of the key of block `i`: one for every new key up to this block. -/
def keyOf (fresh : α → Bool) (log : List α) (i : Nat) : Nat := (log.take (i + 1)).countP fresh

/-- The number of the key that there is after the last block. -/
def presentKey (fresh : α → Bool) (log : List α) : Nat := log.countP fresh

/-- Of the first `count` blocks, how many are made under key `k`. -/
def blocksUnder (fresh : α → Bool) (log : List α) (k count : Nat) : Nat :=
  (List.range count).countP fun i => keyOf fresh log i == k

/-- The blocks that are made under the present key. -/
def uses (fresh : α → Bool) (log : List α) : Nat :=
  blocksUnder fresh log (presentKey fresh log) log.length

variable {fresh : α → Bool} {log : List α}

theorem presentKey_concat (fresh : α → Bool) (log : List α) (e : α) :
    presentKey fresh (log ++ [e]) = presentKey fresh log + if fresh e then 1 else 0 := by
  rw [presentKey, List.countP_append, List.countP_singleton]
  rfl

/-- The key of a block is the present one at that time. -/
theorem keyOf_eq (fresh : α → Bool) {i : Nat} (h : i < log.length) :
    keyOf fresh log i = presentKey fresh (log.take i ++ [log[i]]) := by
  rw [keyOf, List.take_append_getElem h]
  rfl

theorem keyOf_le (fresh : α → Bool) (log : List α) (i : Nat) :
    keyOf fresh log i ≤ presentKey fresh log :=
  (List.take_sublist (i + 1) log).countP_le

/-- Later blocks do not change which key a block was made under. -/
theorem keyOf_take {i m : Nat} (h : i < m) : keyOf fresh (log.take m) i = keyOf fresh log i := by
  rw [keyOf, keyOf, List.take_take, Nat.min_eq_left h]

theorem blocksUnder_take (fresh : α → Bool) (log : List α) {count m : Nat} (h : count ≤ m)
    (k : Nat) :
    blocksUnder fresh (log.take m) k count = blocksUnder fresh log k count := by
  refine List.countP_congr fun i hi => ?_
  rw [keyOf_take (Nat.lt_of_lt_of_le (List.mem_range.mp hi) h)]

theorem blocksUnder_succ (fresh : α → Bool) (log : List α) (k count : Nat) :
    blocksUnder fresh log k (count + 1) =
      blocksUnder fresh log k count + if keyOf fresh log count == k then 1 else 0 := by
  rw [blocksUnder, List.range_succ, List.countP_append, List.countP_singleton]
  rfl

/-- No block has been made yet under a key that is still to come. -/
theorem blocksUnder_of_lt {k : Nat} (h : presentKey fresh log < k) (count : Nat) :
    blocksUnder fresh log k count = 0 := by
  refine List.countP_eq_zero.mpr fun i _ => ?_
  have hle := keyOf_le fresh log i
  rw [beq_iff_eq]
  omega

/-! ## 3. One more block -/

@[simp] theorem presentKey_nil (fresh : α → Bool) : presentKey fresh [] = 0 := rfl

@[simp] theorem uses_nil (fresh : α → Bool) : uses fresh [] = 0 := rfl

/-- **One more block** is the first one under its key, or follows those under the present key. -/
theorem uses_concat (fresh : α → Bool) (log : List α) (e : α) :
    uses fresh (log ++ [e]) = if fresh e then 1 else uses fresh log + 1 := by
  have hlast : keyOf fresh (log ++ [e]) log.length = presentKey fresh (log ++ [e]) := by
    rw [keyOf, List.take_of_length_le (by simp), presentKey]
  have hbefore (k : Nat) :
      blocksUnder fresh (log ++ [e]) k log.length = blocksUnder fresh log k log.length := by
    have htake := blocksUnder_take fresh (log ++ [e]) (Nat.le_refl log.length) k
    rwa [List.take_left, eq_comm] at htake
  rw [uses, List.length_append, List.length_singleton, blocksUnder_succ, hlast, hbefore,
    beq_self_eq_true, if_pos rfl, presentKey_concat]
  split
  · rw [blocksUnder_of_lt (Nat.lt_succ_self _)]
  · rfl

/-- Without new keys there is one key for all blocks. -/
theorem uses_of_never_fresh (h : ∀ e ∈ log, fresh e = false) : uses fresh log = log.length := by
  induction log using List.reverseRecOn with
  | nil => rfl
  | append_singleton log e ih =>
    have hbefore := ih fun e' he' => h e' (List.mem_append_left _ he')
    rw [uses_concat, h e (by simp), if_neg Bool.false_ne_true, hbefore, List.length_append,
      List.length_singleton]

/-- The blocks up to block `i` that are made under its key. -/
def usesAt (fresh : α → Bool) (log : List α) (i : Nat) : Nat :=
  blocksUnder fresh log (keyOf fresh log i) (i + 1)

/-- They are the uses of the present key at that time. -/
theorem usesAt_eq (fresh : α → Bool) {i : Nat} (h : i < log.length) :
    usesAt fresh log i = uses fresh (log.take i ++ [log[i]]) := by
  have hlen : (log.take (i + 1)).length = i + 1 := List.length_take_of_le h
  rw [List.take_append_getElem h, uses, hlen, blocksUnder_take fresh log (Nat.le_refl _)]
  rfl

end KeyUsage

end GostSuite

import GostSuite.Derivation.TlsTree
import GostSuite.Proofs.Derivation.KeyTree

/-!
# Record keys, whatever came before

A tree answers from what it keeps, and what it keeps depends on every record that was asked for. The
answer does not. What makes this true is said of the kept keys alone, with no history in it:

> each of them is the child of the one above it, for the number that it is kept with (`Holds`).

A key that is still good for its own number but hangs below a parent that has changed would break
it, and no walk leaves one behind: from the first number that differs all keys are those of the new
path. So a walk always ends up with `path`, the keys that a fresh tree derives one below the other,
and none of its derivations can be refused.

The masks of the levels let through more and more bits. So records that agree behind the last mask
agree behind all of them, and share their key.
-/

set_option autoImplicit false

namespace GostSuite

/-- The key below `parent` on the way to a record. -/
def TlsLevel.child (level : TlsLevel) (parent : Key) (masked : SequenceNumber) : Key :=
  KeyTree.child parent level.label (ByteString.bigEndian 8 masked.toNat)

theorem TlsLevel.key_eq (level : TlsLevel) (parent : Key) (masked : SequenceNumber) :
    level.key parent masked = .ok (level.child parent masked) := by
  rw [TlsLevel.key, KeyTree.derive_child]
  exact congrArg Except.ok (Bytes.padded_toList _)

namespace TlsTree

/-! ## 1. The keys on the way to a record -/

/-- The keys below `parent` on the way to a record, one for each level. -/
def path (seq : SequenceNumber) : (parent : Key) → List TlsLevel → List KeptKey
  | _, [] => []
  | parent, level :: levels =>
    ⟨seq &&& level.mask, level.child parent (seq &&& level.mask)⟩ ::
      path seq (level.child parent (seq &&& level.mask)) levels

/-- Each of some kept keys is the child of the one above it, for the number it is kept with. -/
def Holds : (parent : Key) → List TlsLevel → List KeptKey → Prop
  | _, _, [] => True
  | _, [], _ :: _ => False
  | parent, level :: levels, k :: kept =>
    k.key = level.child parent k.masked ∧ Holds k.key levels kept

variable {seq : SequenceNumber} {parent : Key} {levels : List TlsLevel} {kept : List KeptKey}

theorem holds_nil (parent : Key) (levels : List TlsLevel) : Holds parent levels [] := by
  cases levels <;> trivial

theorem holds_path (seq : SequenceNumber) (parent : Key) (levels : List TlsLevel) :
    Holds parent levels (path seq parent levels) := by
  induction levels generalizing parent with
  | nil => trivial
  | cons level levels ih => exact ⟨rfl, ih _⟩

theorem descend_eq (seq : SequenceNumber) (parent : Key) (levels : List TlsLevel) :
    descend seq parent levels = .ok (path seq parent levels) := by
  induction levels generalizing parent with
  | nil => rfl
  | cons level levels ih =>
    rw [descend, level.key_eq]
    change (do return _ :: (← descend seq _ levels)) = _
    rw [ih]
    rfl

/-- **A walk ends up with the keys of its record**, wherever the kept ones come from. -/
theorem Holds.refresh_eq (h : Holds parent levels kept) (seq : SequenceNumber) :
    refresh seq parent levels kept = .ok (path seq parent levels) := by
  induction kept generalizing parent levels with
  | nil => rw [refresh, descend_eq]
  | cons k kept ih =>
    cases levels with
    | nil => exact h.elim
    | cons level levels =>
      obtain ⟨hkey, hbelow⟩ := h
      rw [refresh]
      by_cases hmasked : k.masked = seq &&& level.mask
      · -- the kept key is the one that would be derived, so the walk goes on below it
        have hk : k = ⟨seq &&& level.mask, level.child parent (seq &&& level.mask)⟩ := by
          rw [← hmasked, ← hkey]
        rw [if_pos hmasked, ih hbelow, path, hkey, hmasked]
        exact congrArg (fun first => Except.ok (first :: _)) hk
      · rw [if_neg hmasked, descend_eq]

/-! ## 2. A tree and its records -/

/-- What a caller asks a tree for. -/
inductive Call where
  | key (seq : SequenceNumber)
  | cipher (a : Algorithm) (seq : SequenceNumber)

/-- The tree after a call. -/
def visit (t : TlsTree) : Call → TlsTree
  | .key seq => (t.key seq).after
  | .cipher a seq => (t.cipher a seq).after

/-- The tree of an algorithm, its levels and a root, with anything kept that holds. -/
structure Stands (a : Algorithm) (root : Key) (levels : List TlsLevel) (t : TlsTree) : Prop where
  holds : Holds root levels t.kept
  algorithm : t.algorithm = a
  root : t.root = root
  levels : t.levels = levels

variable {a : Algorithm} {root : Key} {t : TlsTree}

theorem ofRoot_stands (hlevels : TlsLevel.ofAlgorithm? a = some levels) (root : Key) :
    ∃ t, ofRoot a root = .ok t ∧ Stands a root levels t := by
  refine ⟨⟨a, levels, root, []⟩, ?_, holds_nil root levels, rfl, rfl, rfl⟩
  rw [ofRoot, hlevels]

theorem Stands.key (h : Stands a root levels t) (seq : SequenceNumber) :
    ∃ t', t.key seq = .done t' (lowest root (path seq root levels)) ∧ Stands a root levels t' := by
  refine ⟨{ t with kept := path seq root levels }, ?_, holds_path seq root levels, h.algorithm,
    h.root, h.levels⟩
  rw [TlsTree.key, h.root, h.levels, h.holds.refresh_eq]

theorem Stands.cipher (h : Stands a root levels t) (seq : SequenceNumber) :
    ∃ t', t.cipher a seq = .done t' (.ofKey a (lowest root (path seq root levels))) ∧
      Stands a root levels t' := by
  obtain ⟨t', hkey, hstands⟩ := h.key seq
  refine ⟨t', ?_, hstands⟩
  rw [TlsTree.cipher, if_pos h.algorithm.symm, hkey]
  rfl

/-- A cipher of another algorithm is refused before the tree is looked at. -/
theorem Stands.cipher_refused (h : Stands a root levels t) {b : Algorithm} (hb : b ≠ a)
    (seq : SequenceNumber) : t.cipher b seq = .refused t (.unsupportedAlgorithm b) := by
  rw [TlsTree.cipher, h.algorithm, if_neg hb]

theorem Stands.visit (h : Stands a root levels t) (call : Call) :
    Stands a root levels (t.visit call) := by
  cases call with
  | key seq =>
    obtain ⟨t', hkey, hstands⟩ := h.key seq
    rw [TlsTree.visit, hkey]
    exact hstands
  | cipher b seq =>
    rw [TlsTree.visit]
    by_cases hb : b = a
    · subst hb
      obtain ⟨t', hcipher, hstands⟩ := h.cipher seq
      rw [hcipher]
      exact hstands
    · rw [h.cipher_refused hb]
      exact h

theorem Stands.visits (h : Stands a root levels t) (calls : List Call) :
    Stands a root levels (calls.foldl TlsTree.visit t) := by
  induction calls generalizing t with
  | nil => exact h
  | cons call calls ih => exact ih (h.visit call)

theorem recordKey_eq (hlevels : TlsLevel.ofAlgorithm? a = some levels) (root : Key)
    (seq : SequenceNumber) : recordKey a root seq = .ok (lowest root (path seq root levels)) := by
  obtain ⟨t, hmade, hstands⟩ := ofRoot_stands hlevels root
  obtain ⟨t', hkey, -⟩ := hstands.key seq
  rw [recordKey, hmade]
  exact congrArg Outcome.answer hkey

/-! ## 3. The law -/

/-- The key of a record, derived down three levels from the root, with the masks of the levels. -/
def derivedKey (root : Key) (c₁ c₂ c₃ seq : SequenceNumber) : Key :=
  let first := KeyTree.child root (.ascii "level1") (.bigEndian 8 (seq &&& c₁).toNat)
  let second := KeyTree.child first (.ascii "level2") (.bigEndian 8 (seq &&& c₂).toNat)
  KeyTree.child second (.ascii "level3") (.bigEndian 8 (seq &&& c₃).toNat)

/-- A mask that lets through more bits decides what is left behind one that lets through fewer. -/
theorem and_eq_of_and_eq {seq seq' fine coarse : SequenceNumber} (h : fine &&& coarse = coarse)
    (heq : seq &&& fine = seq' &&& fine) : seq &&& coarse = seq' &&& coarse := by
  rw [← h, ← BitVec.and_assoc, heq, BitVec.and_assoc]

theorem derivedKey_congr {c₁ c₂ c₃ seq seq' : SequenceNumber} (root : Key)
    (h₁ : c₃ &&& c₁ = c₁) (h₂ : c₃ &&& c₂ = c₂) (heq : seq &&& c₃ = seq' &&& c₃) :
    derivedKey root c₁ c₂ c₃ seq = derivedKey root c₁ c₂ c₃ seq' := by
  rw [derivedKey, derivedKey, and_eq_of_and_eq h₁ heq, and_eq_of_and_eq h₂ heq, heq]

/-- The profile of an algorithm: three labelled levels, and masks of which the last lets through
all that the others do. -/
theorem masks_of_algorithm (ha : a = .magma ∨ a = .kuznyechik) :
    ∃ c₁ c₂ c₃ : SequenceNumber,
      TlsLevel.ofAlgorithm? a =
        some [⟨.ascii "level1", c₁⟩, ⟨.ascii "level2", c₂⟩, ⟨.ascii "level3", c₃⟩] ∧
      c₃ &&& c₁ = c₁ ∧ c₃ &&& c₂ = c₂ := by
  rcases ha with rfl | rfl
  · exact ⟨_, _, _, rfl, by decide, by decide⟩
  · exact ⟨_, _, _, rfl, by decide, by decide⟩

/-- **What a tree keeps cannot be seen.** After any calls on a tree of either profile, the key of
every record is derived down the three levels from the root, with the number of the record behind
the mask of each level. This is what a fresh tree answers, and it is an answer and not a refusal. A
cipher comes with that key; one of another algorithm is refused and leaves the tree as it is. And
records that agree behind the last mask have one key, whatever was asked before either of them. -/
theorem keys_independent_of_history (a : Algorithm) (ha : a = .magma ∨ a = .kuznyechik)
    (root : Key) :
    ∃ (c₁ c₂ c₃ : SequenceNumber) (t : TlsTree),
      TlsLevel.ofAlgorithm? a =
        some [⟨.ascii "level1", c₁⟩, ⟨.ascii "level2", c₂⟩, ⟨.ascii "level3", c₃⟩] ∧
      ofRoot a root = .ok t ∧
      (∀ (calls : List Call) (seq : SequenceNumber),
        let t' := calls.foldl visit t
        (t'.key seq).answer = .ok (derivedKey root c₁ c₂ c₃ seq) ∧
        recordKey a root seq = .ok (derivedKey root c₁ c₂ c₃ seq) ∧
        (t'.cipher a seq).answer = .ok (.ofKey a (derivedKey root c₁ c₂ c₃ seq)) ∧
        ∀ b, b ≠ a → t'.cipher b seq = .refused t' (.unsupportedAlgorithm b)) ∧
      ∀ (calls calls' : List Call) (seq seq' : SequenceNumber), seq &&& c₃ = seq' &&& c₃ →
        ((calls.foldl visit t).key seq).answer = ((calls'.foldl visit t).key seq').answer := by
  obtain ⟨c₁, c₂, c₃, hlevels, h₁, h₂⟩ := masks_of_algorithm ha
  obtain ⟨t, hmade, hstands⟩ := ofRoot_stands hlevels root
  have hkey : ∀ (calls : List Call) (seq : SequenceNumber),
      ((calls.foldl visit t).key seq).answer = .ok (derivedKey root c₁ c₂ c₃ seq) := by
    intro calls seq
    obtain ⟨t', hkey, -⟩ := (hstands.visits calls).key seq
    exact congrArg Outcome.answer hkey
  refine ⟨c₁, c₂, c₃, t, hlevels, hmade, ?_, ?_⟩
  · intro calls seq
    obtain ⟨t', hcipher, -⟩ := (hstands.visits calls).cipher seq
    exact ⟨hkey calls seq, recordKey_eq hlevels root seq, congrArg Outcome.answer hcipher,
      fun b hb => (hstands.visits calls).cipher_refused hb seq⟩
  · intro calls calls' seq seq' heq
    rw [hkey, hkey, derivedKey_congr root h₁ h₂ heq]

/-- A tree that has gone to another branch and back, with a cipher of another algorithm asked for
on the way: two records of one leaf. -/
theorem keys_kuznyechik_after_detour :
    ∃ t, ofRoot .kuznyechik (.zero 32) = .ok t ∧
      (([Call.key 0x100000, .cipher .magma 7, .cipher .kuznyechik 0x40].foldl visit t).key 5).answer =
        (t.key 63).answer := by
  obtain ⟨c₁, c₂, c₃, t, hlevels, hmade, -, hsame⟩ :=
    keys_independent_of_history .kuznyechik (.inr rfl) (.zero 32)
  refine ⟨t, hmade, hsame [.key 0x100000, .cipher .magma 7, .cipher .kuznyechik 0x40] [] 5 63 ?_⟩
  simp only [TlsLevel.ofAlgorithm?, Option.some.injEq, List.cons.injEq, TlsLevel.mk.injEq] at hlevels
  obtain ⟨-, -, ⟨-, rfl⟩, -⟩ := hlevels
  decide

end TlsTree

end GostSuite

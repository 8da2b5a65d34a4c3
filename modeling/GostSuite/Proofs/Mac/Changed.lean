import GostSuite.Proofs.Bytes.Adding
import GostSuite.Proofs.Bytes.Masking
import GostSuite.Proofs.Cipher.Permutation
import GostSuite.Proofs.Mac.Plain

/-!
# Codes of changed messages

Somebody changes bytes of a message, all of them in one block. The chain is the same up to that
block. There it takes another block into the same state, and ciphers lose nothing, so the states
differ; and from then on it takes the same blocks into states that differ, and they go on to differ
to the end. If the block is the last one, the states are the same and the whitened blocks differ.
Either way

> two messages of one length that differ in one block have different codes (`codeUnder_ne`),

for every key, with nothing left to chance. The chain asks nothing of what follows a block but that
it loses nothing (`states_ne_of_lt`). The end never asks which key a block is chained under, so it is
made once, for any row of key pairs (`codeUnder`). The meshed code is one such row by definition, and
the plain code is the row in which all pairs are the same (`wholeCode_eq_codeUnder`).
-/

set_option autoImplicit false

namespace GostSuite

/-! ## 1. Strings that differ in one block -/

namespace ByteString

/-- The strings have the same bytes outside of block `i`, the blocks being `n` bytes long. -/
def AgreeOutside (n i : Nat) (s t : ByteString) : Prop := ∀ p, p / n ≠ i → s[p]? = t[p]?

variable {n i : Nat} {s t : ByteString}

theorem AgreeOutside.mask (h : AgreeOutside n i s t) (stream : Nat → UInt8) (start : Nat) :
    AgreeOutside n i (mask stream start s) (mask stream start t) := by
  intro p hp
  rw [getElem?_mask, getElem?_mask, h p hp]

/-- What stands before two strings moves their differences behind it. -/
theorem agreeOutside_append (before : ByteString)
    (h : ∀ p, (p + before.length) / n ≠ i → s[p]? = t[p]?) :
    AgreeOutside n i (before ++ s) (before ++ t) := by
  intro p hp
  by_cases hbefore : p < before.length
  · rw [List.getElem?_append_left hbefore, List.getElem?_append_left hbefore]
  · rw [List.getElem?_append_right (Nat.le_of_not_lt hbefore),
      List.getElem?_append_right (Nat.le_of_not_lt hbefore)]
    refine h _ ?_
    rwa [Nat.sub_add_cancel (Nat.le_of_not_lt hbefore)]

/-- The string with bit `j` of byte `p` turned over. -/
def flip (s : ByteString) (p : Nat) (j : Fin 8) : ByteString :=
  s.modify p (· ^^^ 1 <<< UInt8.ofNat j)

theorem length_flip (s : ByteString) (p : Nat) (j : Fin 8) : (s.flip p j).length = s.length :=
  List.length_modify ..

theorem getElem?_flip_of_ne (s : ByteString) {p q : Nat} (j : Fin 8) (h : p ≠ q) :
    (s.flip p j)[q]? = s[q]? := by
  rw [flip]
  exact List.getElem?_modify_ne _ s h

theorem agreeOutside_flip (n : Nat) (s : ByteString) (p : Nat) (j : Fin 8) :
    AgreeOutside n (p / n) s (s.flip p j) := by
  intro q hq
  rw [getElem?_flip_of_ne s j]
  rintro rfl
  exact hq rfl

theorem flip_ne (s : ByteString) {p : Nat} (j : Fin 8) (hp : p < s.length) : s.flip p j ≠ s := by
  intro hsame
  have hbyte : some (s[p] ^^^ 1 <<< UInt8.ofNat j) = some s[p] := by
    rw [← List.getElem?_eq_getElem hp, ← congrArg (fun u : ByteString => u[p]?) hsame]
    simp only [flip, List.getElem?_modify_eq, List.getElem?_eq_getElem hp]
    rfl
  have hzero : 1 <<< UInt8.ofNat j = 0 :=
    (UInt8.xor_right_inj s[p]).mp ((Option.some.inj hbyte).trans UInt8.xor_zero.symm)
  have hbit : ∀ j : Fin 8, (1 <<< UInt8.ofNat j : UInt8) ≠ 0 := by decide
  exact hbit j hzero

end ByteString

namespace Bytes

variable {n : Nat} {s t : ByteString}

theorem padded_congr (hlen : s.length = t.length) (htake : s.take n = t.take n) :
    padded n s = padded n t := by
  apply ext
  simp only [padded, hlen, htake]

end Bytes

namespace Chain

open ByteString

variable {n i : Nat} {s t : ByteString}

theorem blockCount_congr (hlen : s.length = t.length) : blockCount n s = blockCount n t := by
  rw [blockCount, blockCount, hlen]

theorem blockAt_eq_of_agree (hn : 0 < n) (hlen : s.length = t.length) (h : AgreeOutside n i s t)
    {j : Nat} (hj : j ≠ i) : blockAt n s j = blockAt n t j := by
  refine Bytes.padded_congr (by rw [List.length_drop, List.length_drop, hlen]) ?_
  apply List.ext_getElem?
  intro r
  rw [List.getElem?_take, List.getElem?_take, List.getElem?_drop, List.getElem?_drop]
  split
  · rename_i hr
    refine h _ ?_
    rw [Nat.mul_comm, Nat.mul_add_div hn, Nat.div_eq_of_lt hr, Nat.add_zero]
    exact hj
  · rfl

theorem eq_of_agree (hn : 0 < n) (hlen : s.length = t.length) (h : AgreeOutside n i s t)
    (hblock : blockAt n s i = blockAt n t i) : s = t := by
  have htake : (s.drop (i * n)).take n = (t.drop (i * n)).take n :=
    Bytes.padded_injOn (by rw [List.length_drop, List.length_drop, hlen]) hblock
  apply List.ext_getElem?
  intro p
  by_cases hp : p / n = i
  · have hr : p % n < n := Nat.mod_lt p hn
    have hplace : i * n + p % n = p := by
      rw [← hp, Nat.mul_comm]
      exact Nat.div_add_mod p n
    have hbyte := congrArg (fun u : ByteString => u[p % n]?) htake
    simp only [List.getElem?_take, List.getElem?_drop, if_pos hr, hplace] at hbyte
    exact hbyte
  · exact h p hp

/-- A block in which strings differ is one of their blocks. -/
theorem le_last_of_ne (hn : 0 < n) (hlen : s.length = t.length) (h : AgreeOutside n i s t)
    (hne : s ≠ t) : i ≤ blockCount n s - 1 := by
  by_contra hgt
  refine hne (List.ext_getElem? fun p => ?_)
  by_cases hp : p / n = i
  · -- the place is behind the end of both
    have hbounds := (leading_bounds hn s).2
    have hplace : i * n ≤ p := by
      rw [← hp]
      exact Nat.div_mul_le_self p n
    have hlast : (blockCount n s - 1 + 1) * n ≤ i * n := Nat.mul_le_mul_right n (by omega)
    rw [Nat.succ_mul] at hlast
    rw [List.getElem?_eq_none (by omega), List.getElem?_eq_none (by omega)]
  · exact h p hp

theorem blockAt_last (n : Nat) (s : ByteString) :
    blockAt n s (blockCount n s - 1) = Bytes.padded n (held n s) := rfl

theorem held_eq_iff (hn : 0 < n) (hlen : s.length = t.length) :
    held n s = held n t ↔
      blockAt n s (blockCount n s - 1) = blockAt n t (blockCount n s - 1) := by
  have hcount := blockCount_congr (n := n) hlen
  have hheld : (held n s).length = (held n t).length := by
    rw [held, held, List.length_drop, List.length_drop, hcount, hlen]
  have hshort := length_held_le hn s
  constructor
  · intro h
    rw [blockAt_last, h, hcount, blockAt_last]
  · intro h
    have h' : Bytes.padded n (held n s) = Bytes.padded n (held n t) := by
      rw [← blockAt_last, ← blockAt_last, ← hcount, h]
    have htake := Bytes.padded_injOn hheld h'
    rwa [List.take_of_length_le hshort, List.take_of_length_le (by omega)] at htake

end Chain

/-! ## 2. Chains whose steps lose nothing -/

namespace Chain

open ByteString

variable {n i : Nat} {f : Nat → Bytes n → Bytes n} {start : Bytes n} {s t : ByteString}

/-- The states of a chain over the blocks of a message: block `i` is added, and `f i` follows. -/
def states (f : Nat → Bytes n → Bytes n) (start : Bytes n) (s : ByteString) : Nat → Bytes n
  | 0 => start
  | i + 1 => f i (states f start s i ^^^ blockAt n s i)

/-- Up to the changed block nothing has happened. -/
theorem states_eq_of_le (hn : 0 < n) (hlen : s.length = t.length) (h : AgreeOutside n i s t)
    {j : Nat} (hj : j ≤ i) : states f start s j = states f start t j := by
  induction j with
  | zero => rfl
  | succ j ih =>
    rw [states, states, ih (Nat.le_of_lt hj), blockAt_eq_of_agree hn hlen h (Nat.ne_of_lt hj)]

/-- Behind the changed block the states differ, and no block to come brings them together again. -/
theorem states_ne_of_lt (hn : 0 < n) (hf : ∀ i, Function.Injective (f i))
    (hlen : s.length = t.length) (h : AgreeOutside n i s t) (hne : s ≠ t) {j : Nat} (hj : i < j) :
    states f start s j ≠ states f start t j := by
  induction j with
  | zero => exact absurd hj (Nat.not_lt_zero i)
  | succ j ih =>
    rw [states, states, (hf j).ne_iff]
    rcases Nat.lt_or_eq_of_le (Nat.le_of_lt_succ hj) with hlt | rfl
    · rw [blockAt_eq_of_agree hn hlen h (Nat.ne_of_gt hlt), Ne, Bytes.xor_left_inj]
      exact ih hlt
    · rw [states_eq_of_le hn hlen h (Nat.le_refl i), Ne, Bytes.xor_right_inj]
      intro hblock
      exact hne (eq_of_agree hn hlen h hblock)

end Chain

/-! ## 3. Codes under a row of key pairs -/

namespace MeshedOmac

open ByteString

variable {a : Algorithm}

/-- The code of a message whose sections have the given key pairs. -/
def codeUnder (pairs : Nat → MacKey a) (sectionLen : Nat) (message : ByteString) : Block a :=
  let last := Chain.blockCount a.blockLen message - 1
  let pair := pairs (last * a.blockLen / sectionLen)
  pair.cipher.encrypt
    (chainState pairs sectionLen message last ^^^ lastBlock pair (Chain.held a.blockLen message))

variable {pairs : Nat → MacKey a} {sectionLen i : Nat} {s t : ByteString}

theorem chainState_eq_states (pairs : Nat → MacKey a) (sectionLen : Nat) (s : ByteString)
    (j : Nat) :
    chainState pairs sectionLen s j =
      Chain.states (fun i => (pairs (i * a.blockLen / sectionLen)).cipher.encrypt)
        (.zero a.blockLen) s j := by
  induction j with
  | zero => rfl
  | succ j ih =>
    rw [chainState, ih]
    rfl

theorem chainState_eq_of_le (hlen : s.length = t.length) (h : AgreeOutside a.blockLen i s t)
    {j : Nat} (hj : j ≤ i) :
    chainState pairs sectionLen s j = chainState pairs sectionLen t j := by
  rw [chainState_eq_states, chainState_eq_states]
  exact Chain.states_eq_of_le a.blockLen_pos hlen h hj

theorem chainState_ne_of_lt (hlen : s.length = t.length) (h : AgreeOutside a.blockLen i s t)
    (hne : s ≠ t) {j : Nat} (hj : i < j) :
    chainState pairs sectionLen s j ≠ chainState pairs sectionLen t j := by
  rw [chainState_eq_states, chainState_eq_states]
  exact Chain.states_ne_of_lt a.blockLen_pos (fun _ => Cipher.encrypt_injective _) hlen h hne hj

/-- The last block can be read back from what whitening makes of it, if its length is known. -/
theorem lastBlock_injOn (pair : MacKey a) {rest rest' : ByteString}
    (hlen : rest.length = rest'.length) (hshort : rest.length ≤ a.blockLen)
    (h : lastBlock pair rest = lastBlock pair rest') : rest = rest' := by
  unfold lastBlock at h
  rw [← hlen] at h
  split at h
  · have htake := Bytes.padded_injOn hlen (Bytes.xor_left_inj.mp h)
    rwa [List.take_of_length_le hshort, List.take_of_length_le (by omega)] at htake
  · rename_i hpart
    have htake := Bytes.padded_injOn (by rw [List.length_append, List.length_append, hlen])
      (Bytes.xor_left_inj.mp h)
    rw [List.take_of_length_le, List.take_of_length_le] at htake
    · exact List.append_cancel_right htake
    · rw [List.length_append, List.length_singleton]
      omega
    · rw [List.length_append, List.length_singleton]
      omega

/-- **Messages that differ in one block have different codes**, whatever the key pairs are. -/
theorem codeUnder_ne (hlen : s.length = t.length) (h : AgreeOutside a.blockLen i s t)
    (hne : s ≠ t) : codeUnder pairs sectionLen s ≠ codeUnder pairs sectionLen t := by
  have hn := a.blockLen_pos
  have hcount := Chain.blockCount_congr (n := a.blockLen) hlen
  have hheld := Chain.held_eq_iff hn hlen
  simp only [codeUnder]
  rw [← hcount, (Cipher.encrypt_injective _).ne_iff]
  rcases Nat.lt_or_eq_of_le (Chain.le_last_of_ne hn hlen h hne) with hlt | hlast
  · -- the last block is the same one, taken into another state
    rw [hheld.mpr (Chain.blockAt_eq_of_agree hn hlen h (Nat.ne_of_gt hlt)), Ne,
      Bytes.xor_left_inj]
    exact chainState_ne_of_lt hlen h hne hlt
  · -- the state is the same, and the last block has changed
    rw [chainState_eq_of_le hlen h (Nat.le_of_eq hlast.symm), Ne, Bytes.xor_right_inj]
    intro hrest
    have hlengths : (Chain.held a.blockLen s).length = (Chain.held a.blockLen t).length := by
      rw [Chain.held, Chain.held, List.length_drop, List.length_drop, hcount, hlen]
    have hsame := hheld.mp (lastBlock_injOn _ hlengths (Chain.length_held_le hn s) hrest)
    rw [← hlast] at hsame
    exact hne (Chain.eq_of_agree hn hlen h hsame)

end MeshedOmac

namespace Omac

variable {a : Algorithm}

theorem chainState_eq (c : Cipher a) (sectionLen : Nat) (message : ByteString) (i : Nat) :
    chainState c message i =
      MeshedOmac.chainState (fun _ => .ofCipher c) sectionLen message i := by
  induction i with
  | zero => rfl
  | succ i ih =>
    rw [chainState, MeshedOmac.chainState, ih]
    rfl

theorem wholeCode_eq_codeUnder (c : Cipher a) (sectionLen : Nat) (message : ByteString) :
    wholeCode c message = MeshedOmac.codeUnder (fun _ => .ofCipher c) sectionLen message := by
  rw [wholeCode, chainState_eq c sectionLen]
  rfl

theorem wholeCode_ne (c : Cipher a) {i : Nat} {s t : ByteString} (hlen : s.length = t.length)
    (h : ByteString.AgreeOutside a.blockLen i s t) (hne : s ≠ t) : wholeCode c s ≠ wholeCode c t := by
  rw [wholeCode_eq_codeUnder c 0, wholeCode_eq_codeUnder c 0]
  exact MeshedOmac.codeUnder_ne hlen h hne

end Omac

end GostSuite

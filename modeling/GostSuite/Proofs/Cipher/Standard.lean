import GostSuite.Cipher.Basic
import GostSuite.Proofs.Cipher.Network

/-!
# The network as the standard writes it

The standard knows eight rows and the nibbles of a word. Row `i` replaces nibble `i`, the word is
turned left by eleven, and the rounds go through the key words in an order that is told round by
round. The rounds that run know none of this: they look up bytes in tables of 256 entries, and the
order is a list that is put together from copies of the key.

Both are the same network, for any rows and any eight key words. It takes two steps, and they have
nothing to do with each other. A table is merged from two rows, and looking a byte up gives the
entries of its two nibbles (`entry_mergeRows`), so four look-ups are eight replacements
(`toBitVec_substitute`). The lists of key words are the rounds, counted, and sent through the order
of the standard (`schedules_eq`).

That a byte is looked up in two rows is of use alone: what a single block encrypts to can then be
computed without building a table (`encrypt_gost89_rows`).
-/

set_option autoImplicit false

namespace GostSuite

/-! ## 1. Rows beside merged tables -/

namespace Substitution

/-- The replacement of a byte by two rows: `low` for its low nibble, `high` for the high one. -/
def pairEntry (low high : Row) (x : UInt8) : UInt8 :=
  .ofBitVec (high.entry (x.toBitVec.extractLsb' 4 4) ++ low.entry (x.toBitVec.extractLsb' 0 4))

theorem entry_mergeRows (low high : Row) (x : UInt8) :
    (mergeRows low high).entry x = pairEntry low high x := by
  have hx : BitVec.ofNat 8 x.toNat = x.toBitVec := x.toBitVec.ofNat_toNat 8
  rw [mergeRows, ByteTable.entry_ofFn]
  simp only [hx, pairEntry]

end Substitution

namespace Network

open Substitution in
/-- Replaces every nibble of a word by the entry of its row. -/
def substituteRows (s : Substitution) (x : Word) : Word :=
  .ofByte (pairEntry (s.get 0) (s.get 1) (x.byte 0)) 0 |||
    .ofByte (pairEntry (s.get 2) (s.get 3) (x.byte 1)) 1 |||
    .ofByte (pairEntry (s.get 4) (s.get 5) (x.byte 2)) 2 |||
    .ofByte (pairEntry (s.get 6) (s.get 7) (x.byte 3)) 3

theorem substitute_byteTables (s : Substitution) (x : Word) :
    substitute s.byteTables x = substituteRows s x := by
  simp only [substitute, substituteRows, ← Substitution.entry_mergeRows]
  rfl

/-- The round function over rows. -/
def mixRows (s : Substitution) (a k : Word) : Word := Word.rotateLeft (substituteRows s (a + k)) 11

theorem mix_byteTables (s : Substitution) : mix s.byteTables = mixRows s := by
  funext a k
  rw [mix, mixRows, substitute_byteTables]

end Network

/-- Gost89 over rows, under some key words. -/
def Gost89.encryptRows (s : Substitution) (words : List Word) (b : Bytes 8) : Bytes 8 :=
  join (Network.rounds (Network.mixRows s) (Network.forward words) (split b))

theorem Cipher.encrypt_gost89_rows (words : List Word) (params : ParamSet) :
    (Cipher.gost89 words params).encrypt = Gost89.encryptRows params.substitution words := by
  funext b
  change _ = Gost89.join
    (Network.rounds (Network.mixRows params.substitution) (Network.forward words) (Gost89.split b))
  rw [← Network.mix_byteTables, ← ParamSet.tables_eq]
  rfl

namespace Network

/-! ## 2. Nibbles of a word -/

/-- Nibble `i`, counted from the least significant one. -/
def nibble (x : BitVec 32) (i : Nat) : BitVec 4 := x.extractLsb' (4 * i) 4

/-- The word of eight nibbles, the last one being the most significant. -/
def ofNibbles (f : Fin 8 → BitVec 4) : BitVec 32 :=
  f 7 ++ f 6 ++ f 5 ++ f 4 ++ f 3 ++ f 2 ++ f 1 ++ f 0

theorem nibble_ofNibbles (f : Fin 8 → BitVec 4) (i : Fin 8) : nibble (ofNibbles f) i = f i := by
  rw [nibble, ofNibbles]
  -- nibble `i` is cut out of the word between the nibbles below it and those above it
  match i with
  | 0 | 1 | 2 | 3 | 4 | 5 | 6 | 7 =>
    simp (disch := omega) only [BitVec.extractLsb'_append_eq_of_le,
      BitVec.extractLsb'_append_eq_of_add_le]
    exact BitVec.extractLsb'_eq_self

theorem nibble_of_byte (x : BitVec 32) (start : Nat) {i : Nat} (hi : i ≤ 4) :
    (x.extractLsb' start 8).extractLsb' i 4 = x.extractLsb' (start + i) 4 := by
  apply BitVec.eq_of_getLsbD_eq
  intro j hj
  have hbyte : i + j < 8 := by omega
  simp only [BitVec.getLsbD_extractLsb', decide_eq_true hj, decide_eq_true hbyte, Bool.true_and,
    Nat.add_assoc]

end Network

namespace Word

theorem toBitVec_byte (x : Word) :
    (x.byte 0).toBitVec = x.toBitVec.extractLsb' 0 8 ∧
      (x.byte 1).toBitVec = x.toBitVec.extractLsb' 8 8 ∧
      (x.byte 2).toBitVec = x.toBitVec.extractLsb' 16 8 ∧
      (x.byte 3).toBitVec = x.toBitVec.extractLsb' 24 8 := by
  refine ⟨?_, ?_, ?_, ?_⟩ <;>
  · apply BitVec.eq_of_getLsbD_eq
    intro j hj
    simp [byte]

theorem toBitVec_ofBytes (b0 b1 b2 b3 : UInt8) :
    (ofByte b0 0 ||| ofByte b1 1 ||| ofByte b2 2 ||| ofByte b3 3).toBitVec =
      (b3.toBitVec ++ b2.toBitVec ++ b1.toBitVec ++ b0.toBitVec : BitVec 32) := by
  apply BitVec.eq_of_getLsbD_eq
  intro j hj
  have hbyte : j < 8 ∨ (8 ≤ j ∧ j < 16) ∨ (16 ≤ j ∧ j < 24) ∨ 24 ≤ j := by omega
  simp only [BitVec.getLsbD_append, Nat.sub_sub]
  rcases hbyte with h | ⟨h, h'⟩ | ⟨h, h'⟩ | h <;>
    simp (disch := omega) [ofByte, if_pos, if_neg, decide_eq_true, decide_eq_false]

theorem toBitVec_rotateLeft (x : Word) :
    (rotateLeft x 11).toBitVec = x.toBitVec.rotateLeft 11 := by
  rw [BitVec.rotateLeft_def]
  rfl

end Word

namespace Network

/-! ## 3. The round function -/

/-- The round function of the standard: every nibble of the sum is replaced by its row, and the word
is turned left by eleven. -/
def standardMix (s : Substitution) (a k : Word) : Word :=
  let sum := a.toBitVec + k.toBitVec
  .ofBitVec ((ofNibbles fun i => (s.get i).entry (nibble sum i)).rotateLeft 11)

theorem toBitVec_substitute (s : Substitution) (x : Word) :
    (substitute s.byteTables x).toBitVec =
      ofNibbles fun i => (s.get i).entry (nibble x.toBitVec i) := by
  obtain ⟨h0, h1, h2, h3⟩ := x.toBitVec_byte
  rw [substitute_byteTables, substituteRows, Word.toBitVec_ofBytes]
  simp only [Substitution.pairEntry, h0, h1, h2, h3, nibble_of_byte _ _ (show 0 ≤ 4 by decide),
    nibble_of_byte _ _ (show 4 ≤ 4 by decide)]
  simp only [ofNibbles, nibble, BitVec.append_assoc, BitVec.cast_eq]
  rfl

theorem mix_eq_standardMix (s : Substitution) : mix s.byteTables = standardMix s := by
  funext a k
  apply UInt32.toBitVec_inj.mp
  rw [mix, Word.toBitVec_rotateLeft, toBitVec_substitute]
  rfl

/-! ## 4. The rounds -/

/-- The halves after some rounds; round `r` takes the key word `k r`. -/
def afterRounds (g : Word → Word → Word) (k : Nat → Word) (h : Halves) : Nat → Halves
  | 0 => h
  | r + 1 =>
    let (a, b) := afterRounds g k h r
    (b, a ^^^ g b (k r))

/-- The number of the key word of round `r`: the words are taken in their order, again and again,
and from round `turn` on in the opposite order. -/
def keyIndex (turn r : Nat) : Nat := if r < turn then r % 8 else 7 - r % 8

theorem rounds_range (g : Word → Word → Word) (k : Nat → Word) (h : Halves) (n : Nat) :
    rounds g ((List.range n).map k) h = afterRounds g k h n := by
  induction n with
  | zero => rfl
  | succ n ih =>
    rw [List.range_succ, List.map_append, rounds_append, ih]
    rfl

/-- The three lists of key words, round by round: 24 rounds forward and eight backward, eight
forward and 24 backward, and sixteen forward. -/
theorem schedules_eq (k : Nat → Word) :
    let words := (List.range 8).map k
    forward words = (List.range 32).map (fun r => k (keyIndex 24 r)) ∧
      backward words = (List.range 32).map (fun r => k (keyIndex 8 r)) ∧
      half words = (List.range 16).map (fun r => k (keyIndex 16 r)) :=
  ⟨rfl, rfl, rfl⟩

example : (List.range 32).map (keyIndex 8) =
    [0, 1, 2, 3, 4, 5, 6, 7, 7, 6, 5, 4, 3, 2, 1, 0,
      7, 6, 5, 4, 3, 2, 1, 0, 7, 6, 5, 4, 3, 2, 1, 0] :=
  rfl

theorem rounds_eq_standard (s : Substitution) (k : Nat → Word) (h : Halves) :
    let words := (List.range 8).map k
    let standard turn := afterRounds (standardMix s) (fun r => k (keyIndex turn r)) h
    rounds (mix s.byteTables) (forward words) h = standard 24 32 ∧
      rounds (mix s.byteTables) (backward words) h = standard 8 32 ∧
      rounds (mix s.byteTables) (half words) h = standard 16 16 := by
  intro words standard
  obtain ⟨hforward, hbackward, hhalf⟩ := schedules_eq k
  rw [mix_eq_standardMix, hforward, hbackward, hhalf, rounds_range, rounds_range, rounds_range]
  exact ⟨rfl, rfl, rfl⟩

/-! ## 5. Both ciphers -/

theorem gost89_eq_standard (key : Key) (params : ParamSet) (b : Bytes 8) :
    let c := Cipher.gost89OfKey key params
    let k i := Word.ofLittleEndian (Bytes.quarter key i)
    let standard turn := afterRounds (standardMix params.substitution)
      (fun r => k (keyIndex turn r)) (Gost89.split b)
    c.encrypt b = Gost89.join (standard 24 32) ∧
      c.decrypt b = Gost89.join (standard 8 32) ∧
      c.imitationRounds b = Gost89.joinStraight (standard 16 16) := by
  obtain ⟨hforward, hbackward, hhalf⟩ := rounds_eq_standard params.substitution
    (fun i => Word.ofLittleEndian (Bytes.quarter key i)) (Gost89.split b)
  rw [← ParamSet.tables_eq] at hforward hbackward hhalf
  exact ⟨congrArg Gost89.join hforward, congrArg Gost89.join hbackward,
    congrArg Gost89.joinStraight hhalf⟩

theorem magma_eq_standard (key : Key) (b : Bytes 8) :
    let c := Cipher.ofKey .magma key
    let k i := Word.ofBigEndian (Bytes.quarter key i)
    let standard turn := afterRounds (standardMix Substitution.tc26Z)
      (fun r => k (keyIndex turn r)) (Magma.split b)
    c.encrypt b = Magma.join (standard 24 32) ∧ c.decrypt b = Magma.join (standard 8 32) := by
  obtain ⟨hforward, hbackward, -⟩ := rounds_eq_standard Substitution.tc26Z
    (fun i => Word.ofBigEndian (Bytes.quarter key i)) (Magma.split b)
  exact ⟨congrArg Magma.join hforward, congrArg Magma.join hbackward⟩

/-- **The network over merged tables is the network of the standard.** Row `i` replaces nibble `i`
and nothing else happens to a word but the turn, whatever the rows are, and the tables of each
published set are those of its rows. Encryption goes three times forward and once backward through
the eight key words, decryption once forward and three times backward, in 32 rounds; the imitation
code goes twice forward, in sixteen. The two ciphers are this network between their ways to read and
to write words. -/
theorem follows_standard :
    (∀ (s : Substitution) (x : Word) (i : Fin 8),
      nibble (substitute s.byteTables x).toBitVec i = (s.get i).entry (nibble x.toBitVec i)) ∧
    (∀ (s : Substitution) (a k : Word), mix s.byteTables a k = standardMix s a k) ∧
    (∀ params : ParamSet, params.tables = params.substitution.byteTables) ∧
    (∀ (s : Substitution) (k : Nat → Word) (h : Halves),
      let words := (List.range 8).map k
      let standard turn := afterRounds (standardMix s) (fun r => k (keyIndex turn r)) h
      rounds (mix s.byteTables) (forward words) h = standard 24 32 ∧
        rounds (mix s.byteTables) (backward words) h = standard 8 32 ∧
        rounds (mix s.byteTables) (half words) h = standard 16 16) ∧
    (∀ (key : Key) (params : ParamSet) (b : Bytes 8),
      let c := Cipher.gost89OfKey key params
      let k i := Word.ofLittleEndian (Bytes.quarter key i)
      let standard turn := afterRounds (standardMix params.substitution)
        (fun r => k (keyIndex turn r)) (Gost89.split b)
      c.encrypt b = Gost89.join (standard 24 32) ∧
        c.decrypt b = Gost89.join (standard 8 32) ∧
        c.imitationRounds b = Gost89.joinStraight (standard 16 16)) ∧
    (∀ (key : Key) (b : Bytes 8),
      let c := Cipher.ofKey .magma key
      let k i := Word.ofBigEndian (Bytes.quarter key i)
      let standard turn := afterRounds (standardMix Substitution.tc26Z)
        (fun r => k (keyIndex turn r)) (Magma.split b)
      c.encrypt b = Magma.join (standard 24 32) ∧ c.decrypt b = Magma.join (standard 8 32)) := by
  refine ⟨fun s x i => ?_, fun s a k => ?_, ParamSet.tables_eq, rounds_eq_standard,
    gost89_eq_standard, magma_eq_standard⟩
  · rw [toBitVec_substitute, nibble_ofNibbles]
  · rw [mix_eq_standardMix]

end Network

end GostSuite

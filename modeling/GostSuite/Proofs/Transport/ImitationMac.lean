import GostSuite.Proofs.Cipher.Standard
import GostSuite.Proofs.Mac.Changed
import GostSuite.Transport.ImitationMac

/-!
# The imitation code of a message

What an imitation code covers is the message and zeros behind it. The chain takes blocks as they
come and learns only at the end that there was one of them, and then it takes a block of zeros. Read
from the outside this is no exception: the message is filled with zeros up to its last block or up
to sixteen bytes, whichever is longer, and then there is a plain chain over what comes out
(`chain_eq_cbc`). An empty message is the exception. It has no blocks, is not filled, and its code
is zero whatever the key is.

Zeros at the end of a message can therefore not be told from filling. That is as much as gets lost:
a step of the chain is sixteen rounds of a network, and no rounds lose anything, although the halves
are written back without the exchange that makes them a cipher (`Cipher.imitationRounds_bijective`).
-/

set_option autoImplicit false

namespace GostSuite

/-! ## 1. One step of the chain -/

namespace Cipher

/-- Halves that are written as they stand are exchanged twice. -/
theorem imitationRounds_gost89 (words : List Word) (params : ParamSet) (b : Bytes 8) :
    (Cipher.gost89 words params).imitationRounds b =
      Gost89.layout.join
        (Network.rounds (Network.mix params.tables) (Network.half words)
          (Gost89.layout.split b)).swap := rfl

theorem imitationRounds_bijective (c : Cipher .gost89) : Function.Bijective c.imitationRounds := by
  cases c with
  | gost89 words params =>
    have hrounds := Network.rounds_bijective (Network.mix params.tables) (Network.half words)
    rw [funext (imitationRounds_gost89 words params)]
    exact Gost89.layout.join_bijective.comp
      (Prod.swap_bijective.comp (hrounds.comp Gost89.layout.split_bijective))

end Cipher

namespace ImitationMac

def step (c : Cipher .gost89) (state block : Bytes 8) : Bytes 8 :=
  c.imitationRounds (state ^^^ block)

theorem step_bijective (c : Cipher .gost89) (b : Bytes 8) :
    Function.Bijective (fun state => step c state b) ∧ Function.Bijective (step c b) :=
  ⟨c.imitationRounds_bijective.comp (Bytes.xor_right_bijective b),
    c.imitationRounds_bijective.comp (Bytes.xor_left_bijective b)⟩

/-! ## 2. Filled messages -/

/-- The length that a message is filled up to: complete blocks, two of them at least. -/
def filledLen (data : ByteString) : Nat := max 16 ((data.length + 7) / 8 * 8)

def filled (data : ByteString) : ByteString :=
  data ++ List.replicate (filledLen data - data.length) 0

/-- The chain from zero over blocks. -/
def cbc (c : Cipher .gost89) (blocks : List (Bytes 8)) : Bytes 8 :=
  blocks.foldl (step c) (.zero 8)

theorem length_filled (data : ByteString) : (filled data).length = filledLen data := by
  rw [filled, List.length_append, List.length_replicate, filledLen]
  omega

theorem filledLen_eq (data : ByteString) :
    filledLen data = max 2 ((data.length + 7) / 8) * 8 := by
  rw [filledLen]
  omega

theorem filled_blocks (data : ByteString) :
    (filled data).blocks 8 =
      ((List.range (max 2 ((data.length + 7) / 8))).map (Chain.blockAt 8 data), []) := by
  have hlen := (length_filled data).trans (filledLen_eq data)
  have hrest : (filled data).drop ((filled data).length / 8 * 8) = [] :=
    List.drop_eq_nil_of_le (by omega)
  have hblock : Chain.blockAt 8 (filled data) = Chain.blockAt 8 data :=
    funext (Chain.blockAt_append_zeros data _)
  rw [Chain.blocks_eq (by decide), hrest, hblock, hlen, Nat.mul_div_cancel _ (by decide)]

/-- A message that is not empty is chained as it is filled. -/
theorem chainBlocks_eq {data : ByteString} (hdata : data ≠ []) :
    chainBlocks data = ((filled data).blocks 8).1 := by
  have hpos : 0 < data.length := List.length_pos_iff.mpr hdata
  have hpadded := Chain.paddedBlocks_eq_map (n := 8) (by decide) data
  have hcount : 1 ≤ (data.length + (8 - 1)) / 8 := by omega
  rw [filled_blocks, chainBlocks, hpadded]
  change _ = (List.range (max 2 ((data.length + (8 - 1)) / 8))).map (Chain.blockAt 8 data)
  generalize hm : (data.length + (8 - 1)) / 8 = count at hcount
  match count with
  | 1 =>
    have hzero : Chain.blockAt 8 data 1 = .zero 8 := by
      rw [Chain.blockAt, List.drop_eq_nil_of_le (by omega)]
      rfl
    rw [← hzero]
    rfl
  | more + 2 =>
    rw [Nat.max_eq_right (by omega), List.range_succ_eq_map, List.range_succ_eq_map]
    rfl

theorem chain_eq_cbc (c : Cipher .gost89) {data : ByteString} (hdata : data ≠ []) :
    chain c (.zero 8) data = cbc c ((filled data).blocks 8).1 := by
  rw [chain, chainBlocks_eq hdata]
  rfl

/-- Zeros that stay within the filling change nothing. -/
theorem filled_append_zeros {data : ByteString} {count : Nat}
    (h : data.length + count ≤ filledLen data) :
    filled (data ++ List.replicate count 0) = filled data := by
  have hsame : filledLen (data ++ List.replicate count 0) = filledLen data := by
    rw [filledLen, filledLen] at *
    rw [List.length_append, List.length_replicate]
    omega
  rw [filled, hsame, List.append_assoc, List.replicate_append_replicate, List.length_append,
    List.length_replicate, filled]
  congr 2
  omega

/-! ## 3. Changed messages -/

theorem cbc_eq_states (c : Cipher .gost89) (data : ByteString) (count : Nat) :
    cbc c ((List.range count).map (Chain.blockAt 8 data)) =
      Chain.states (fun _ => c.imitationRounds) (.zero 8) data count := by
  induction count with
  | zero => rfl
  | succ count ih =>
    rw [cbc] at ih
    rw [cbc, List.range_succ, List.map_append, List.foldl_append, ih]
    rfl

theorem cbc_ne (c : Cipher .gost89) {i : Nat} {s t : ByteString} (hlen : s.length = t.length)
    (h : ByteString.AgreeOutside 8 i s t) (hne : s ≠ t) :
    cbc c ((filled s).blocks 8).1 ≠ cbc c ((filled t).blocks 8).1 := by
  have hlast := Chain.le_last_of_ne (by decide) hlen h hne
  have hi : i < max 2 ((s.length + 7) / 8) := by
    rw [Chain.blockCount] at hlast
    omega
  rw [filled_blocks, filled_blocks, ← hlen, cbc_eq_states, cbc_eq_states]
  exact Chain.states_ne_of_lt (by decide) (fun _ => c.imitationRounds_bijective.injective) hlen h
    hne hi

/-! ## 4. The law -/

theorem compute_eq (c : Cipher .gost89) (data : ByteString) {len : Nat} (hlen : 1 ≤ len ∧ len ≤ 8) :
    compute c data len = .ok (.ofBlock (chain c (.zero 8) data) len) := by
  have hbounds : Bounds.macLen .gost89 len = .ok () := if_pos hlen
  rw [compute, hbounds]
  rfl

theorem compute_refused (c : Cipher .gost89) (data : ByteString) {len : Nat}
    (hlen : ¬(1 ≤ len ∧ len ≤ 8)) : compute c data len = .error (.invalidMacSize len 8) := by
  have hbounds : Bounds.macLen .gost89 len = .error (.invalidMacSize len 8) := if_neg hlen
  rw [compute, hbounds]
  rfl

theorem compute_nil (c : Cipher .gost89) {len : Nat} (hlen : 1 ≤ len ∧ len ≤ 8) :
    compute c [] len = .ok ⟨List.replicate len 0⟩ := by
  have hchain : chain c (.zero 8) [] = .zero 8 := by
    rw [chain, chainBlocks, ByteString.paddedBlocks_nil (by decide)]
    rfl
  rw [compute_eq c [] hlen, hchain, Tag.ofBlock, Bytes.toList_zero, List.take_replicate,
    Nat.min_eq_left hlen.2]

theorem compute_of_ne_nil (c : Cipher .gost89) {data : ByteString} {len : Nat} (hdata : data ≠ [])
    (hlen : 1 ≤ len ∧ len ≤ 8) :
    compute c data len = .ok ⟨(cbc c ((filled data).blocks 8).1).toList.take len⟩ := by
  rw [compute_eq c data hlen, chain_eq_cbc c hdata]
  rfl

theorem compute_append_zeros (c : Cipher .gost89) {data : ByteString} (len : Nat) {count : Nat}
    (hdata : data ≠ []) (hcount : data.length + count ≤ filledLen data) :
    compute c (data ++ List.replicate count 0) len = compute c data len := by
  by_cases hlen : 1 ≤ len ∧ len ≤ 8
  · have hlonger : data ++ List.replicate count 0 ≠ [] := List.append_ne_nil_of_left_ne_nil hdata _
    rw [compute_of_ne_nil c hlonger hlen, filled_append_zeros hcount,
      compute_of_ne_nil c hdata hlen]
  · rw [compute_refused c _ hlen, compute_refused c _ hlen]

theorem compute_ne (c : Cipher .gost89) {i : Nat} {s t : ByteString} (hlen : s.length = t.length)
    (h : ByteString.AgreeOutside 8 i s t) (hne : s ≠ t) :
    ∃ tag tag' : Tag, compute c s 8 = .ok tag ∧ compute c t 8 = .ok tag' ∧ tag ≠ tag' := by
  have hs : s ≠ [] := by
    rintro rfl
    exact hne (List.eq_nil_of_length_eq_zero hlen.symm).symm
  have ht : t ≠ [] := by
    rintro rfl
    exact hs (List.eq_nil_of_length_eq_zero hlen)
  refine ⟨_, _, compute_eq c s (by decide), compute_eq c t (by decide), fun hsame => ?_⟩
  rw [Tag.ofBlock_whole, Tag.ofBlock_whole, Tag.mk.injEq, chain_eq_cbc c hs, chain_eq_cbc c ht]
    at hsame
  exact cbc_ne c hlen h hne (Bytes.ext hsame)

/-- **The law of imitation codes**, for every cipher that can compute them. A size that is not in
its bounds is refused. The code of nothing is zero, and that of anything else is the first bytes of
the plain chain over the filled message; filling ends at a complete block and is the least that
makes two of them, so zeros that stay within it change nothing. A step of the chain, which goes
through the sixteen rounds of the standard, takes states to states one to one, and blocks to states
too. Therefore messages that differ in one block have different codes. -/
theorem imitation_law (c : Cipher .gost89) :
    (∀ data len, ¬(1 ≤ len ∧ len ≤ 8) → compute c data len = .error (.invalidMacSize len 8)) ∧
    (∀ len, 1 ≤ len ∧ len ≤ 8 → compute c [] len = .ok ⟨List.replicate len 0⟩) ∧
    (∀ data len, data ≠ [] → 1 ≤ len ∧ len ≤ 8 →
      (filled data).length = max 16 ((data.length + 7) / 8 * 8) ∧
        ((filled data).blocks 8).2 = [] ∧
        compute c data len = .ok ⟨(cbc c ((filled data).blocks 8).1).toList.take len⟩) ∧
    (∀ data len count, data ≠ [] → data.length + count ≤ filledLen data →
      compute c (data ++ List.replicate count 0) len = compute c data len) ∧
    (∀ block, Function.Bijective fun state => step c state block) ∧
    (∀ state, Function.Bijective fun block => step c state block) ∧
    (∀ (i : Nat) (s t : ByteString), s.length = t.length → ByteString.AgreeOutside 8 i s t → s ≠ t →
      ∃ tag tag' : Tag, compute c s 8 = .ok tag ∧ compute c t 8 = .ok tag' ∧ tag ≠ tag') ∧
    (∀ (key : Key) (params : ParamSet), c = .gost89OfKey key params → ∀ state block,
      let k r := Word.ofLittleEndian (Bytes.quarter key (r % 8))
      step c state block = Gost89.joinStraight
        (Network.afterRounds (Network.standardMix params.substitution) k
          (Gost89.split (state ^^^ block)) 16)) := by
  refine ⟨fun data len hlen => compute_refused c data hlen, fun len hlen => compute_nil c hlen,
    fun data len hdata hlen => ⟨length_filled data, ?_, compute_of_ne_nil c hdata hlen⟩,
    fun data len count hdata hcount => compute_append_zeros c len hdata hcount,
    fun block => (step_bijective c block).1, fun state => (step_bijective c state).2,
    fun i s t hlen h hne => compute_ne c hlen h hne, fun key params hkey state block => ?_⟩
  · rw [filled_blocks]
  · intro k
    have hrounds := (Network.gost89_eq_standard key params (state ^^^ block)).2.2
    rw [hkey, step, hrounds]
    rfl

/-- Three bytes make two blocks, the second one of zeros only. -/
theorem imitation_law_three_bytes :
    let c := Cipher.gost89OfKey (.zero 32) .cryptoProA
    compute c [1, 2, 3] 9 = .error (.invalidMacSize 9 8) ∧
      compute c [] 4 = .ok ⟨[0, 0, 0, 0]⟩ ∧
      compute c [1, 2, 3] 4 =
        .ok ⟨(cbc c [⟨[1, 2, 3, 0, 0, 0, 0, 0], rfl⟩, .zero 8]).toList.take 4⟩ ∧
      compute c ([1, 2, 3] ++ List.replicate 13 0) 4 = compute c [1, 2, 3] 4 ∧
      (∃ tag tag' : Tag,
        compute c [1, 2, 3] 8 = .ok tag ∧ compute c [1, 7, 3] 8 = .ok tag' ∧ tag ≠ tag') ∧
      step c (.zero 8) (.zero 8) = Gost89.joinStraight
        (Network.afterRounds (Network.standardMix Substitution.cryptoProA)
          (fun r => Word.ofLittleEndian (Bytes.quarter (.zero 32 : Key) (r % 8)))
          (Gost89.split (.zero 8 ^^^ .zero 8)) 16) := by
  intro c
  obtain ⟨hsize, hnil, hcode, hzeros, -, -, hchanged, hrounds⟩ := imitation_law c
  have hagree : ByteString.AgreeOutside 8 0 [1, 2, 3] [1, 7, 3] := by
    intro p hp
    have hp8 : 8 ≤ p := by omega
    rw [List.getElem?_eq_none (Nat.le_trans (by decide) hp8),
      List.getElem?_eq_none (Nat.le_trans (by decide) hp8)]
  have hblocks : ((filled [1, 2, 3]).blocks 8).1 =
      [⟨[1, 2, 3, 0, 0, 0, 0, 0], rfl⟩, .zero 8] := by
    rw [filled_blocks]
    rfl
  have hthree := (hcode [1, 2, 3] 4 (by decide) (by decide)).2.2
  rw [hblocks] at hthree
  exact ⟨hsize _ 9 (by decide), hnil 4 (by decide), hthree,
    hzeros [1, 2, 3] 4 13 (by decide) (by decide),
    hchanged 0 [1, 2, 3] [1, 7, 3] rfl hagree (by decide),
    hrounds (.zero 32) .cryptoProA rfl (.zero 8) (.zero 8)⟩

end ImitationMac

end GostSuite

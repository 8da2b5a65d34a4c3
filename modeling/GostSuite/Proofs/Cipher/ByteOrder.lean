import GostSuite.Proofs.Bytes.Cutting
import GostSuite.Proofs.Cipher.Permutation

/-!
# One network in two byte orders

Magma and Gost89 run the same network, and with the same table they are the same cipher to somebody
who writes bytes the other way round. A block has to be read from its end to its start. A key must
not: its words keep their order, and only the bytes of each word change places.

What is behind this is a fact about layouts, for any tables and any schedule: the halves of a block
under the one layout are those of the reversed block under the other, and they are written as the
reversed block (`Magma.across_eq`). Two differences cancel here. The one cipher is big-endian and
has its first half first, the other one is little-endian and has it last.
-/

set_option autoImplicit false

namespace GostSuite

/-! ## 1. Reversed blocks and reversed words -/

namespace Bytes

variable {n : Nat}

/-- The bytes from the last one to the first. -/
def reverse (b : Bytes n) : Bytes n := ⟨b.toList.reverse, by simp⟩

theorem quarters_reverse (b : Bytes 8) :
    b.reverse.quarter 0 = (b.quarter 1).reverse ∧ b.reverse.quarter 1 = (b.quarter 0).reverse := by
  obtain ⟨h0, h1⟩ := b.length_quarter
  have hreverse : b.reverse.toList = (b.quarter 1).reverse ++ (b.quarter 0).reverse := by
    rw [← List.reverse_append, b.quarters_append]
    rfl
  have hlen : ((b.quarter 1).reverse ++ (b.quarter 0).reverse).length = 8 := by
    rw [← hreverse, length_toList]
  have hb : b.reverse = ⟨(b.quarter 1).reverse ++ (b.quarter 0).reverse, hlen⟩ := ext hreverse
  rw [hb]
  exact quarter_append (by rw [List.length_reverse, h1]) (by rw [List.length_reverse, h0]) hlen

end Bytes

namespace Key

/-- The key with the four bytes of each of its words reversed. -/
def reverseWords (key : Key) : Key :=
  ⟨ByteString.join ((key.toList.blocks 4).1.map Bytes.reverse), by
    rw [ByteString.length_join, List.length_map, ByteString.length_blocks_fst (by decide),
      key.length_toList]⟩

theorem quarter_of_join {key : Key} {words : List (Bytes 4)}
    (hkey : key.toList = ByteString.join words) {i : Nat} (hi : i < words.length) :
    Bytes.quarter key i = words[i].toList := by
  rw [Bytes.quarter, hkey, Nat.mul_comm, ByteString.take_drop_join hi]

theorem quarter_reverseWords (key : Key) {i : Nat} (hi : i < 8) :
    Bytes.quarter key.reverseWords i = (Bytes.quarter key i).reverse := by
  have hrest : (key.toList.blocks 4).2 = [] := by
    apply List.eq_nil_of_length_eq_zero
    rw [ByteString.length_blocks_snd (by decide), key.length_toList]
  have hkey := ByteString.join_blocks (n := 4) (by decide) key.toList
  rw [hrest, List.append_nil] at hkey
  have hcount : i < (key.toList.blocks 4).1.length := by
    rwa [ByteString.length_blocks_fst (by decide), key.length_toList]
  have hcount' : i < ((key.toList.blocks 4).1.map Bytes.reverse).length := by
    rwa [List.length_map]
  have hreversed : key.reverseWords.toList =
      ByteString.join ((key.toList.blocks 4).1.map Bytes.reverse) := rfl
  rw [quarter_of_join hkey.symm hcount, quarter_of_join hreversed hcount', List.getElem_map]
  rfl

end Key

/-! ## 2. The other layout -/

theorem Word.ofLittleEndian_reverse (s : ByteString) :
    Word.ofLittleEndian s.reverse = Word.ofBigEndian s := by
  rw [ofLittleEndian, List.reverse_reverse]

namespace Magma

theorem words_eq (key : Key) : words key = Gost89.words key.reverseWords := by
  unfold words Gost89.words Key.words
  refine List.map_congr_left fun i hi => ?_
  rw [Key.quarter_reverseWords key (List.mem_range.mp hi), Word.ofLittleEndian_reverse]

theorem split_eq (b : Bytes 8) : split b = Gost89.split b.reverse := by
  obtain ⟨h0, h1⟩ := b.quarters_reverse
  rw [split, Gost89.split, h0, h1, Word.ofLittleEndian_reverse, Word.ofLittleEndian_reverse]

theorem join_eq (h : Network.Halves) : join h = (Gost89.join h).reverse := by
  apply Bytes.ext
  change h.2.bigEndian ++ h.1.bigEndian = (h.1.littleEndian ++ h.2.littleEndian).reverse
  rw [List.reverse_append, Word.littleEndian, Word.littleEndian, List.reverse_reverse,
    List.reverse_reverse]

/-- A block through any rounds is the reversed block through the same rounds, reversed. -/
theorem across_eq (tables : ByteTables) (schedule : List Word) (b : Bytes 8) :
    layout.across tables schedule b = (Gost89.layout.across tables schedule b.reverse).reverse := by
  change join (Network.rounds _ schedule (split b)) =
    (Gost89.join (Network.rounds _ schedule (Gost89.split b.reverse))).reverse
  rw [join_eq, split_eq]

end Magma

/-- **Magma is Gost89 under the set of TC26, read backwards**: the blocks are reversed, and so is
every word of the key. -/
theorem Cipher.magma_eq_gost89_reversed (key : Key) (b : Bytes 8) :
    let magma := Cipher.ofKey .magma key
    let gost89 := Cipher.gost89OfKey key.reverseWords .tc26Z
    magma.encrypt b = (gost89.encrypt b.reverse).reverse ∧
      magma.decrypt b = (gost89.decrypt b.reverse).reverse := by
  intro magma gost89
  have hkey : magma = .magma (Gost89.words key.reverseWords) :=
    congrArg Cipher.magma (Magma.words_eq key)
  rw [hkey]
  exact ⟨Magma.across_eq ParamSet.tc26Z.tables (Network.forward _) b,
    Magma.across_eq ParamSet.tc26Z.tables (Network.backward _) b⟩

end GostSuite

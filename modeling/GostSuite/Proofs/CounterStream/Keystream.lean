import GostSuite.CounterStream
import GostSuite.Proofs.Bytes.Counting
import GostSuite.Proofs.Bytes.Cutting
import GostSuite.Proofs.Bytes.Masking

/-!
# The keystream, byte by number

What a counter stream promises can be said without a stream. Byte `j` of the keystream is a byte of
one encrypted block: the counter is the initial one plus the number of the block, and the key is the
one that the key of the stream has become after `j / sectionLen` sections. `keystreamByte` says just
that; it knows neither calls nor positions nor how much a key has already made.

Nor does it know that a key can be replaced. A stream gives its cipher a new key in place, and would
go on just as well with one that had kept the old key, or half of it. Here every section has a
cipher that is made of its key alone, from what a cipher is without a key (`Cipher.Unkeyed`), and
`Cipher.rekey_eq` is where the two meet. So the sections of a keyed stream are a row of keys
(`sectionKey`).

## What has to be carried along

A context knows how many bytes its key has made and not how many keys it has used. So the invariant
(`Stands`) speaks of the number of blocks made, which a context does not store, and everything
stored is a function of it. The one delicate field is `generated`: it starts over with every key, so
it is the number of blocks minus those of the sections before, and the comparison with the section
length is a division done by counting (`sectionOf_succ`).
-/

set_option autoImplicit false

namespace GostSuite

namespace Algorithm

/-- Masking with a block length less one is a remainder, since block lengths are powers of two. -/
theorem and_mask (a : Algorithm) (k : Nat) : k &&& (a.blockLen - 1) = k % a.blockLen := by
  cases a with
  | magma => exact Nat.and_two_pow_sub_one_eq_mod k 3
  | kuznyechik => exact Nat.and_two_pow_sub_one_eq_mod k 4
  | gost89 => exact Nat.and_two_pow_sub_one_eq_mod k 3

end Algorithm

/-! ## 1. Keys -/

namespace Cipher

/-- What there is of a cipher before its key: the algorithm, and the parameter set of Gost89. -/
inductive Unkeyed : Algorithm → Type where
  | magma : Unkeyed .magma
  | kuznyechik : Unkeyed .kuznyechik
  | gost89 (params : ParamSet) : Unkeyed .gost89

variable {a : Algorithm}

def Unkeyed.withKey : Unkeyed a → Key → Cipher a
  | .magma, key => ofKey .magma key
  | .kuznyechik, key => ofKey .kuznyechik key
  | .gost89 params, key => gost89OfKey key params

def unkeyed : Cipher a → Unkeyed a
  | .magma _ => .magma
  | .kuznyechik _ => .kuznyechik
  | .gost89 _ params => .gost89 params

theorem unkeyed_withKey (u : Unkeyed a) (key : Key) : (u.withKey key).unkeyed = u := by
  cases u with
  | magma => rfl
  | kuznyechik => rfl
  | gost89 params => rfl

/-- Replacing the key in place leaves nothing of the old one: it is making the cipher anew. -/
theorem rekey_eq (c : Cipher a) (key : Key) : c.rekey key = c.unkeyed.withKey key := by
  cases c with
  | magma words => rfl
  | kuznyechik roundKeys => rfl
  | gost89 words params => rfl

end Cipher

namespace CounterStream

variable {a : Algorithm}

/-- Block `i` of the string `80 81 … 9f`. -/
def constantBlock (a : Algorithm) (i : Nat) : Block a :=
  ⟨(List.range a.blockLen).map fun k => UInt8.ofNat (0x80 + (a.blockLen * i + k)), by simp⟩

/-- The key that a cipher leaves to the next section: the blocks of `80 81 … 9f`, encrypted. -/
def derivedKey (c : Cipher a) : Key :=
  ⟨(List.range (32 / a.blockLen)).flatMap fun i => (c.encrypt (constantBlock a i)).toList, by
    have hlen : 32 / a.blockLen * a.blockLen = 32 := by cases a <;> rfl
    simp [List.length_flatMap, List.map_const', hlen]⟩

/-- The cipher of section `m`, the given one being that of section zero. -/
def sectionCipher (c : Cipher a) : Nat → Cipher a
  | 0 => c
  | m + 1 => c.unkeyed.withKey (derivedKey (sectionCipher c m))

/-- The key of section `m`, the given one being that of section zero. -/
def sectionKey (u : Cipher.Unkeyed a) (key : Key) : Nat → Key
  | 0 => key
  | m + 1 => derivedKey (u.withKey (sectionKey u key m))

/-- Every section has a key of its own, and the rest of the cipher from the beginning. -/
theorem sectionCipher_withKey (u : Cipher.Unkeyed a) (key : Key) (m : Nat) :
    sectionCipher (u.withKey key) m = u.withKey (sectionKey u key m) := by
  induction m with
  | zero => rfl
  | succ m ih => rw [sectionCipher, ih, Cipher.unkeyed_withKey, sectionKey]

theorem unkeyed_sectionCipher (c : Cipher a) (m : Nat) : (sectionCipher c m).unkeyed = c.unkeyed := by
  cases m with
  | zero => rfl
  | succ m => exact Cipher.unkeyed_withKey ..

/-- Meshing encrypts the constant as it is cut, and the cut has these blocks. -/
theorem blocks_meshingConstant (a : Algorithm) :
    (meshingConstant.blocks a.blockLen).1 =
      (List.range (32 / a.blockLen)).map (constantBlock a) := by
  cases a with
  | magma | gost89 =>
    rw [ByteString.blocks_of_le (by decide) (by decide),
      ByteString.blocks_of_le (by decide) (by decide),
      ByteString.blocks_of_le (by decide) (by decide),
      ByteString.blocks_of_length_eq (by decide) (by decide)]
    decide
  | kuznyechik =>
    rw [ByteString.blocks_of_le (by decide) (by decide),
      ByteString.blocks_of_length_eq (by decide) (by decide)]
    decide

theorem nextKey_eq (c : Cipher a) : c.nextKey = derivedKey c := by
  have hjoin : ByteString.join ((meshingConstant.blocks a.blockLen).1.map c.encrypt) =
      (derivedKey c).toList := by
    rw [blocks_meshingConstant, ByteString.join, List.map_map, List.flatMap_map]
    rfl
  rw [Cipher.nextKey, hjoin, Bytes.padded_toList]

theorem mesh_sectionCipher (c : Cipher a) (m : Nat) :
    (sectionCipher c m).mesh = sectionCipher c (m + 1) := by
  rw [Cipher.mesh, Cipher.rekey_eq, unkeyed_sectionCipher, nextKey_eq, sectionCipher]

/-! ## 2. The keystream of a key, an initial value and a section length -/

/-- Byte `j` of a keystream: byte `j % n` of the encrypted counter of block `j / n`, by the cipher of
section `j / sectionLen`. A section length of zero means one section that does not end. -/
def sectionedByte (ciphers : Nat → Cipher a) (iv : ByteString) (sectionLen j : Nat) : UInt8 :=
  let c := ciphers (if sectionLen = 0 then 0 else j / sectionLen)
  (c.encrypt ((Bytes.padded a.blockLen iv).plus (j / a.blockLen))).toList.getD (j % a.blockLen) 0

def keystreamByte (c : Cipher a) : (iv : ByteString) → (sectionLen j : Nat) → UInt8 :=
  sectionedByte (sectionCipher c)

/-- The keystream of a key, by the keys of its sections. -/
def keystreamOfKey (u : Cipher.Unkeyed a) (key : Key) :
    (iv : ByteString) → (sectionLen j : Nat) → UInt8 :=
  sectionedByte fun m => u.withKey (sectionKey u key m)

theorem keystreamByte_withKey (u : Cipher.Unkeyed a) (key : Key) :
    keystreamByte (u.withKey key) = keystreamOfKey u key := by
  unfold keystreamByte keystreamOfKey
  congr 1
  funext m
  exact sectionCipher_withKey u key m

/-- Block `i` of a keystream whose sections are `perSection` blocks long. -/
def keystreamBlock (c : Cipher a) (iv : ByteString) (perSection i : Nat) : Block a :=
  (sectionCipher c (i / perSection)).encrypt ((Bytes.padded a.blockLen iv).plus i)

/-- A key never changes inside a block, because a section is a whole number of blocks. -/
theorem keystreamByte_eq (c : Cipher a) (iv : ByteString) (perSection : Nat) :
    keystreamByte c iv (a.blockLen * perSection) = streamOf (keystreamBlock c iv perSection) := by
  funext j
  have hn : 0 < a.blockLen := a.blockLen_pos
  have hkey : (if a.blockLen * perSection = 0 then 0 else j / (a.blockLen * perSection)) =
      j / a.blockLen / perSection := by
    rw [Nat.div_div_eq_div_mul]
    split
    · rename_i hzero
      rw [hzero, Nat.div_zero]
    · rfl
  simp only [keystreamByte, sectionedByte, hkey, streamOf, keystreamBlock]

/-! ## 3. The invariant -/

/-- The section of the last of `made` blocks. -/
def sectionOf (perSection made : Nat) : Nat := (made - 1) / perSection

/-- The key of the present section has made at least one block, once a block has been made. -/
theorem sectionOf_le (perSection made : Nat) :
    perSection * sectionOf perSection made ≤ made - 1 := Nat.mul_div_le _ _

/-- A key that has made a section's worth of blocks has made the section to its end. -/
theorem made_eq_of_full {perSection made : Nat} (hpos : 0 < perSection)
    (hfull : perSection ≤ made - perSection * sectionOf perSection made) :
    made = perSection * (sectionOf perSection made + 1) := by
  have hlt : made - 1 < perSection * (sectionOf perSection made + 1) :=
    Nat.lt_mul_div_succ (made - 1) hpos
  rw [Nat.mul_succ] at hlt ⊢
  omega

/-- A section ends when its key has made `perSection` blocks, and not before. -/
theorem sectionOf_succ {perSection : Nat} (hpos : 0 < perSection) (made : Nat) :
    sectionOf perSection (made + 1) =
      if perSection ≤ made - perSection * sectionOf perSection made
      then sectionOf perSection made + 1 else sectionOf perSection made := by
  have hnext : sectionOf perSection (made + 1) = made / perSection := rfl
  have hle := sectionOf_le perSection made
  rw [hnext]
  split
  · rename_i hfull
    exact Nat.div_eq_of_eq_mul_right hpos (made_eq_of_full hpos hfull)
  · rename_i hshort
    refine Nat.div_eq_of_lt_le ?_ ?_
    · rw [Nat.mul_comm]
      omega
    · rw [Nat.mul_comm, Nat.mul_succ]
      omega

/-- The stream of a cipher and an initial value, after `made` blocks. How much of the last block has
been used is left open. -/
structure Stands (c : Cipher a) (iv : ByteString) (perSection made : Nat) (s : CounterStream a) :
    Prop where
  cipher : s.cipher = sectionCipher c (sectionOf perSection made)
  counter : s.counter = (Bytes.padded a.blockLen iv).plus made
  sectionLen : s.sectionLen = a.blockLen * perSection
  generated : s.generated = a.blockLen * (made - perSection * sectionOf perSection made)
  keystream : 0 < made → s.keystream = keystreamBlock c iv perSection (made - 1)

variable {c : Cipher a} {iv : ByteString} {perSection made : Nat} {s : CounterStream a}

theorem Stands.start (c : Cipher a) (iv : ByteString) (perSection : Nat) :
    Stands c iv perSection 0 (start c iv (a.blockLen * perSection)) where
  cipher := by simp [CounterStream.start, sectionOf, sectionCipher]
  counter := by simp [CounterStream.start]
  sectionLen := rfl
  generated := by simp [CounterStream.start]
  keystream h := absurd h (Nat.lt_irrefl 0)

theorem Stands.use (h : Stands c iv perSection made s) (count : Nat) :
    Stands c iv perSection made (s.use count) :=
  ⟨h.cipher, h.counter, h.sectionLen, h.generated, h.keystream⟩

/-- Meshing, if it is due, gives the key of the next block. -/
theorem Stands.meshIfDue (h : Stands c iv perSection made s) :
    s.meshIfDue.cipher = sectionCipher c (sectionOf perSection (made + 1)) ∧
      s.meshIfDue.generated =
        a.blockLen * (made - perSection * sectionOf perSection (made + 1)) ∧
      s.meshIfDue.counter = s.counter ∧ s.meshIfDue.sectionLen = s.sectionLen := by
  have hn : 0 < a.blockLen := a.blockLen_pos
  rcases Nat.eq_zero_or_pos perSection with rfl | hpos
  · -- without sections there is one key and one count
    have hnot : ¬(s.sectionLen ≠ 0 ∧ s.sectionLen ≤ s.generated) := by
      rw [h.sectionLen]
      simp
    have hkeep : s.meshIfDue = s := if_neg hnot
    rw [hkeep]
    refine ⟨?_, ?_, rfl, rfl⟩
    · simpa [sectionOf] using h.cipher
    · simpa [sectionOf] using h.generated
  · have hcond : (s.sectionLen ≠ 0 ∧ s.sectionLen ≤ s.generated) ↔
        perSection ≤ made - perSection * sectionOf perSection made := by
      rw [h.sectionLen, h.generated, Nat.mul_le_mul_left_iff hn]
      refine ⟨fun hc => hc.2, fun hc => ⟨?_, hc⟩⟩
      exact (Nat.mul_pos hn hpos).ne'
    have hsucc := sectionOf_succ hpos made
    by_cases hdue : perSection ≤ made - perSection * sectionOf perSection made
    · -- the section is full to the block, so the count that is kept is zero
      have hnext : sectionOf perSection (made + 1) = sectionOf perSection made + 1 := by
        rw [hsucc, if_pos hdue]
      have hmesh : s.meshIfDue = { s with
          cipher := s.cipher.mesh, generated := s.generated &&& (a.blockLen - 1) } :=
        if_pos (hcond.mpr hdue)
      rw [hmesh, hnext]
      refine ⟨?_, ?_, rfl, rfl⟩
      · change s.cipher.mesh = _
        rw [h.cipher, mesh_sectionCipher]
      · change s.generated &&& (a.blockLen - 1) = _
        rw [Algorithm.and_mask, h.generated, Nat.mul_mod_right, ← made_eq_of_full hpos hdue,
          Nat.sub_self, Nat.mul_zero]
    · have hsame : sectionOf perSection (made + 1) = sectionOf perSection made := by
        rw [hsucc, if_neg hdue]
      have hkeep : s.meshIfDue = s := if_neg fun hc => hdue (hcond.mp hc)
      rw [hkeep, hsame]
      exact ⟨h.cipher, h.generated, rfl, rfl⟩

/-- **One block more.** It is the block of its number, whatever bytes of it are used. -/
theorem Stands.openBlock (h : Stands c iv perSection made s) (count : Nat) :
    Stands c iv perSection (made + 1) (s.openBlock count) := by
  obtain ⟨hcipher, hgen, hcounter, hsection⟩ := h.meshIfDue
  have hle := sectionOf_le perSection (made + 1)
  refine ⟨hcipher, ?_, ?_, ?_, fun _ => ?_⟩
  · change s.meshIfDue.counter.increment = _
    rw [hcounter, h.counter, Bytes.increment_plus]
  · change s.meshIfDue.sectionLen = _
    rw [hsection, h.sectionLen]
  · change s.meshIfDue.generated + a.blockLen = _
    rw [hgen, ← Nat.mul_succ]
    congr 1
    omega
  · change s.meshIfDue.cipher.encrypt s.meshIfDue.counter = _
    rw [hcipher, hcounter, h.counter]
    rfl

end CounterStream

end GostSuite

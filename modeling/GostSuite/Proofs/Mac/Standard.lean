import GostSuite.Proofs.Field.Blocks
import GostSuite.Proofs.Mac.Plain

/-!
# The plain code and the standard

The standard has the whole message before it. It cuts the message into blocks, chains all of them but
the last, and whitens the last one with one of two subkeys: a message that ends with a complete block
takes the first, and any other, the empty one among them, is filled with `80 00 …` and takes the
second. The subkeys are the encrypted zero block times `x`, and that times `x` again. This is `cmac`,
and it is written with the words of the standard only: complete blocks and what is left, and products
in the field of the blocks.

A context does not have the message before it. It holds back a block that may be the last, and it
doubles a bit vector where the standard multiplies. That both come to the same rests on two facts that
have nothing to do with each other: which blocks have been released after any cut
(`Chain.leading_of_dvd`, `Chain.leading_of_not_dvd`), and that doubling is the product with `x`
(`Bytes.fieldX_fieldMul`).
-/

set_option autoImplicit false

namespace GostSuite

namespace Omac

variable {a : Algorithm}

/-! ## 1. The standard -/

/-- The chain over some blocks, from the zero block on. -/
def cbc (c : Cipher a) (blocks : List (Block a)) : Block a :=
  blocks.foldl (fun state block => c.encrypt (state ^^^ block)) (.zero a.blockLen)

/-- The subkey of messages that end with a complete block. -/
def firstSubkey (c : Cipher a) : Block a :=
  (Bytes.fieldX a.blockLen).fieldMul (c.encrypt (.zero a.blockLen))

/-- The subkey of all other messages. -/
def secondSubkey (c : Cipher a) : Block a := (Bytes.fieldX a.blockLen).fieldMul (firstSubkey c)

/-- The code of a message that is at hand, before it is cut. -/
def cmac (c : Cipher a) (message : ByteString) : Block a :=
  let whole := (message.blocks a.blockLen).1
  let rest := (message.blocks a.blockLen).2
  if 0 < message.length ∧ a.blockLen ∣ message.length then
    c.encrypt (cbc c whole.dropLast ^^^ (whole.getLastD (.zero a.blockLen) ^^^ firstSubkey c))
  else
    c.encrypt (cbc c whole ^^^ (.padded a.blockLen (rest ++ [0x80]) ^^^ secondSubkey c))

/-! ## 2. The code of a context -/

theorem whitening_ofCipher (c : Cipher a) :
    (MacKey.ofCipher c).whitening = firstSubkey c ∧
      (MacKey.ofCipher c).whitening.double = secondSubkey c := by
  have hfirst : (MacKey.ofCipher c).whitening = firstSubkey c :=
    (Bytes.fieldX_fieldMul _).symm
  exact ⟨hfirst, by rw [secondSubkey, Bytes.fieldX_fieldMul, hfirst]⟩

theorem chainState_eq_cbc (c : Cipher a) (message : ByteString) (i : Nat) :
    chainState c message i = cbc c ((List.range i).map (Chain.blockAt a.blockLen message)) := by
  induction i with
  | zero => rfl
  | succ i ih =>
    rw [chainState, ih, List.range_succ, List.map_append, cbc, cbc, List.foldl_append]
    rfl

/-- What a context computes from the bytes that it has held back is the code of the standard. -/
theorem wholeCode_eq_cmac (c : Cipher a) (message : ByteString) :
    wholeCode c message = cmac c message := by
  obtain ⟨hfirst, hsecond⟩ := whitening_ofCipher c
  have hchain : chainState c message (Chain.blockCount a.blockLen message - 1) =
      cbc c (Chain.leading a.blockLen message) := chainState_eq_cbc c message _
  rw [wholeCode, hchain, MeshedOmac.lastBlock, cmac]
  by_cases hends : 0 < message.length ∧ a.blockLen ∣ message.length
  · obtain ⟨hleading, hwhole, hlast⟩ := Chain.leading_of_dvd hends.1 hends.2
    rw [if_pos hends, if_pos hwhole, hleading, hlast, hfirst]
  · obtain ⟨hleading, hheld⟩ := Chain.leading_of_not_dvd a.blockLen_pos hends
    have hshort : ¬(Chain.held a.blockLen message).length = a.blockLen := by
      rw [hheld]
      exact Nat.ne_of_lt (ByteString.length_blocks_snd_lt a.blockLen_pos message)
    rw [if_neg hends, if_neg hshort, hleading, hheld, hsecond]

/-- **The plain code is the code of the standard.** A context over any cipher takes a code length of
one to a block and the pieces of a message, in whatever cut, empty pieces among them. All calls go
through, and the end gives the first bytes of the code that the standard has for the message. -/
theorem finish_eq_cmac (c : Cipher a) (size : Nat) (hsize : 1 ≤ size ∧ size ≤ a.blockLen)
    (pieces : List ByteString) :
    ∃ m, GoesThrough step (ofCipher c) (.setMacLen size :: pieces.map .update) [] m ∧
      m.finish.answer = .ok (.ofBlock (cmac c pieces.flatten) size) := by
  obtain ⟨m₁, hset, hfed⟩ := (Fed.ofCipher c).setMacLen hsize
  obtain ⟨m, hgo, hend⟩ := hfed.goesThrough_update pieces
  have hcall : step (ofCipher c) (.setMacLen size) = .done (m₁, []) none :=
    congrArg StepOutcome.ofUnit hset
  refine ⟨m, GoesThrough.cons hcall hgo, ?_⟩
  rw [hend.finish, wholeCode_eq_cmac]
  rfl

/-- A message of two complete blocks, cut inside the first one and followed by an empty piece, under
a parameter set that is not the default. -/
theorem finish_gost89_two_blocks :
    let c := Cipher.gost89OfKey (.zero 32) .tc26Z
    ∃ m, GoesThrough step (ofCipher c)
        [.setMacLen 4, .update [1, 2, 3], .update (List.replicate 13 4), .update []] [] m ∧
      m.finish.answer = .ok (.ofBlock (cmac c ([1, 2, 3] ++ List.replicate 13 4)) 4) :=
  finish_eq_cmac (Cipher.gost89OfKey (.zero 32) .tc26Z) 4 (by decide)
    [[1, 2, 3], List.replicate 13 4, []]

end Omac

end GostSuite

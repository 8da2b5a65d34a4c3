import GostSuite.Proofs.Mac.Changed

/-!
# Codes that tell messages apart

A whole code is made of two messages of one length, and the messages differ in bytes of one block
only. Then the codes differ. That is a law about codes as functions of messages (`wholeCode_ne`,
`codeUnder_ne`), and this file says it of the contexts: they are fed with pieces, the two messages
may be cut in any two ways, and what is compared is what the calls answer.

The law has to say that there are answers. A context that refused one of the messages would have no
two equal tags either. So `TellsApart` has two parts: every message in every cut gets a whole tag,
and tags of messages that may differ in one block are equal *if and only if* the messages are. That
the same message has the same tag in any two cuts is the other half of that `iff`.

Nothing is said of messages of different lengths, or of messages that differ in two blocks: there
the tags may meet.
-/

set_option autoImplicit false

namespace GostSuite

open ByteString

/-! ## 1. Tags of contexts -/

section Contexts

variable {σ κ : Type}

/-- The context takes the pieces of a message one by one, and then gives the tag. -/
def GivesTag (step : σ → κ → StepOutcome σ) (update : ByteString → κ) (finish : κ) (s : σ)
    (pieces : List ByteString) (tag : Tag) : Prop :=
  ∃ s', GoesThrough step s (pieces.map update) [] s' ∧ (step s' finish).answer = .ok (some tag)

variable {step : σ → κ → StepOutcome σ} {update : ByteString → κ} {finish : κ} {s : σ}
  {pieces : List ByteString} {tag tag' : Tag}

/-- Calls lead to one context, and one call has one answer. -/
theorem GivesTag.unique (h : GivesTag step update finish s pieces tag)
    (h' : GivesTag step update finish s pieces tag') : tag = tag' := by
  obtain ⟨s', hgo, htag⟩ := h
  obtain ⟨s'', hgo', htag'⟩ := h'
  obtain rfl : s' = s'' := hgo.final.symm.trans hgo'.final
  exact Option.some.inj (Except.ok.inj (htag.symm.trans htag'))

theorem givesTag_iff (h : GivesTag step update finish s pieces tag) :
    GivesTag step update finish s pieces tag' ↔ tag' = tag := by
  constructor
  · intro h'
    exact h'.unique h
  · rintro rfl
    exact h

end Contexts

/-! ## 2. Codes of the length of a block -/

/-- What gives tags of `n` bytes to messages in pieces tells messages apart that differ in one
block. -/
structure TellsApart (n : Nat) (Gives : List ByteString → Tag → Prop) : Prop where
  /-- Every message gets a whole tag, however it is cut. -/
  whole : ∀ pieces, ∃ tag, Gives pieces tag ∧ tag.bytes.length = n
  /-- Messages of one length with the same bytes outside of one block have the same tag if and only
  if they are the same message. -/
  apart : ∀ {i pieces pieces' tag tag'}, Gives pieces tag → Gives pieces' tag' →
    pieces.flatten.length = pieces'.flatten.length →
    AgreeOutside n i pieces.flatten pieces'.flatten →
      (tag = tag' ↔ pieces.flatten = pieces'.flatten)

variable {n : Nat}

theorem Tag.ofBlock_inj {block block' : Bytes n} :
    Tag.ofBlock block n = Tag.ofBlock block' n ↔ block = block' := by
  rw [Tag.ofBlock_whole, Tag.ofBlock_whole, Tag.mk.injEq]
  exact ⟨Bytes.ext, congrArg Bytes.toList⟩

/-- It is enough that the tag is a block that the message has, and that these blocks differ. -/
theorem TellsApart.of_code {Gives : List ByteString → Tag → Prop} (code : ByteString → Bytes n)
    (hgives : ∀ pieces tag, Gives pieces tag ↔ tag = .ofBlock (code pieces.flatten) n)
    (hne : ∀ {i s t}, s.length = t.length → AgreeOutside n i s t → s ≠ t → code s ≠ code t) :
    TellsApart n Gives where
  whole pieces := by
    refine ⟨_, (hgives pieces _).mpr rfl, ?_⟩
    rw [Tag.ofBlock_whole, Bytes.length_toList]
  apart := by
    intro i pieces pieces' tag tag' htag htag' hlen hagree
    rw [(hgives pieces tag).mp htag, (hgives pieces' tag').mp htag', Tag.ofBlock_inj]
    constructor
    · intro hcode
      by_contra hdiffer
      exact hne hlen hagree hdiffer hcode
    · intro hsame
      rw [hsame]

/-! ## 3. The two contexts -/

variable {a : Algorithm}

theorem Omac.Fed.givesTag {c : Cipher a} {size : Nat} {m : Omac a} (h : Fed c size [] m)
    (pieces : List ByteString) :
    GivesTag step .update .finish m pieces (.ofBlock (wholeCode c pieces.flatten) size) := by
  obtain ⟨m', hgo, hfed⟩ := h.goesThrough_update pieces
  refine ⟨m', hgo, ?_⟩
  rw [step, hfed.finish]
  rfl

theorem Omac.givesTag (c : Cipher a) (pieces : List ByteString) :
    GivesTag step .update .finish (ofCipher c) pieces
      (.ofBlock (wholeCode c pieces.flatten) a.blockLen) :=
  (Fed.ofCipher c).givesTag pieces

theorem Omac.tellsApart (c : Cipher a) :
    TellsApart a.blockLen (GivesTag step .update .finish (ofCipher c)) :=
  .of_code (wholeCode c) (fun pieces _ => givesTag_iff (givesTag c pieces)) (wholeCode_ne c)

variable {key : Key} {sectionLen masterSection : Nat} {m : MeshedOmac a}

theorem MeshedOmac.Fed.givesTag {size : Nat} (hlen : sectionLen ≠ 0)
    (hsection : sectionLen % a.blockLen = 0) (hmaster : masterSection % a.blockLen = 0)
    (h : Fed key sectionLen masterSection size [] m) (pieces : List ByteString) :
    GivesTag step .update .finish m pieces
      (.ofBlock (wholeCode a key sectionLen masterSection pieces.flatten) size) := by
  obtain ⟨m', hgo, hend⟩ := goesThrough_update h pieces
  have hfinish := hend.finish hlen hsection hmaster
  refine ⟨m', hgo, ?_⟩
  rw [step, StepOutcome.ofTag, hfinish]
  rfl

theorem MeshedOmac.givesTag (h : ofKey a key sectionLen masterSection = .ok m)
    (pieces : List ByteString) :
    GivesTag step .update .finish m pieces
      (.ofBlock (wholeCode a key sectionLen masterSection pieces.flatten) a.blockLen) := by
  obtain ⟨⟨hlen, hsection⟩, ⟨hmasterLen, hmaster⟩, -⟩ := ofKey_eq_ok_iff.mp h
  obtain ⟨m₀, hok, hfed⟩ := ofKey_ok a key hlen hsection hmasterLen hmaster
  obtain rfl : m = m₀ := Except.ok.inj (h.symm.trans hok)
  exact hfed.givesTag hlen hsection hmaster pieces

/-- Sections do not matter: both messages change keys in the same places, whatever is in them. -/
theorem MeshedOmac.tellsApart (h : ofKey a key sectionLen masterSection = .ok m) :
    TellsApart a.blockLen (GivesTag step .update .finish m) :=
  .of_code (wholeCode a key sectionLen masterSection)
    (fun pieces _ => givesTag_iff (givesTag h pieces)) codeUnder_ne

/-- **Whole codes tell messages apart.** Messages of one length that differ, and differ in one block
only, have different tags, however each of them is cut: under the plain code with any cipher, and
under the meshed code with any key and any two section lengths that are accepted. -/
theorem one_block_changes_tag (a : Algorithm) :
    (∀ c : Cipher a, TellsApart a.blockLen (GivesTag Omac.step .update .finish (.ofCipher c))) ∧
      ∀ (key : Key) (sectionLen masterSection : Nat) (m : MeshedOmac a),
        MeshedOmac.ofKey a key sectionLen masterSection = .ok m →
          TellsApart a.blockLen (GivesTag MeshedOmac.step .update .finish m) :=
  ⟨Omac.tellsApart, fun _ _ _ _ => MeshedOmac.tellsApart⟩

/-- One bit in the second block of five, before the key changes twice. One message comes in three
pieces, the other in one. -/
theorem one_block_changes_tag_magma :
    let message : ByteString := [1, 2, 3] ++ List.replicate 37 4
    ∃ (m : MeshedOmac .magma) (tag tag' : Tag),
      MeshedOmac.ofKey .magma (.zero 32) 16 24 = .ok m ∧
        GivesTag MeshedOmac.step .update .finish m [[1, 2, 3], [], List.replicate 37 4] tag ∧
        GivesTag MeshedOmac.step .update .finish m [message.flip 9 0] tag' ∧ tag ≠ tag' := by
  intro message
  have hmade : ∃ m, MeshedOmac.ofKey .magma (.zero 32) 16 24 = .ok m := ⟨_, rfl⟩
  obtain ⟨m, hm⟩ := hmade
  have hapart := (one_block_changes_tag .magma).2 (.zero 32) 16 24 m hm
  have hpieces : [[1, 2, 3], [], List.replicate 37 4].flatten = message := rfl
  have hflip : [message.flip 9 0].flatten = message.flip 9 0 := List.append_nil _
  obtain ⟨tag, htag, -⟩ := hapart.whole [[1, 2, 3], [], List.replicate 37 4]
  obtain ⟨tag', htag', -⟩ := hapart.whole [message.flip 9 0]
  refine ⟨m, tag, tag', hm, htag, htag', fun hsame => ?_⟩
  have hiff := hapart.apart (i := 9 / 8) htag htag'
  rw [hpieces, hflip, length_flip] at hiff
  have hmessage := (hiff rfl (agreeOutside_flip 8 message 9 0)).mp hsame
  exact flip_ne message 0 (by decide) hmessage.symm

end GostSuite

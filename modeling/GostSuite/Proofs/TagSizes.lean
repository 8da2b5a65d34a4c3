import GostSuite.Mac.MeshedOmac
import GostSuite.Proofs.CounterStream.Lookahead
import GostSuite.Proofs.Sealing.History
import GostSuite.Proofs.SizedTags
import GostSuite.Sealing.SealedStream

/-!
# The length of a tag

Four contexts give tags whose length can be set: the two codes, sealed streams and the
authenticated mode. In all of them the length cuts the tag and does nothing else, and this file
shows it of each by the one step that the law for runs asks for (`SizedTags.Lawful`). Nothing is
assumed of the context. It may have any history, and any length in it, also one that no call would
have accepted.

They come to a tag in two ways. The codes and the authenticated mode cut the code of the message. In
a sealed stream the code is cut *before* it is encrypted, so it is not obvious that a cut tag is a
cut of the whole tag: a shorter code moves the keystream less, perhaps not over the end of a block or
of a section. What stands in for it is `CounterStream.apply_take`.

They verify in two ways as well, and that is not the same split. The authenticated mode takes the
length from the tag that it is given, so it accepts more than the length that was set; the others
take their own.
-/

set_option autoImplicit false

namespace GostSuite

/-! ## 1. The codes -/

variable {a : Algorithm}

theorem StepOutcome.ofUnit_ofCheck {σ : Type} {p : Prop} [Decidable p] (s changed : σ) (e : Error) :
    ofUnit (.ofCheck s (if p then .ok () else .error e) changed) =
      if p then .done (changed, []) none else .refused (s, []) e := by
  split <;> rfl

namespace Omac

/-- The plain code, with the length of its codes. -/
def tags (a : Algorithm) : SizedTags (Omac a) Call where
  step := step
  whole := a.blockLen
  whole_pos := a.blockLen_pos
  set := .setMacLen
  sets
    | .setMacLen size => some size
    | _ => none
  sets_iff call size := by cases call <;> simp
  finish := .finish
  verify := .verify
  set_ne _ := ⟨nofun, nofun⟩
  size := macLen
  resize size m := { m with macLen := size }
  resize_size _ := rfl
  resize_resize _ _ _ := rfl
  refusal size := .invalidMacSize size a.blockLen
  accepts full size expected := expected = (Tag.ofBlock full size).bytes

theorem endsAlike (m : Omac a) : (tags a).EndsAlike finish m := by
  cases hready : m.ready with
  | error e =>
    refine .refused e fun size => ?_
    have hsame : ((tags a).resize size m).ready = .error e := hready
    rw [finish, hsame]
  | ok key =>
    refine .tag (m.chain.close key.cipher.encrypt key.whitening) fun size => ?_
    have hsame : ((tags a).resize size m).ready = .ok key := hready
    rw [finish, hsame]
    rfl

theorem compares (a : Algorithm) : (tags a).Compares finish where
  step_finish _ := rfl
  step_verify _ _ := rfl
  accepts_iff _ _ _ := Iff.rfl
  endsAlike := endsAlike

theorem update_resize (m : Omac a) (size : Nat) (data : ByteString) :
    ((tags a).resize size m).update data =
      ⟨(tags a).resize size (m.update data).after, (m.update data).answer⟩ := by
  have hsame : ((tags a).resize size m).ready = m.ready := rfl
  unfold update
  rw [hsame]
  cases m.ready with
  | error e => rfl
  | ok key => rfl

theorem passes (m : Omac a) (call : Call) (h : (tags a).sets call = none) :
    (tags a).Passes m call := by
  cases call with
  | update data =>
    exact .inr fun size => congrArg StepOutcome.ofUnit (update_resize m size data)
  | finish => exact (compares a).passes_finish m
  | verify expected => exact (compares a).passes_verify m expected
  | reset => exact .inr fun size => rfl
  | setKey key => exact .inr fun size => rfl
  | setMacLen size => exact absurd h (by simp [tags])

theorem lawful (a : Algorithm) : (tags a).Lawful where
  set_step := fun m size => StepOutcome.ofUnit_ofCheck m { m with macLen := size } _
  pass := passes
  ends := (compares a).ends

theorem keepsSize (a : Algorithm) : (tags a).KeepsSize :=
  (compares a).keepsSize (fun _ _ => rfl) fun m => by
    show m.finish.after.macLen = m.macLen
    unfold finish
    split <;> rfl

end Omac

namespace MeshedOmac

/-- The meshed code, with the length of its codes. -/
def tags (a : Algorithm) : SizedTags (MeshedOmac a) Call where
  step := step
  whole := a.blockLen
  whole_pos := a.blockLen_pos
  set := .setMacLen
  sets
    | .setMacLen size => some size
    | _ => none
  sets_iff call size := by cases call <;> simp
  finish := .finish
  verify := .verify
  set_ne _ := ⟨nofun, nofun⟩
  size := macLen
  resize size m := { m with macLen := size }
  resize_size _ := rfl
  resize_resize _ _ _ := rfl
  refusal size := .invalidMacSize size a.blockLen
  accepts full size expected := expected = (Tag.ofBlock full size).bytes

theorem endsAlike (m : MeshedOmac a) : (tags a).EndsAlike finish m := by
  cases hready : m.ready with
  | error e =>
    refine .refused e fun size => ?_
    have hsame : ((tags a).resize size m).ready = .error e := hready
    rw [finish, hsame]
  | ok keys =>
    let pair := (Progress.beforeBlock m.sectionLen ⟨keys, m.processed⟩).keys.current
    refine .tag (m.chain.close pair.cipher.encrypt pair.whitening) fun size => ?_
    have hsame : ((tags a).resize size m).ready = .ok keys := hready
    rw [finish, hsame]
    rfl

theorem compares (a : Algorithm) : (tags a).Compares finish where
  step_finish _ := rfl
  step_verify _ _ := rfl
  accepts_iff _ _ _ := Iff.rfl
  endsAlike := endsAlike

theorem passes (m : MeshedOmac a) (call : Call) (h : (tags a).sets call = none) :
    (tags a).Passes m call := by
  cases call with
  | update data =>
    refine .inr fun size => ?_
    simp only [tags, SizedTags.resized, step, update, ready]
    split <;> rfl
  | finish => exact (compares a).passes_finish m
  | verify expected => exact (compares a).passes_verify m expected
  | reset => exact .inr fun size => rfl
  | setKey key =>
    refine .inr fun size => ?_
    simp only [tags, SizedTags.resized, step, setKey, Outcome.ofCheck]
    split <;> rfl
  | setMacLen size => exact absurd h (by simp [tags])
  | setSections sectionLen masterSection =>
    refine .inr fun size => ?_
    simp only [tags, SizedTags.resized, step, setSections, Outcome.ofCheck]
    split <;> rfl

theorem lawful (a : Algorithm) : (tags a).Lawful where
  set_step := fun m size => StepOutcome.ofUnit_ofCheck m { m with macLen := size } _
  pass := passes
  ends := (compares a).ends

theorem keepsSize (a : Algorithm) : (tags a).KeepsSize :=
  (compares a).keepsSize (fun _ _ => rfl) fun m => by
    show m.finish.after.macLen = m.macLen
    unfold finish
    split <;> rfl

end MeshedOmac

/-! ## 2. Sealed streams: a cut before the keystream -/

namespace SealedStream

/-- Sealed streams, with the length of their tags: it is that of the code. -/
def tags (a : Algorithm) : SizedTags (SealedStream a) Call where
  step := step
  whole := a.blockLen
  whole_pos := a.blockLen_pos
  set := .setMacLen
  sets
    | .setMacLen size => some size
    | _ => none
  sets_iff call size := by cases call <;> simp
  finish := .finish
  verify := .verify
  set_ne _ := ⟨nofun, nofun⟩
  size s := s.code.macLen
  resize size s := { s with code := { s.code with macLen := size } }
  resize_size _ := rfl
  resize_resize _ _ _ := rfl
  refusal size := .invalidMacSize size a.blockLen
  accepts full size expected := expected = (Tag.ofBlock full size).bytes

/-- The whole tag is the whole code after the keystream. A cut code makes the first bytes of it. -/
theorem endsAlike (s : SealedStream a) : (tags a).EndsAlike finish s := by
  cases hopen : s.ensureOpen with
  | error e =>
    refine .refused e fun size => ?_
    have hsame : ((tags a).resize size s).ensureOpen = .error e := hopen
    rw [finish, hsame]
  | ok _ =>
    have hsame : ∀ size, ((tags a).resize size s).ensureOpen = .ok () := fun _ => hopen
    cases Omac.endsAlike s.code with
    | refused e h =>
      refine .refused e fun size => ?_
      have hcode : ((tags a).resize size s).code.finish =
          .refused ((tags a).resize size s).code e := h size
      simp only [finish, hsame, hcode, Outcome.refused]
    | tag full h =>
      let masked : Block a := ⟨(s.stream.apply full.toList).1, by
        rw [CounterStream.length_apply, full.length_toList]
        rfl⟩
      refine .tag masked fun size => ?_
      have hcode : ((tags a).resize size s).code.finish.answer = .ok (.ofBlock full size) := h size
      simp only [finish, hsame, hcode, Outcome.done]
      exact congrArg (fun bytes => Except.ok (Tag.mk bytes))
        (CounterStream.apply_take s.stream full.toList size)

theorem compares (a : Algorithm) : (tags a).Compares finish where
  step_finish _ := rfl
  step_verify _ _ := rfl
  accepts_iff _ _ _ := Iff.rfl
  endsAlike := endsAlike

theorem encrypt_resize (s : SealedStream a) (size : Nat) (data : ByteString) :
    ((tags a).resize size s).encrypt data =
      ⟨((tags a).resize size (s.encrypt data).after.1, (s.encrypt data).after.2),
        (s.encrypt data).answer⟩ := by
  have hsame : ((tags a).resize size s).ensureOpen = s.ensureOpen := rfl
  have hcode : ((tags a).resize size s).code.update data = _ :=
    Omac.update_resize s.code size data
  unfold encrypt
  simp only [hsame, hcode]
  cases s.ensureOpen with
  | error e => rfl
  | ok _ =>
    cases (s.code.update data).answer with
    | error e => rfl
    | ok _ => rfl

theorem decrypt_resize (s : SealedStream a) (size : Nat) (data : ByteString) :
    ((tags a).resize size s).decrypt data =
      ⟨((tags a).resize size (s.decrypt data).after.1, (s.decrypt data).after.2),
        (s.decrypt data).answer⟩ := by
  have hsame : ((tags a).resize size s).ensureOpen = s.ensureOpen := rfl
  have hcode : ((tags a).resize size s).code.update (s.stream.apply data).1 = _ :=
    Omac.update_resize s.code size (s.stream.apply data).1
  have hstream : ((tags a).resize size s).stream = s.stream := rfl
  unfold decrypt
  simp only [hsame, hstream, hcode]
  cases s.ensureOpen with
  | error e => rfl
  | ok _ => rfl

theorem passes (s : SealedStream a) (call : Call) (h : (tags a).sets call = none) :
    (tags a).Passes s call := by
  cases call with
  | encrypt data =>
    exact .inr fun size => congrArg StepOutcome.ofBuffer (encrypt_resize s size data)
  | decrypt data =>
    exact .inr fun size => congrArg StepOutcome.ofBuffer (decrypt_resize s size data)
  | finish => exact (compares a).passes_finish s
  | verify expected => exact (compares a).passes_verify s expected
  | setMacLen size => exact absurd h (by simp [tags])

theorem set_step (s : SealedStream a) (size : Nat) :
    (tags a).step s ((tags a).set size) =
      if 1 ≤ size ∧ size ≤ (tags a).whole then .done ((tags a).resize size s, []) none
      else .refused (s, []) ((tags a).refusal size) := by
  show StepOutcome.ofUnit (s.setMacLen size) = _
  unfold setMacLen Omac.setMacLen Bounds.macLen
  split
  · next h => exact (if_pos h).symm
  · next h => exact (if_neg h).symm

theorem lawful (a : Algorithm) : (tags a).Lawful where
  set_step := set_step
  pass := passes
  ends := (compares a).ends

theorem keepsSize (a : Algorithm) : (tags a).KeepsSize :=
  (compares a).keepsSize (fun _ _ => rfl) fun s => by
    have hcode : s.code.finish.after.macLen = s.code.macLen :=
      (Omac.keepsSize a).size_asks s.code .finish (.inl rfl)
    show s.finish.after.code.macLen = s.code.macLen
    unfold finish
    cases s.ensureOpen with
    | error e => rfl
    | ok _ =>
      cases hanswer : s.code.finish.answer with
      | error e =>
        simp only [hanswer]
        exact hcode
      | ok code =>
        simp only [hanswer]
        exact hcode

end SealedStream

/-! ## 3. The authenticated mode -/

namespace Mgm

/-- The authenticated mode, with the length of its tags. What it verifies has a length of its own. -/
def tags (a : Algorithm) : SizedTags (Mgm a) Call where
  step := step
  whole := a.blockLen
  whole_pos := a.blockLen_pos
  set := .setTagLen
  sets
    | .setTagLen len => some len
    | _ => none
  sets_iff call len := by cases call <;> simp
  finish := .finish
  verify := .verify
  set_ne _ := ⟨nofun, nofun⟩
  size := tagLen
  resize len m := { m with tagLen := len }
  resize_size _ := rfl
  resize_resize _ _ _ := rfl
  refusal len := .invalidTagLength len a.blockLen
  accepts full _ expected :=
    (1 ≤ expected.length ∧ expected.length ≤ a.blockLen) ∧ expected <+: full.toList

/-- The end of a message is refused, or it gives a whole tag; the length set is not looked at. -/
theorem finalize_resize (m : Mgm a) :
    (∃ e, ∀ len, ((tags a).resize len m).finalize = .refused ((tags a).resize len m) e) ∨
      ∃ full : Block a, ∀ len, ((tags a).resize len m).finalize.answer = .ok full := by
  have hsame : ∀ len, ((tags a).resize len m).openFor Phase.takesData =
      m.openFor Phase.takesData := fun _ => rfl
  cases hopen : m.openFor Phase.takesData with
  | error e =>
    refine .inl ⟨e, fun len => ?_⟩
    rw [finalize_eq, hsame, hopen]
  | ok c =>
    refine .inr ⟨m.message.close c.encrypt, fun len => ?_⟩
    rw [finalize_eq, hsame, hopen]
    rfl

theorem setIv_resize (m : Mgm a) (len : Nat) (nonce : ByteString) :
    ((tags a).resize len m).setIv nonce =
      ⟨(tags a).resize len (m.setIv nonce).after, (m.setIv nonce).answer⟩ := by
  have hkeyed : ((tags a).resize len m).keyed = m.keyed := rfl
  unfold setIv
  rw [hkeyed]
  cases m.keyed with
  | error e => rfl
  | ok c =>
    cases Bytes.read a.blockLen nonce with
    | error e => rfl
    | ok nonce => rfl

theorem updateAad_resize (m : Mgm a) (len : Nat) (aad : ByteString) :
    ((tags a).resize len m).updateAad aad =
      ⟨(tags a).resize len (m.updateAad aad).after, (m.updateAad aad).answer⟩ := by
  have htakes : ((tags a).resize len m).takesAad aad.length = m.takesAad aad.length := rfl
  rw [updateAad_eq, updateAad_eq, htakes]
  cases m.takesAad aad.length with
  | error e => rfl
  | ok c => rfl

theorem turn_resize (m : Mgm a) (len : Nat) (d : Direction) (data : ByteString) :
    ((tags a).resize len m).turn d data =
      ⟨((tags a).resize len (m.turn d data).after.1, (m.turn d data).after.2),
        (m.turn d data).answer⟩ := by
  have htakes : ((tags a).resize len m).takesData data.length = m.takesData data.length := rfl
  rw [turn_eq, turn_eq, htakes]
  cases m.takesData data.length with
  | error e => rfl
  | ok c =>
    cases data with
    | nil => rfl
    | cons b data => rfl

variable {m : Mgm a} {expected : ByteString}

theorem answer_finish {full : Block a} (h : m.finalize.answer = .ok full) :
    (step m .finish).answer = .ok (some (.ofBlock full m.tagLen)) := by
  unfold step finish StepOutcome.ofTag Outcome.judge
  rw [h]
  rfl

theorem step_finish_refused {e : Error} (h : m.finalize = .refused m e) :
    step m .finish = .refused (m, []) e := by
  unfold step finish
  rw [h]
  rfl

theorem verify_of_length (hlen : 1 ≤ expected.length ∧ expected.length ≤ a.blockLen) :
    m.verify expected = m.finalize.judge fun full =>
      if (Tag.ofBlock full expected.length).verify expected then .ok ()
      else .error .authenticationFailed := by
  rw [verify, tagLen_eq_ok_iff.mpr hlen]

/-- What is expected is compared with as many bytes of the whole tag as it has itself. -/
theorem answer_verify {full : Block a} (h : m.finalize.answer = .ok full)
    (hlen : 1 ≤ expected.length ∧ expected.length ≤ a.blockLen) :
    (step m (.verify expected)).answer =
      if expected <+: full.toList then .ok none else .error .authenticationFailed := by
  show (StepOutcome.ofUnit (m.verify expected)).answer = _
  rw [verify_of_length hlen]
  unfold StepOutcome.ofUnit Outcome.judge
  simp only [h, Except.bind, verify_ofBlock, ← List.prefix_iff_eq_take]
  split <;> rfl

theorem step_verify_refused {e : Error} (h : m.finalize = .refused m e)
    (hlen : 1 ≤ expected.length ∧ expected.length ≤ a.blockLen) :
    step m (.verify expected) = .refused (m, []) e := by
  show StepOutcome.ofUnit (m.verify expected) = _
  rw [verify_of_length hlen, h]
  rfl

theorem passes (m : Mgm a) (call : Call) (h : (tags a).sets call = none) :
    (tags a).Passes m call := by
  have hrefused : ∀ {call e}, (∀ len, step ((tags a).resize len m) call =
      .refused ((tags a).resize len m, []) e) → (tags a).Passes m call :=
    SizedTags.passes_of_refused (z := tags a) _
  cases call with
  | setKey key => exact .inr fun len => rfl
  | setIv nonce => exact .inr fun len => congrArg StepOutcome.ofUnit (setIv_resize m len nonce)
  | updateAad aad =>
    exact .inr fun len => congrArg StepOutcome.ofUnit (updateAad_resize m len aad)
  | encrypt data =>
    exact .inr fun len => congrArg StepOutcome.ofBuffer (turn_resize m len .encrypting data)
  | decrypt data =>
    exact .inr fun len => congrArg StepOutcome.ofBuffer (turn_resize m len .decrypting data)
  | finish =>
    rcases finalize_resize m with ⟨e, hall⟩ | ⟨full, hfull⟩
    · exact hrefused fun len => step_finish_refused (hall len)
    · exact .inl fun len => ⟨.inl rfl, .inl ⟨_, answer_finish (hfull len)⟩⟩
  | verify expected =>
    by_cases hlen : 1 ≤ expected.length ∧ expected.length ≤ a.blockLen
    · rcases finalize_resize m with ⟨e, hall⟩ | ⟨full, hfull⟩
      · exact hrefused fun len => step_verify_refused (hall len) hlen
      · exact .inl fun len =>
          SizedTags.computes_of_compared (.inr ⟨expected, rfl⟩) (answer_verify (hfull len) hlen)
    · exact hrefused fun len => step_verify_wrong_length _ (decide_eq_false hlen)
  | setTagLen len => exact absurd h (by simp [tags])

theorem ends (m : Mgm a) : (tags a).Ends m := by
  rcases finalize_resize m with ⟨e, hall⟩ | ⟨full, hfull⟩
  · refine .refused e fun len => ?_
    show (step _ .finish).answer = _
    rw [step_finish_refused (hall len)]
    rfl
  · refine .tag full (fun len => answer_finish (hfull len)) fun len expected => ?_
    show (step _ (.verify expected)).answer = _ ↔ _ ∧ _
    by_cases hlen : 1 ≤ expected.length ∧ expected.length ≤ a.blockLen
    · rw [answer_verify (hfull len) hlen, accepted_eq_ok_iff, and_iff_left rfl, and_iff_right hlen]
    · rw [step_verify_wrong_length _ (decide_eq_false hlen)]
      exact iff_of_false (by simp [Outcome.refused]) fun h => hlen h.1

theorem lawful (a : Algorithm) : (tags a).Lawful where
  set_step := fun m len => StepOutcome.ofUnit_ofCheck m { m with tagLen := len } _
  pass := passes
  ends := ends

theorem keepsSize (a : Algorithm) : (tags a).KeepsSize where
  size_resize _ _ := rfl
  size_asks := by
    intro m call hasks
    have hfinal : m.finalize.after.tagLen = m.tagLen := by
      rw [finalize_eq]
      split <;> rfl
    rcases hasks with rfl | ⟨expected, rfl⟩
    · exact hfinal
    · show (m.verify expected).after.tagLen = m.tagLen
      unfold verify
      split
      · rfl
      · exact hfinal

end Mgm

/-! ## 4. All four -/

/-- **A length cuts the tag and does nothing else.** It may be set at any moment, any number of
times, to anything. -/
theorem lengths_only_cut_tags (a : Algorithm) :
    (∀ m : Mgm a, (Mgm.tags a).OnlyCuts m) ∧ (∀ m : Omac a, (Omac.tags a).OnlyCuts m) ∧
      (∀ m : MeshedOmac a, (MeshedOmac.tags a).OnlyCuts m) ∧
        ∀ s : SealedStream a, (SealedStream.tags a).OnlyCuts s :=
  ⟨(Mgm.lawful a).onlyCuts, (Omac.lawful a).onlyCuts, (MeshedOmac.lawful a).onlyCuts,
    (SealedStream.lawful a).onlyCuts⟩

/-- Three lengths for one message. The one before the nonce is replaced, and the last one is more
than a block and refused. A verifier may still ask for more bytes than were set. -/
theorem lengths_only_cut_tags_gost89 :
    let m := Mgm.ofKey .gost89 (.zero 32)
    let nonce : ByteString := List.replicate 8 7
    let plain : List Mgm.Call := [.setIv nonce, .encrypt [1, 2, 3]]
    let sized : List Mgm.Call :=
      [.setTagLen 5, .setIv nonce, .setTagLen 3, .encrypt [1, 2, 3], .setTagLen 9]
    ∃ full : Bytes 8,
      (Mgm.step (runCalls Mgm.step m plain) .finish).answer = .ok (some (.ofBlock full 8)) ∧
        (Mgm.step (runCalls Mgm.step m sized) .finish).answer = .ok (some (.ofBlock full 3)) ∧
        (Mgm.step (runCalls Mgm.step m sized) (.verify (full.toList.take 5))).answer = .ok none := by
  intro m nonce plain sized
  have hanswer : ∃ tag, (Mgm.step (runCalls Mgm.step (.ofKey .gost89 (.zero 32))
      [.setIv (List.replicate 8 7), .encrypt [1, 2, 3]]) .finish).answer = .ok (some tag) := ⟨_, rfl⟩
  obtain ⟨tag, htag⟩ := hanswer
  have hiv : ∀ m, ¬(Mgm.tags .gost89).Computes m (.setIv nonce) := by
    rintro m ⟨hfinish | ⟨_, hverify⟩, -⟩
    · cases hfinish
    · cases hverify
  have hturn : ∀ m, ¬(Mgm.tags .gost89).Computes m (.encrypt [1, 2, 3]) := by
    rintro m ⟨hfinish | ⟨_, hverify⟩, -⟩
    · cases hfinish
    · cases hverify
  obtain ⟨full, -, hcuts⟩ := ((lengths_only_cut_tags .gost89).1 m).run plain tag
    ⟨hiv _, hturn _, trivial⟩ htag
  have hplain := hcuts plain rfl
  have hsized := hcuts sized rfl
  have hlast : (Mgm.tags .gost89).lastSize ((Mgm.tags .gost89).size m) plain = 8 := rfl
  have hlast' : (Mgm.tags .gost89).lastSize ((Mgm.tags .gost89).size m) sized = 3 := rfl
  have htag := hplain.tag
  have htag' := hsized.tag
  rw [hlast] at htag
  rw [hlast'] at htag'
  refine ⟨full, htag, htag', (hsized.verified _).mpr ?_⟩
  have hlen : (full.toList.take 5).length = 5 := by
    rw [List.length_take, full.length_toList]
    rfl
  exact ⟨by rw [hlen]; decide, List.take_prefix 5 full.toList⟩

end GostSuite

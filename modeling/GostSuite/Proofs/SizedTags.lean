import GostSuite.Proofs.Calls

/-!
# Tags of a length that can be set

Some contexts give tags and keep a number of bytes that their tags shall have. The number may be set
at any moment: before the key, between two pieces, right before the tag. What it does is meant to be
nothing at all until the tag is out, and then no more than a cut:

> the tag is as many bytes of the whole tag as were set last, and nothing else of a session tells
> whether, when and how often a length was set (`SizedTags.OnlyCuts`).

This is a statement about two runs, which have the same calls but for the lengths. It comes from
one step: a call that sets no length does the same to two contexts that differ in the length alone,
unless it computes a tag (`Lawful.pass`). Both runs are held against a third one that has no lengths
at all. They stay beside it up to the tag (`Lawful.run`), so they stay beside each other, and there
is one whole tag for both.

What the context is for is not asked here, and neither is how the tag comes about. A context has to
say what its calls are (`SizedTags`) and show the step (`Lawful`). Most contexts compare a tag by
making it, and these have to show no more than how they make it (`Compares`).

A run may also compute tags on its way, one after the other. Then it says nothing about other runs,
but the tag at its end still has the length that was set last (`Lawful.givesLength`).
-/

set_option autoImplicit false

namespace GostSuite

/-! ## 1. Contexts whose tags have a length -/

/-- A context that gives tags of a length that a call can set. The length is a field of the context
and has a value of its own. -/
structure SizedTags (σ κ : Type) where
  step : σ → κ → StepOutcome σ
  /-- Bytes of a whole tag. -/
  whole : Nat
  whole_pos : 1 ≤ whole
  /-- The call that sets the length. -/
  set : Nat → κ
  /-- The length that a call sets. -/
  sets : κ → Option Nat
  sets_iff : ∀ call size, sets call = some size ↔ call = set size
  finish : κ
  verify : ByteString → κ
  set_ne : ∀ size, set size ≠ finish ∧ ∀ expected, set size ≠ verify expected
  size : σ → Nat
  resize : Nat → σ → σ
  resize_size : ∀ s, resize (size s) s = s
  resize_resize : ∀ size old s, resize size (resize old s) = resize size s
  /-- What is answered to a length that no tag can have. -/
  refusal : Nat → Error
  /-- What passes for the tag, if the whole one is given and the length is set. -/
  accepts : Bytes whole → Nat → ByteString → Prop

namespace SizedTags

variable {σ κ : Type} (z : SizedTags σ κ)

/-- The call asks for the tag, to have it or to compare it. -/
def Asks (call : κ) : Prop := call = z.finish ∨ ∃ expected, call = z.verify expected

/-- The call computes a tag. It asks for one, and it is answered or told that the tag is a different
one; if it is refused for another reason, no tag has been computed. -/
def Computes (s : σ) (call : κ) : Prop :=
  z.Asks call ∧
    ((∃ tag, (z.step s call).answer = .ok tag) ∨
      (z.step s call).answer = .error .authenticationFailed)

/-- None of the calls computes a tag. -/
def Tagless (s : σ) : List κ → Prop
  | [] => True
  | call :: calls => ¬z.Computes s call ∧ Tagless (z.step s call).after.1 calls

/-- The calls that set no length. -/
def others (calls : List κ) : List κ := calls.filter fun call => (z.sets call).isNone

/-- What those calls leave in their buffers, and what they answer. -/
def outputs (s : σ) : List κ → List (ByteString × Except Error (Option Tag))
  | [] => []
  | call :: calls =>
    let o := z.step s call
    let more := outputs o.after.1 calls
    if (z.sets call).isNone then (o.after.2, o.answer) :: more else more

/-- The length that was accepted last, or `size` if none was. -/
def lastSize (size : Nat) (calls : List κ) : Nat :=
  ((calls.filterMap z.sets).filter fun new => 1 ≤ new ∧ new ≤ z.whole).getLastD size

/-! ## 2. What a length may do -/

/-- What a step has left, with another length in the context. -/
def resized (size : Nat) (o : StepOutcome σ) : StepOutcome σ :=
  ⟨(z.resize size o.after.1, o.after.2), o.answer⟩

/-- The call computes a tag whatever the length is, or it does the same whatever the length is. -/
def Passes (s : σ) (call : κ) : Prop :=
  (∀ size, z.Computes (z.resize size s) call) ∨
    ∀ size, z.step (z.resize size s) call = z.resized size (z.step s call)

/-- There is no tag, whatever the length is, or there is one whole tag for all lengths. -/
inductive Ends (s : σ) : Prop
  | refused (e : Error) (h : ∀ size, (z.step (z.resize size s) z.finish).answer = .error e)
  | tag (full : Bytes z.whole)
    (hfinish : ∀ size,
      (z.step (z.resize size s) z.finish).answer = .ok (some (.ofBlock full size)))
    (hverify : ∀ size expected,
      (z.step (z.resize size s) (z.verify expected)).answer = .ok none ↔
        z.accepts full size expected)

/-- The length of the context is checked when it is set, and then only tags depend on it. -/
structure Lawful : Prop where
  set_step : ∀ s size, z.step s (z.set size) =
    if 1 ≤ size ∧ size ≤ z.whole then .done (z.resize size s, []) none
    else .refused (s, []) (z.refusal size)
  pass : ∀ s call, z.sets call = none → z.Passes s call
  ends : ∀ s, z.Ends s

/-- What `calls'` do with a whole tag `full`, in comparison with `calls`. -/
structure Cuts (s : σ) (calls : List κ) (full : Bytes z.whole) (calls' : List κ) : Prop where
  tagless : z.Tagless s calls'
  outputs : z.outputs s calls' = z.outputs s calls
  context : runCalls z.step s calls' =
    z.resize (z.lastSize (z.size s) calls') (runCalls z.step s calls)
  tag : (z.step (runCalls z.step s calls') z.finish).answer =
    .ok (some (.ofBlock full (z.lastSize (z.size s) calls')))
  verified : ∀ expected,
    (z.step (runCalls z.step s calls') (z.verify expected)).answer = .ok none ↔
      z.accepts full (z.lastSize (z.size s) calls') expected

/-- Lengths only cut the tag. -/
structure OnlyCuts (s : σ) : Prop where
  /-- A length of one to a whole tag is set, and any other is refused and changes nothing. -/
  set : ∀ size, z.step s (z.set size) =
    if 1 ≤ size ∧ size ≤ z.whole then .done (z.resize size s, []) none
    else .refused (s, []) (z.refusal size)
  /-- A run that computes no tag before its end has a whole tag, which it gives if the whole length
  is set last, and every run with the same calls but for the lengths cuts it. -/
  run : ∀ calls tag, z.Tagless s calls →
    (z.step (runCalls z.step s calls) z.finish).answer = .ok (some tag) →
      ∃ full : Bytes z.whole,
        (z.step (runCalls z.step s (calls ++ [z.set z.whole])) z.finish).answer =
          .ok (some ⟨full.toList⟩) ∧
        ∀ calls', z.others calls' = z.others calls → z.Cuts s calls full calls'

/-! ## 3. Runs side by side -/

variable {z} {s : σ} {call : κ} {calls calls' : List κ} {size : Nat}

theorem others_cons_set (h : z.sets call = some size) :
    z.others (call :: calls) = z.others calls := by
  simp [others, h]

theorem others_cons (h : z.sets call = none) :
    z.others (call :: calls) = call :: z.others calls := by
  simp [others, h]

theorem outputs_cons_set (h : z.sets call = some size) :
    z.outputs s (call :: calls) = z.outputs (z.step s call).after.1 calls := by
  simp [outputs, h]

theorem outputs_cons (h : z.sets call = none) :
    z.outputs s (call :: calls) =
      ((z.step s call).after.2, (z.step s call).answer) ::
        z.outputs (z.step s call).after.1 calls := by
  simp [outputs, h]

theorem lastSize_cons (h : z.sets call = none) (old : Nat) :
    z.lastSize old (call :: calls) = z.lastSize old calls := by
  simp [lastSize, h]

theorem lastSize_cons_accepted (h : z.sets call = some size) (hsize : 1 ≤ size ∧ size ≤ z.whole)
    (old : Nat) : z.lastSize old (call :: calls) = z.lastSize size calls := by
  simp only [lastSize, List.filterMap_cons, h]
  rw [List.filter_cons_of_pos (by simpa using hsize), List.getLastD_cons]

theorem lastSize_cons_refused (h : z.sets call = some size)
    (hsize : ¬(1 ≤ size ∧ size ≤ z.whole)) (old : Nat) :
    z.lastSize old (call :: calls) = z.lastSize old calls := by
  simp only [lastSize, List.filterMap_cons, h]
  rw [List.filter_cons_of_neg (by simpa using hsize)]

/-- A call that sets a length leaves a context that differs in the length, and goes unnoticed. -/
theorem Lawful.cons_set (hz : z.Lawful) (h : z.sets call = some size) (s : σ) (old : Nat) :
    ¬z.Computes (z.resize old s) call ∧
      ∃ new, (z.step (z.resize old s) call).after.1 = z.resize new s ∧
        ∀ calls, z.lastSize old (call :: calls) = z.lastSize new calls := by
  obtain rfl : call = z.set size := (z.sets_iff call size).mp h
  constructor
  · rintro ⟨hfinish | ⟨expected, hverify⟩, -⟩
    · exact (z.set_ne size).1 hfinish
    · exact (z.set_ne size).2 expected hverify
  · by_cases hsize : 1 ≤ size ∧ size ≤ z.whole
    · refine ⟨size, ?_, fun calls => lastSize_cons_accepted h hsize old⟩
      rw [hz.set_step, if_pos hsize]
      exact z.resize_resize size old s
    · refine ⟨old, ?_, fun calls => lastSize_cons_refused h hsize old⟩
      rw [hz.set_step, if_neg hsize]
      rfl

theorem computes_resized {s' : σ} (h : z.step s' call = z.resized size (z.step s call)) :
    z.Computes s' call ↔ z.Computes s call := by
  unfold Computes
  rw [h]
  rfl

/-- **A run beside the run without its lengths.** The one computes no tag if and only if the other
computes none. Then they answer alike, and their contexts differ in the length that was accepted
last. -/
theorem Lawful.run (hz : z.Lawful) (s : σ) (size : Nat) (calls : List κ) :
    (z.Tagless (z.resize size s) calls ↔ z.Tagless s (z.others calls)) ∧
      (z.Tagless s (z.others calls) →
        z.outputs (z.resize size s) calls = z.outputs s (z.others calls) ∧
          runCalls z.step (z.resize size s) calls =
            z.resize (z.lastSize size calls) (runCalls z.step s (z.others calls))) := by
  induction calls generalizing s size with
  | nil => exact ⟨Iff.rfl, fun _ => ⟨rfl, rfl⟩⟩
  | cons call calls ih =>
    cases hsets : z.sets call with
    | some asked =>
      obtain ⟨hsilent, new, hafter, hlast⟩ := hz.cons_set hsets s size
      rw [others_cons_set hsets, outputs_cons_set hsets, runCalls_cons, hlast, Tagless, hafter]
      exact ⟨⟨fun h => (ih s new).1.mp h.2, fun h => ⟨hsilent, (ih s new).1.mpr h⟩⟩, (ih s new).2⟩
    | none =>
      rw [others_cons hsets, lastSize_cons hsets, outputs_cons hsets, outputs_cons hsets,
        runCalls_cons, runCalls_cons, Tagless, Tagless]
      rcases hz.pass s call hsets with hall | hsame
      · -- a tag is computed in both runs
        have hs : z.Computes s call := by
          have hcomputes := hall (z.size s)
          rwa [z.resize_size] at hcomputes
        exact ⟨⟨fun h => absurd (hall size) h.1, fun h => absurd hs h.1⟩, fun h => absurd hs h.1⟩
      · have hstep := hsame size
        obtain ⟨htagless, hrest⟩ := ih (z.step s call).after.1 size
        rw [computes_resized hstep, hstep]
        simp only [resized]
        refine ⟨and_congr_right fun _ => htagless, fun h => ?_⟩
        obtain ⟨houtputs, hrun⟩ := hrest h.2
        exact ⟨by rw [houtputs], hrun⟩

theorem lastSize_concat_whole (z : SizedTags σ κ) (old : Nat) (calls : List κ) :
    z.lastSize old (calls ++ [z.set z.whole]) = z.whole := by
  have hsets : z.sets (z.set z.whole) = some z.whole := (z.sets_iff _ _).mpr rfl
  have hsize : 1 ≤ z.whole ∧ z.whole ≤ z.whole := ⟨z.whole_pos, Nat.le_refl _⟩
  simp [lastSize, List.filterMap_append, hsets, hsize, List.getLastD_eq_getLast?]

theorem others_concat_set (z : SizedTags σ κ) (size : Nat) (calls : List κ) :
    z.others (calls ++ [z.set size]) = z.others calls := by
  have hsets : z.sets (z.set size) = some size := (z.sets_iff _ _).mpr rfl
  simp [others, List.filter_append, hsets]

/-- **Lengths only cut.** The end of a run finds the context that the run without its lengths leads
to, with the last length in it. -/
theorem Lawful.onlyCuts (hz : z.Lawful) (s : σ) : z.OnlyCuts s where
  set := hz.set_step s
  run := by
    intro calls tag htagless hanswer
    have hruns := fun calls => hz.run s (z.size s) calls
    simp only [z.resize_size] at hruns
    have hothers : z.Tagless s (z.others calls) := (hruns calls).1.mp htagless
    obtain ⟨houtputs, hrun⟩ := (hruns calls).2 hothers
    cases hz.ends (runCalls z.step s (z.others calls)) with
    | refused e h =>
      rw [hrun, h] at hanswer
      exact absurd hanswer (by simp)
    | tag full hfinish hverify =>
      have hcuts : ∀ calls', z.others calls' = z.others calls → z.Cuts s calls full calls' := by
        intro calls' hsame
        have hothers' : z.Tagless s (z.others calls') := by rwa [hsame]
        obtain ⟨houtputs', hrun'⟩ := (hruns calls').2 hothers'
        rw [hsame] at houtputs' hrun'
        refine ⟨(hruns calls').1.mpr hothers', houtputs'.trans houtputs.symm, ?_, ?_, ?_⟩
        · rw [hrun', hrun, z.resize_resize]
        · rw [hrun', hfinish]
        · intro expected
          rw [hrun', hverify]
      refine ⟨full, ?_, hcuts⟩
      rw [(hcuts _ (others_concat_set z z.whole calls)).tag, lastSize_concat_whole,
        Tag.ofBlock_whole]

/-! ## 4. Contexts that compare the tag that they would give -/

theorem passes_of_refused (e : Error)
    (h : ∀ size, z.step (z.resize size s) call = .refused (z.resize size s, []) e) :
    z.Passes s call := by
  have hs : z.step s call = .refused (s, []) e := by
    have hown := h (z.size s)
    rwa [z.resize_size] at hown
  refine .inr fun size => ?_
  rw [h, hs]
  rfl

theorem computes_of_compared (hasks : z.Asks call) {p : Prop} [Decidable p]
    (h : (z.step s call).answer = if p then .ok none else .error .authenticationFailed) :
    z.Computes s call := by
  refine ⟨hasks, ?_⟩
  rw [h]
  by_cases hp : p
  · exact .inl ⟨none, if_pos hp⟩
  · exact .inr (if_neg hp)

/-- A context ends its message alike whatever the length is: it is refused and stays as it is, or it
gives what is cut from one whole tag. -/
inductive EndsAlike (z : SizedTags σ κ) (finish : σ → Outcome σ Tag) (s : σ) : Prop
  | refused (e : Error) (h : ∀ size, finish (z.resize size s) = .refused (z.resize size s) e)
  | tag (full : Bytes z.whole)
    (h : ∀ size, (finish (z.resize size s)).answer = .ok (.ofBlock full size))

/-- A context that compares its tag as it would have given it. -/
structure Compares (z : SizedTags σ κ) (finish : σ → Outcome σ Tag) : Prop where
  step_finish : ∀ s, z.step s z.finish = .ofTag (finish s)
  step_verify : ∀ s expected, z.step s (z.verify expected) =
    .ofUnit ((finish s).judge fun tag =>
      if tag.verify expected then .ok () else .error .authenticationFailed)
  accepts_iff : ∀ full size expected,
    z.accepts full size expected ↔ expected = (Tag.ofBlock full size).bytes
  endsAlike : ∀ s, z.EndsAlike finish s

variable {finish : σ → Outcome σ Tag}

theorem Compares.passes_finish (hz : z.Compares finish) (s : σ) : z.Passes s z.finish := by
  cases hz.endsAlike s with
  | refused e h =>
    refine passes_of_refused e fun size => ?_
    rw [hz.step_finish, h]
    rfl
  | tag full h =>
    refine .inl fun size => ⟨.inl rfl, .inl ⟨some (.ofBlock full size), ?_⟩⟩
    rw [hz.step_finish, StepOutcome.ofTag, h]
    rfl

theorem Compares.answer_verify (hz : z.Compares finish) {full : Bytes z.whole} {s : σ}
    (h : (finish s).answer = .ok (.ofBlock full size)) (expected : ByteString) :
    (z.step s (z.verify expected)).answer =
      if expected = (Tag.ofBlock full size).bytes then .ok none
      else .error .authenticationFailed := by
  rw [hz.step_verify]
  unfold StepOutcome.ofUnit Outcome.judge
  simp only [h, Except.bind, Tag.verify_iff]
  split <;> rfl

theorem Compares.passes_verify (hz : z.Compares finish) (s : σ) (expected : ByteString) :
    z.Passes s (z.verify expected) := by
  cases hz.endsAlike s with
  | refused e h =>
    refine passes_of_refused e fun size => ?_
    rw [hz.step_verify, h]
    rfl
  | tag full h =>
    exact .inl fun size =>
      computes_of_compared (.inr ⟨expected, rfl⟩) (hz.answer_verify (h size) expected)

theorem Compares.ends (hz : z.Compares finish) (s : σ) : z.Ends s := by
  cases hz.endsAlike s with
  | refused e h =>
    refine .refused e fun size => ?_
    rw [hz.step_finish, h]
    rfl
  | tag full h =>
    refine .tag full (fun size => ?_) fun size expected => ?_
    · rw [hz.step_finish, StepOutcome.ofTag, h]
      rfl
    · rw [hz.answer_verify (h size), accepted_eq_ok_iff, hz.accepts_iff]
      exact and_iff_left rfl

/-! ## 5. How long a tag is -/

variable (z) in
/-- The length of a context is the one that was set last: it is a field, and asking for the tag
leaves it as it is. -/
structure KeepsSize : Prop where
  size_resize : ∀ size s, z.size (z.resize size s) = size
  size_asks : ∀ s call, z.Asks call → z.size (z.step s call).after.1 = z.size s

variable (z) in
/-- Whatever the calls are, a tag that comes after them has the length that was accepted last, and
`size` bytes if none was. -/
def GivesLength (s : σ) (size : Nat) : Prop :=
  ∀ calls tag, (z.step (runCalls z.step s calls) z.finish).answer = .ok (some tag) →
    tag.bytes.length = z.lastSize size calls

theorem Compares.keepsSize (hz : z.Compares finish)
    (hresize : ∀ size s, z.size (z.resize size s) = size)
    (hfinish : ∀ s, z.size (finish s).after = z.size s) : z.KeepsSize where
  size_resize := hresize
  size_asks := by
    rintro s call (rfl | ⟨expected, rfl⟩)
    · rw [hz.step_finish]
      exact hfinish s
    · rw [hz.step_verify]
      exact hfinish s

/-- A call that sets no length leaves the one that there is. -/
theorem Lawful.size_step (hz : z.Lawful) (hkeeps : z.KeepsSize) (s : σ)
    (h : z.sets call = none) : z.size (z.step s call).after.1 = z.size s := by
  rcases hz.pass s call h with hcomputes | hsame
  · exact hkeeps.size_asks s call (hcomputes (z.size s)).1
  · -- the step is its own image under the length that is there
    have hown := hsame (z.size s)
    rw [z.resize_size] at hown
    rw [hown]
    exact hkeeps.size_resize _ _

theorem Lawful.size_run (hz : z.Lawful) (hkeeps : z.KeepsSize) (s : σ) (calls : List κ) :
    z.size (runCalls z.step s calls) = z.lastSize (z.size s) calls := by
  induction calls generalizing s with
  | nil => rfl
  | cons call calls ih =>
    rw [runCalls_cons, ih]
    cases hsets : z.sets call with
    | none => rw [hz.size_step hkeeps s hsets, lastSize_cons hsets]
    | some size =>
      obtain rfl : call = z.set size := (z.sets_iff call size).mp hsets
      by_cases hsize : 1 ≤ size ∧ size ≤ z.whole
      · rw [hz.set_step, if_pos hsize, lastSize_cons_accepted hsets hsize]
        exact congrArg (z.lastSize · calls) (hkeeps.size_resize size s)
      · rw [hz.set_step, if_neg hsize, lastSize_cons_refused hsets hsize]
        rfl

theorem lastSize_le {old : Nat} (hold : old ≤ z.whole) (calls : List κ) :
    z.lastSize old calls ≤ z.whole := by
  induction calls generalizing old with
  | nil => exact hold
  | cons call calls ih =>
    cases hsets : z.sets call with
    | none =>
      rw [lastSize_cons hsets]
      exact ih hold
    | some size =>
      by_cases hsize : 1 ≤ size ∧ size ≤ z.whole
      · rw [lastSize_cons_accepted hsets hsize]
        exact ih hsize.2
      · rw [lastSize_cons_refused hsets hsize]
        exact ih hold

theorem Lawful.length_tag (hz : z.Lawful) {tag : Tag}
    (h : (z.step s z.finish).answer = .ok (some tag)) (hsize : z.size s ≤ z.whole) :
    tag.bytes.length = z.size s := by
  cases hz.ends s with
  | refused e hrefused =>
    have hown := hrefused (z.size s)
    rw [z.resize_size, h] at hown
    exact absurd hown (by simp)
  | tag full hfinish _ =>
    have hown := hfinish (z.size s)
    rw [z.resize_size, h] at hown
    obtain rfl := Option.some.inj (Except.ok.inj hown)
    rw [Tag.ofBlock, List.length_take, full.length_toList, Nat.min_eq_left hsize]

/-- **Tags have the length that was set last.** -/
theorem Lawful.givesLength (hz : z.Lawful) (hkeeps : z.KeepsSize) (hs : z.size s = size)
    (hsize : size ≤ z.whole) : z.GivesLength s size := by
  intro calls tag htag
  have hlast : z.size (runCalls z.step s calls) = z.lastSize size calls := by
    rw [hz.size_run hkeeps, hs]
  rw [← hlast]
  refine hz.length_tag htag ?_
  rw [hlast]
  exact lastSize_le hsize calls

end SizedTags

end GostSuite

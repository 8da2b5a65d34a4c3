import GostSuite.Mac.MeshedOmac
import GostSuite.Proofs.Derivation.KeyTree
import GostSuite.Proofs.Sealing.History
import GostSuite.Proofs.Sealing.SealedStream

/-!
# Calls that are refused

A call on a context may be refused at several places, and some of them lie behind the first change
that the call makes: associated data is counted before it is absorbed, a key is looked up for every
block, a stream has turned a piece before its code has seen it. What a caller wants to know does not
depend on the place. A refused call has changed nothing, neither the context nor the buffer that it
was lent. There is one exception, a code that has been compared and found wrong. This ends the
message, and the context is where a code that was asked for would have left it.

`Whole` says that a call on one of the parts works or changes nothing; it is proved of each of them,
once. `Ending` lists the three ways in which a call on a context can end, with the comparison among
them. Only the sealed streams need to know more than their own code: the piece that a receiver has
turned is refused by nobody, since a stream that is open has a code that is open and keyed, and this
holds of streams that can be reached.
-/

set_option autoImplicit false

namespace GostSuite

section Rules

variable {σ κ α β : Type} {s : σ} {ended : StepOutcome σ}

/-- The call has been done, or it has been refused with nothing changed, and not because of a code
that was found wrong. -/
inductive Whole (s : σ) : Outcome σ α → Prop
  | done {s' : σ} {answer : α} : Whole s (.done s' answer)
  | refused {e : Error} (other : e ≠ .authenticationFailed) : Whole s (.refused s e)

/-- The ways in which a call on the context `s` can end that was lent the buffer `lent`. What the
end of the message would leave in its place is `ended`. -/
inductive Ending (s : σ) (lent : ByteString) (ended : StepOutcome σ) : StepOutcome σ → Prop
  | answered {s' : σ} {out : ByteString} {tag : Option Tag} :
    Ending s lent ended (.done (s', out) tag)
  | refused {e : Error} (other : e ≠ .authenticationFailed) :
    Ending s lent ended (.refused (s, lent) e)
  | rejected {s' : σ} {tag : Tag} (finished : ended = .done (s', []) (some tag)) :
    Ending s lent ended (.refused (s', []) .authenticationFailed)

/-- **Calls on `s` do their work or change nothing.** A call that is refused leaves the context and
the buffer as they were. A code that is found wrong leaves the context as `finish` would have left
it, which would have been answered. -/
structure AllOrNothing (step : σ → κ → StepOutcome σ) (buffer : κ → ByteString) (finish : κ)
    (s : σ) : Prop where
  refused : ∀ call e, (step s call).answer = .error e → e ≠ .authenticationFailed →
    (step s call).after = (s, buffer call)
  rejected : ∀ call, (step s call).answer = .error .authenticationFailed →
    ∃ tag, step s finish = .done (step s call).after (some tag)

theorem AllOrNothing.ofEndings {step : σ → κ → StepOutcome σ} {buffer : κ → ByteString} {finish : κ}
    (h : ∀ call, Ending s (buffer call) (step s finish) (step s call)) :
    AllOrNothing step buffer finish s where
  refused call e herror hother := by
    have hending := h call
    generalize step s call = o at hending herror ⊢
    cases hending with
    | answered => cases herror
    | refused => rfl
    | rejected =>
      cases herror
      exact absurd rfl hother
  rejected call herror := by
    have hending := h call
    generalize step s call = o at hending herror ⊢
    cases hending with
    | answered => cases herror
    | refused other =>
      cases herror
      exact absurd rfl other
    | @rejected _ tag finished => exact ⟨tag, finished⟩

theorem Whole.refusedBy {check : Except Error β} {e : Error}
    (hcheck : check ≠ .error .authenticationFailed) (h : check = .error e) :
    Whole s (.refused s e : Outcome σ α) :=
  .refused fun heq => hcheck (h.trans (congrArg Except.error heq))

theorem Whole.ofCheck {check : Except Error Unit} {changed : σ}
    (hcheck : check ≠ .error .authenticationFailed) : Whole s (.ofCheck s check changed) := by
  rcases Outcome.ofCheck_cases s check changed with ⟨-, hset⟩ | ⟨e, herror, hset⟩
  · rw [hset]
    exact .done
  · rw [hset]
    exact .refusedBy hcheck herror

theorem Whole.ofUnit {o : Outcome σ Unit} (h : Whole s o) : Ending s [] ended (.ofUnit o) := by
  cases h with
  | done => exact .answered
  | refused other => exact .refused other

theorem Whole.ofTag {o : Outcome σ Tag} (h : Whole s o) : Ending s [] ended (.ofTag o) := by
  cases h with
  | done => exact .answered
  | refused other => exact .refused other

theorem Whole.ofBuffer {lent : ByteString} {o : Outcome (σ × ByteString) Unit}
    (h : Whole (s, lent) o) : Ending s lent ended (.ofBuffer o) := by
  cases h with
  | @done left =>
    obtain ⟨s', out⟩ := left
    exact .answered
  | refused other => exact .refused other

/-- A comparison ends the message like the request for its code, so it goes as far as that goes. -/
theorem Whole.compared {o : Outcome σ β} (h : Whole s o) {right : β → Bool}
    (hended : ∀ s' value, o = .done s' value → ∃ tag, ended = .done (s', []) (some tag)) :
    Ending s [] ended (.ofUnit (o.judge fun value =>
      if right value then .ok () else .error .authenticationFailed)) := by
  cases h with
  | @done s' value =>
    obtain ⟨tag, hfinished⟩ := hended s' value rfl
    rw [Outcome.done_judge]
    by_cases hright : right value = true
    · rw [if_pos hright]
      exact .answered
    · rw [if_neg hright]
      exact .rejected hfinished
  | refused other => exact .refused other

end Rules

variable {a : Algorithm}

/-! ## 1. Codes and streams -/

theorem Omac.ready_ne_rejection (m : Omac a) : m.ready ≠ .error .authenticationFailed := by
  rw [ready]
  split
  · simp
  · split <;> simp

theorem Omac.whole_update (m : Omac a) (data : ByteString) : Whole m (m.update data) := by
  rw [update]
  split
  · next h => exact .refusedBy m.ready_ne_rejection h
  · exact .done

theorem Omac.whole_finish (m : Omac a) : Whole m m.finish := by
  rw [finish]
  split
  · next h => exact .refusedBy m.ready_ne_rejection h
  · exact .done

theorem Omac.allOrNothing (m : Omac a) : AllOrNothing step (fun _ => []) .finish m := by
  refine .ofEndings fun call => ?_
  cases call with
  | update data => exact (m.whole_update data).ofUnit
  | finish => exact m.whole_finish.ofTag
  | verify expected =>
    refine m.whole_finish.compared fun s' tag hfinish => ⟨tag, ?_⟩
    rw [step, hfinish]
    rfl
  | reset | setKey _ => exact Whole.done.ofUnit
  | setMacLen size => exact (Whole.ofCheck (guard_ne_error (by simp))).ofUnit

theorem MeshedOmac.ready_ne_rejection (m : MeshedOmac a) : m.ready ≠ .error .authenticationFailed := by
  rw [ready]
  split
  · simp
  · split <;> simp

theorem MeshedOmac.whole_update (m : MeshedOmac a) (data : ByteString) : Whole m (m.update data) := by
  rw [update]
  split
  · next h => exact .refusedBy m.ready_ne_rejection h
  · exact .done

theorem MeshedOmac.whole_finish (m : MeshedOmac a) : Whole m m.finish := by
  rw [finish]
  split
  · next h => exact .refusedBy m.ready_ne_rejection h
  · exact .done

theorem MeshedOmac.allOrNothing (m : MeshedOmac a) : AllOrNothing step (fun _ => []) .finish m := by
  refine .ofEndings fun call => ?_
  cases call with
  | update data => exact (m.whole_update data).ofUnit
  | finish => exact m.whole_finish.ofTag
  | verify expected =>
    refine m.whole_finish.compared fun s' tag hfinish => ⟨tag, ?_⟩
    rw [step, hfinish]
    rfl
  | reset => exact Whole.done.ofUnit
  | setKey key => exact (Whole.ofCheck (guard_ne_error (by simp))).ofUnit
  | setMacLen size => exact (Whole.ofCheck (guard_ne_error (by simp))).ofUnit
  | setSections sectionLen masterSection =>
    have hsections : ∀ size, Bounds.macSection a size ≠ .error .authenticationFailed :=
      fun _ => guard_ne_error (by simp)
    exact (Whole.ofCheck (bind_ne_error (hsections _) fun _ => hsections _)).ofUnit

/-- The buffer that is lent to the call. -/
def CounterStream.Call.buffer : Call → ByteString
  | .apply data | .keystream data => data
  | .setSection _ => []

theorem CounterStream.refused {s : CounterStream a} {call : Call} {e : Error}
    (h : (step s call).answer = .error e) : (step s call).after = (s, call.buffer) := by
  cases call with
  | apply data => cases h
  | keystream data => cases h
  | setSection sectionLen =>
    rcases Outcome.ofCheck_cases s (Bounds.streamSection a sectionLen)
        { s with sectionLen := sectionLen } with ⟨-, hset⟩ | ⟨e, -, hset⟩
    · rw [step, setSection, hset] at h
      cases h
    · rw [step, setSection, hset]
      rfl

theorem KeyTree.refused {key label seed out : ByteString} {counterLen : Nat} {e : Error}
    (h : (fill key label seed counterLen out).answer = .error e) :
    (fill key label seed counterLen out).after = out := by
  rw [fill_eq] at h ⊢
  cases hderive : derive key label seed counterLen out.length with
  | error e => rfl
  | ok derived =>
    rw [hderive] at h
    cases h

/-! ## 2. The authenticated mode -/

namespace Mgm

variable {m : Mgm a}

theorem openFor_ne_rejection (m : Mgm a) (wanted : Phase → Bool) :
    m.openFor wanted ≠ .error .authenticationFailed := by
  cases hcipher : m.cipher with
  | none =>
    rw [openFor_unkeyed hcipher]
    simp
  | some c =>
    rw [openFor_keyed hcipher]
    exact guard_ne_error (by simp)

theorem takes_ne_rejection (m : Mgm a) (len : Nat) :
    m.takesAad len ≠ .error .authenticationFailed ∧
      m.takesData len ≠ .error .authenticationFailed :=
  takes_ne_error m.openFor_ne_rejection (by simp) len

theorem whole_setIv (m : Mgm a) (nonce : ByteString) : Whole m (m.setIv nonce) := by
  rw [setIv, keyed, Bytes.read]
  cases m.cipher with
  | none => exact .refused (by simp)
  | some c =>
    cases Bytes.ofList? a.blockLen nonce with
    | none => exact .refused (by simp)
    | some nonce => exact .done

theorem whole_updateAad (m : Mgm a) (aad : ByteString) : Whole m (m.updateAad aad) := by
  rw [updateAad_eq]
  split
  · next h => exact .refusedBy (m.takes_ne_rejection _).1 h
  · exact .done

theorem whole_turn (m : Mgm a) (d : Direction) (data : ByteString) :
    Whole (m, data) (m.turn d data) := by
  rw [turn_eq]
  split
  · next h => exact .refusedBy (m.takes_ne_rejection _).2 h
  · split
    · exact .done
    · exact .done

theorem whole_finalize (m : Mgm a) : Whole m m.finalize := by
  rw [finalize_eq]
  split
  · next h => exact .refusedBy (m.openFor_ne_rejection _) h
  · exact .done

theorem whole_finish (m : Mgm a) : Whole m m.finish := by
  have hwhole := m.whole_finalize
  rw [Mgm.finish]
  generalize m.finalize = o at hwhole ⊢
  cases hwhole with
  | done => exact .done
  | refused other => exact .refused other

theorem allOrNothing (m : Mgm a) : AllOrNothing step Call.buffer .finish m := by
  have htagLen {len : Nat} : Bounds.tagLen a len ≠ .error .authenticationFailed :=
    guard_ne_error (by simp)
  refine .ofEndings fun call => ?_
  cases call with
  | setKey key => exact Whole.done.ofUnit
  | setIv nonce => exact (m.whole_setIv nonce).ofUnit
  | updateAad aad => exact (m.whole_updateAad aad).ofUnit
  | encrypt data => exact (m.whole_turn .encrypting data).ofBuffer
  | decrypt data => exact (m.whole_turn .decrypting data).ofBuffer
  | finish => exact m.whole_finish.ofTag
  | verify expected =>
    change Ending m [] (step m .finish) (.ofUnit (m.verify expected))
    rw [Mgm.verify]
    split
    · next h => exact (Whole.refusedBy htagLen h).ofUnit
    · refine m.whole_finalize.compared fun s' full hfinalize => ⟨.ofBlock full m.tagLen, ?_⟩
      rw [step, Mgm.finish, hfinalize]
      rfl
  | setTagLen len => exact (Whole.ofCheck htagLen).ofUnit

end Mgm

/-! ## 3. Sealed streams -/

namespace SealedStream

variable {s : SealedStream a}

/-- A stream has been finished, or a message is under way. -/
theorem finished_or_reached (h : Reachable New step s) :
    s.finished = true ∨ ∃ k size message, Reached k size message s := by
  induction h with
  | made new =>
    obtain ⟨k, size, hreached⟩ := new.reached
    exact .inr ⟨k, size, [], hreached⟩
  | called _ call ih =>
    rcases ih with hfinished | ⟨k, size, message, hreached⟩
    · exact .inl (finished_step hfinished call)
    · cases hends : call.ends with
      | true => exact .inl (hreached.ends hends)
      | false => exact .inr ⟨k, hreached.goes_on hends⟩

theorem whole_setMacLen (s : SealedStream a) (size : Nat) : Whole s (s.setMacLen size) := by
  have hcode : Whole s.code (s.code.setMacLen size) := .ofCheck (guard_ne_error (by simp))
  rw [setMacLen]
  generalize s.code.setMacLen size = o at hcode ⊢
  cases hcode with
  | done => exact .done
  | refused other => exact .refused other

section

variable {k : Setup a} {size : Nat} {message : ByteString}

theorem Reached.whole_encrypt (h : Reached k size message s) (data : ByteString) :
    Whole (s, data) (s.encrypt data) := by
  obtain ⟨s', hencrypt, -⟩ := h.encrypt data
  rw [hencrypt]
  exact .done

/-- The stream turns the piece before the code takes it, and the code takes it. -/
theorem Reached.whole_decrypt (h : Reached k size message s) (data : ByteString) :
    Whole (s, data) (s.decrypt data) := by
  obtain ⟨s', hdecrypt, -⟩ := h.decrypt data
  rw [hdecrypt]
  exact .done

theorem Reached.whole_finish (h : Reached k size message s) : Whole s s.finish := by
  obtain ⟨s', hfinish, -⟩ := h.finish
  rw [hfinish]
  exact .done

end

theorem allOrNothing (h : Reachable New step s) :
    AllOrNothing step Call.buffer .finish s := by
  refine .ofEndings fun call => ?_
  rcases finished_or_reached h with hfinished | ⟨k, size, message, hreached⟩
  · by_cases hcall : (call.turns || call.ends) = true
    · rw [closed_of_finished hfinished call hcall]
      exact .refused (by simp)
    · cases call with
      | setMacLen size => exact (s.whole_setMacLen size).ofUnit
      | encrypt _ | decrypt _ | finish | verify _ =>
        exact absurd hcall (by simp [Call.turns, Call.ends])
  · cases call with
    | encrypt data => exact (hreached.whole_encrypt data).ofBuffer
    | decrypt data => exact (hreached.whole_decrypt data).ofBuffer
    | finish => exact hreached.whole_finish.ofTag
    | verify expected =>
      refine hreached.whole_finish.compared fun s' tag hfinish => ⟨tag, ?_⟩
      rw [step, hfinish]
      rfl
    | setMacLen size => exact (s.whole_setMacLen size).ofUnit

end SealedStream

/-! ## 4. The law -/

/-- **A refused call changes nothing.** Whatever has been called on a context before, a call that is
refused leaves every part of it as it was, and every byte of the buffer that it was lent. A code
that is found wrong is the exception: it leaves the context as a code that was asked for would have
left it. A request for derived bytes that is refused leaves its buffer as it was. -/
theorem refused_calls_change_nothing (a : Algorithm) :
    (∀ m : Mgm a, AllOrNothing Mgm.step Mgm.Call.buffer .finish m) ∧
      (∀ m : Omac a, AllOrNothing Omac.step (fun _ => []) .finish m) ∧
      (∀ m : MeshedOmac a, AllOrNothing MeshedOmac.step (fun _ => []) .finish m) ∧
      (∀ (s : CounterStream a) (call : CounterStream.Call) (e : Error),
        (s.step call).answer = .error e → (s.step call).after = (s, call.buffer)) ∧
      (∀ s : SealedStream a, Reachable SealedStream.New SealedStream.step s →
        AllOrNothing SealedStream.step SealedStream.Call.buffer .finish s) ∧
      ∀ (key label seed out : ByteString) (counterLen : Nat) (e : Error),
        (KeyTree.fill key label seed counterLen out).answer = .error e →
          (KeyTree.fill key label seed counterLen out).after = out :=
  ⟨Mgm.allOrNothing, Omac.allOrNothing, MeshedOmac.allOrNothing, fun _ _ _ => CounterStream.refused,
    fun _ => SealedStream.allOrNothing, fun _ _ _ _ _ _ => KeyTree.refused⟩

/-- A key is missing, a code is compared with nothing, a piece comes too late, and a counter is too
wide. -/
theorem refused_calls_magma :
    let m : Omac .magma := .ofKey .magma (.zero 32)
    (Mgm.step (.unkeyed .magma) (.encrypt [1, 2])).after = (.unkeyed .magma, [1, 2]) ∧
      (∃ tag, Omac.step m .finish = .done (Omac.step m (.verify [])).after (some tag)) ∧
      (∃ s : SealedStream .magma, Reachable SealedStream.New SealedStream.step s ∧
        (s.step (.decrypt [4, 5])).answer = .error .badOrder ∧
        (s.step (.decrypt [4, 5])).after = (s, [4, 5])) ∧
      (KeyTree.fill [1] [2] [3] 5 [4]).after = [4] := by
  intro m
  obtain ⟨hmgm, homac, -, -, hsealed, hfill⟩ := refused_calls_change_nothing .magma
  refine ⟨(hmgm _).refused (.encrypt [1, 2]) .keyNotSet rfl (by simp), ?_, ?_,
    hfill [1] [2] [3] [4] 5 _ rfl⟩
  · have hwrong : ∀ block : Block .magma, ¬(Tag.ofBlock block 8).verify [] = true := by
      intro block h
      have hlen := congrArg List.length ((Tag.verify_iff _ _).mp h)
      rw [Tag.ofBlock, List.length_take, Bytes.length_toList] at hlen
      exact absurd hlen (by decide)
    have hfinish : m.finish = .done { m with finished := true }
        ((MacKey.ofCipher (.ofKey .magma (.zero 32))).close m.chain 8) := rfl
    have hanswer : (m.verify []).answer = .error .authenticationFailed := by
      rw [Omac.verify, hfinish, Outcome.done_judge, MacKey.close, if_neg (hwrong _)]
    exact (homac m).rejected (.verify []) (congrArg (Except.map fun _ => none) hanswer)
  · have hmade : ∃ s : SealedStream .magma,
        SealedStream.ofKey .magma (.zero 32) (List.replicate 8 7) [1, 2, 3, 4] 16 = .ok s :=
      SealedStream.derived_ok (.zero 32) rfl rfl rfl (by decide)
    obtain ⟨s, hmade⟩ := hmade
    have hnew : s.New := .ofKey hmade
    have hreach : Reachable SealedStream.New SealedStream.step (s.step .finish).after.1 :=
      .called (.made hnew) SealedStream.Call.finish
    obtain ⟨_, _, hreached⟩ := hnew.reached
    have hfinished : (s.step .finish).after.1.finished = true := hreached.ends rfl
    have hlate : ((s.step .finish).after.1.step (.decrypt [4, 5])).answer = .error .badOrder := by
      rw [SealedStream.closed_of_finished hfinished (.decrypt [4, 5]) rfl]
      rfl
    exact ⟨_, hreach, hlate, (hsealed _ hreach).refused _ _ hlate (by simp)⟩

end GostSuite

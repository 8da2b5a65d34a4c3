import GostSuite.Outcome

/-!
# Sessions in which every call goes through

A statement about all ways of cutting a message is a statement about lists of calls: whatever the
list, all of its calls are answered, and their buffers put together are one string that depends on
the message alone. `GoesThrough` is that statement without the mode. It says of a list of calls from
one context to another that no call is refused, and what the calls give back altogether.

It composes (`GoesThrough.append`), so a session is proved phase by phase, and a phase call by call
(`GoesThrough.cons`). A statement about calls that may be refused looks at the context only, and
takes the list from its end (`runCalls_concat`). If the list does not matter either, it is about
`Reachable` contexts: made in some way, and called in any way since.
-/

set_option autoImplicit false

namespace GostSuite

variable {σ κ : Type} {step : σ → κ → StepOutcome σ}

theorem runCalls_cons (s : σ) (call : κ) (calls : List κ) :
    runCalls step s (call :: calls) = runCalls step (step s call).after.1 calls :=
  List.foldl_cons ..

theorem runCalls_concat (s : σ) (calls : List κ) (call : κ) :
    runCalls step s (calls ++ [call]) = (step (runCalls step s calls) call).after.1 := by
  rw [runCalls, List.foldl_append]
  rfl

/-- What every call keeps holds after any calls. -/
theorem runCalls_keeps {P : σ → Prop} (hstep : ∀ s call, P s → P (step s call).after.1) {s : σ}
    (h : P s) (calls : List κ) : P (runCalls step s calls) := by
  induction calls generalizing s with
  | nil => exact h
  | cons call calls ih =>
    rw [runCalls_cons]
    exact ih (hstep s call h)

/-- The context has been made in one of the ways `Made`, and has been called in any way since. -/
inductive Reachable (Made : σ → Prop) (step : σ → κ → StepOutcome σ) : σ → Prop
  | made {s : σ} (h : Made s) : Reachable Made step s
  | called {s : σ} (h : Reachable Made step s) (call : κ) :
    Reachable Made step (step s call).after.1

theorem Reachable.run {Made : σ → Prop} {s : σ} (h : Reachable Made step s) (calls : List κ) :
    Reachable Made step (runCalls step s calls) := by
  induction calls generalizing s with
  | nil => exact h
  | cons call calls ih =>
    rw [runCalls_cons]
    exact ih (h.called call)

/-- What holds of new contexts and is kept by every call holds of all contexts. -/
theorem Reachable.invariant {Made Holds : σ → Prop} (hmade : ∀ s, Made s → Holds s)
    (hcall : ∀ s call, Holds s → Holds (step s call).after.1) {s : σ}
    (h : Reachable Made step s) : Holds s := by
  induction h with
  | made h => exact hmade _ h
  | called _ call ih => exact hcall _ call ih

/-- The calls `calls` are all answered, with no tag among the answers. Their buffers hold `out`
altogether, and the context is `s'` after them. -/
structure GoesThrough (step : σ → κ → StepOutcome σ) (s : σ) (calls : List κ) (out : ByteString)
    (s' : σ) : Prop where
  answers : ∀ o ∈ transcript step s calls, o.answer = .ok none
  output : (transcript step s calls).flatMap (fun o => o.after.2) = out
  final : runCalls step s calls = s'

namespace GoesThrough

theorem nil (s : σ) : GoesThrough step s [] [] s :=
  ⟨fun _ h => absurd h List.not_mem_nil, rfl, rfl⟩

theorem cons {s s₁ s' : σ} {call : κ} {calls : List κ} {out more : ByteString}
    (hcall : step s call = .done (s₁, out) none) (hcalls : GoesThrough step s₁ calls more s') :
    GoesThrough step s (call :: calls) (out ++ more) s' := by
  have htr : transcript step s (call :: calls) =
      .done (s₁, out) none :: transcript step s₁ calls := by
    rw [transcript, hcall]
    rfl
  refine ⟨?_, ?_, ?_⟩
  · intro o ho
    rw [htr] at ho
    rcases List.mem_cons.mp ho with rfl | ho
    · rfl
    · exact hcalls.answers o ho
  · rw [htr, List.flatMap_cons, hcalls.output]
    rfl
  · rw [runCalls_cons, hcall]
    exact hcalls.final

theorem append {s s₁ s' : σ} {calls more : List κ} {out rest : ByteString}
    (hcalls : GoesThrough step s calls out s₁) (hmore : GoesThrough step s₁ more rest s') :
    GoesThrough step s (calls ++ more) (out ++ rest) s' := by
  induction calls generalizing s out with
  | nil =>
    obtain ⟨-, rfl, rfl⟩ := hcalls
    exact hmore
  | cons call calls ih =>
    have hfirst : (step s call).answer = .ok none :=
      hcalls.answers _ (List.mem_cons_self ..)
    have hstep : step s call = .done ((step s call).after.1, (step s call).after.2) none := by
      rw [Outcome.done, ← hfirst]
    have hrest : GoesThrough step (step s call).after.1 calls
        ((transcript step (step s call).after.1 calls).flatMap fun o => o.after.2) s₁ :=
      ⟨fun o ho => hcalls.answers o (List.mem_cons_of_mem _ ho), rfl, hcalls.final⟩
    have hout : out = (step s call).after.2 ++
        (transcript step (step s call).after.1 calls).flatMap fun o => o.after.2 := by
      rw [← hcalls.output, transcript, List.flatMap_cons]
    rw [hout, List.append_assoc]
    exact cons hstep (ih hrest)

/-- A message goes through in pieces if each piece does. What is known of a context by the message
so far is known of the last one by the whole message. -/
theorem ofPieces {Fed : ByteString → σ → Prop} {call : ByteString → κ}
    (hpiece : ∀ message s, Fed message s → ∀ piece,
      ∃ s', step s (call piece) = .done (s', []) none ∧ Fed (message ++ piece) s')
    {message : ByteString} {s : σ} (h : Fed message s) (pieces : List ByteString) :
    ∃ s', GoesThrough step s (pieces.map call) [] s' ∧ Fed (message ++ pieces.flatten) s' := by
  induction pieces generalizing message s with
  | nil => exact ⟨s, nil s, by rwa [List.flatten_nil, List.append_nil]⟩
  | cons piece pieces ih =>
    obtain ⟨s₁, hcall, hfed⟩ := hpiece message s h piece
    obtain ⟨s', hgo, hend⟩ := ih hfed
    refine ⟨s', cons hcall hgo, ?_⟩
    rwa [List.flatten_cons, ← List.append_assoc]

end GoesThrough

end GostSuite

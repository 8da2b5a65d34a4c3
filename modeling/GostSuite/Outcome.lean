import GostSuite.Error
import GostSuite.Tag

/-!
# What a call leaves behind

A context is a value, and a call on it gives the next value together with an answer. It does so
also when it is refused: a caller who is told "no" still holds a context, and what state that
context is in is part of the call's meaning. So an `Outcome` has both, and "a refused call changes
nothing" is a statement about every operation and not a habit of the notation.

An in-place call is lent the caller's buffer as well. What it may change is then the context
together with the buffer, and that pair takes the place of the context.

Each context also lists its calls as data, and a step function that makes them. A history of a
context is then a list. All steps have one shape: every call is lent a buffer, an empty one if it
has no use for it, and answers with a tag or with nothing.
-/

set_option autoImplicit false

namespace GostSuite

/-- What a call on a value of `σ` leaves: the value after it, and the answer. -/
structure Outcome (σ α : Type) where
  after : σ
  answer : Except Error α

namespace Outcome

variable {σ α β : Type}

def refused (s : σ) (e : Error) : Outcome σ α := ⟨s, .error e⟩

def done (s : σ) (a : α) : Outcome σ α := ⟨s, .ok a⟩

theorem refused_ne_done {s t : σ} {e : Error} {a : α} : refused s e ≠ done t a := by
  intro h
  cases h

theorem done_inj {s t : σ} {a b : α} : done s a = done t b ↔ s = t ∧ a = b := by
  constructor
  · intro h
    cases h
    exact ⟨rfl, rfl⟩
  · rintro ⟨rfl, rfl⟩
    rfl

/-- Goes on to judge the answer; the value left stays as it is. -/
def judge (o : Outcome σ α) (f : α → Except Error β) : Outcome σ β :=
  ⟨o.after, o.answer.bind f⟩

@[simp] theorem done_judge (s : σ) (answer : α) (f : α → Except Error β) :
    (done s answer).judge f = ⟨s, f answer⟩ := rfl

/-- Goes on from the value that is left, if there is an answer to go on with. What has been changed
up to a refusal stays changed. -/
def andThen (o : Outcome σ α) (next : σ → α → Outcome σ β) : Outcome σ β :=
  match o.answer with
  | .error e => .refused o.after e
  | .ok answer => next o.after answer

@[simp] theorem done_andThen (s : σ) (answer : α) (next : σ → α → Outcome σ β) :
    (done s answer).andThen next = next s answer := rfl

/-- The call that changes a number after it has been checked. -/
def ofCheck (s : σ) (check : Except Error Unit) (changed : σ) : Outcome σ Unit :=
  match check with
  | .ok _ => .done changed ()
  | .error e => .refused s e

/-- A checked change is made as a whole or not at all. -/
theorem ofCheck_cases (s : σ) (check : Except Error Unit) (changed : σ) :
    check = .ok () ∧ ofCheck s check changed = .done changed () ∨
      ∃ e, check = .error e ∧ ofCheck s check changed = .refused s e := by
  cases check with
  | ok _ => exact .inl ⟨rfl, rfl⟩
  | error e => exact .inr ⟨e, rfl, rfl⟩

/-- What holds before a checked change, and of the changed value if the check passes, holds after
it. -/
theorem ofCheck_keeps {P : σ → Prop} {s changed : σ} {check : Except Error Unit} (h : P s)
    (hchanged : check = .ok () → P changed) : P (ofCheck s check changed).after := by
  cases check with
  | ok _ => exact hchanged rfl
  | error e => exact h

end Outcome

/-- What a step on a context leaves: the context and the buffer, and a tag if the call makes one. -/
abbrev StepOutcome (σ : Type) := Outcome (σ × ByteString) (Option Tag)

namespace StepOutcome

variable {σ : Type}

def ofUnit (o : Outcome σ Unit) : StepOutcome σ :=
  ⟨(o.after, []), o.answer.map fun _ => none⟩

def ofTag (o : Outcome σ Tag) : StepOutcome σ :=
  ⟨(o.after, []), o.answer.map some⟩

def ofBuffer (o : Outcome (σ × ByteString) Unit) : StepOutcome σ :=
  ⟨o.after, o.answer.map fun _ => none⟩

end StepOutcome

/-- The context after a list of calls, whatever their answers. -/
def runCalls {σ κ : Type} (step : σ → κ → StepOutcome σ) (s : σ) (calls : List κ) : σ :=
  calls.foldl (fun s call => (step s call).after.1) s

/-- What each of a list of calls leaves, in turn. -/
def transcript {σ κ : Type} (step : σ → κ → StepOutcome σ) (s : σ) : List κ → List (StepOutcome σ)
  | [] => []
  | call :: calls => step s call :: transcript step (step s call).after.1 calls

end GostSuite

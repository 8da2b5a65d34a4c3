import GostSuite.Proofs.Mac.Contexts

/-!
# One tag for a chain

A code that has been given out, or compared, must not be asked for again: whoever could go on
guessing against the same chain would need no key. Both codes see to it with a flag, and the flag is
one of two things that a call may be refused for. The other is a missing key, and a reset brings
back keys that were put aside when the context was keyed. So the two are not as independent as they
look: a context that is finished and has lost its key would give the wrong reason.

No call gets there. A context is at one of three stages, and `Stage.next` is the whole course of a
code: which call leads from where to where, for both codes and whatever the calls carry.
`Code.Obeys` says that a context keeps to the course: it answers as its stage says, and each call
takes it where the course goes. That is one step, and it needs to be known of each code what a
single call does to the flag and to the key (`Code.Ends`). A run is the same course followed call by
call (`Code.stage_run`). A second code without a reset or a key in between is then a question about the
course alone, which has no way back from its end but these two (`Code.restart_between`).
-/

set_option autoImplicit false

namespace GostSuite

/-! ## 1. The course -/

/-- How far a code has come. -/
inductive Stage where
  /-- There is no key. -/
  | unkeyed
  /-- The message is being taken. -/
  | taking
  /-- The code has been computed. -/
  | finished
  deriving DecidableEq

/-- What a call on a code is for. -/
inductive Role where
  | update
  | finish
  | verify
  | reset
  | key
  /-- One of the lengths is set. -/
  | setting
  deriving DecidableEq

namespace Role

/-- The call works on the message: it brings bytes, or it asks for the code. -/
def works : Role → Bool
  | update | finish | verify => true
  | reset | key | setting => false

/-- The call asks for the code, to have it or to compare it. -/
def asks : Role → Bool
  | finish | verify => true
  | update | reset | key | setting => false

/-- The call starts a chain. -/
def restarts : Role → Bool
  | reset | key => true
  | update | finish | verify | setting => false

end Role

namespace Stage

/-- Where a call leads. -/
def next : Stage → Role → Stage
  | _, .key => taking
  | finished, .reset => taking
  | taking, .finish | taking, .verify => finished
  | stage, _ => stage

/-- What a call that works on the message is refused for. -/
def refusal : Stage → Option Error
  | unkeyed => some .macKeyNotSet
  | taking => none
  | finished => some .badOrder

variable {stage : Stage} {role : Role}

theorem refusal_ne_rejection (stage : Stage) : stage.refusal ≠ some .authenticationFailed := by
  cases stage <;> simp [refusal]

theorem next_of_refusal {e : Error} (h : stage.refusal = some e) (hrole : role.works = true) :
    stage.next role = stage := by
  cases stage with
  | taking => exact absurd h (by simp [refusal])
  | unkeyed | finished =>
    cases role with
    | update | finish | verify => rfl
    | reset | key | setting => exact absurd hrole (by decide)

/-- The end of the course is left by a reset or a key only. -/
theorem foldl_next_finished {roles : List Role} (h : ∀ role ∈ roles, role.restarts = false) :
    roles.foldl next finished = finished := by
  induction roles with
  | nil => rfl
  | cons role roles ih =>
    obtain ⟨hrole, hroles⟩ := List.forall_mem_cons.mp h
    have hstays : finished.next role = finished := by
      cases role with
      | update | finish | verify | setting => rfl
      | reset | key => exact absurd hrole (by decide)
    rw [List.foldl_cons, hstays, ih hroles]

end Stage

/-! ## 2. Codes that keep to the course -/

/-- A message code, as far as its course goes. -/
structure Code (σ κ : Type) where
  step : σ → κ → StepOutcome σ
  role : κ → Role
  /-- The request for the tag. -/
  finish : κ
  keyed : σ → Bool
  finished : σ → Bool

namespace Code

variable {σ κ : Type} {code : Code σ κ} {Made : σ → Prop} {s : σ} {role : Role} {o : StepOutcome σ}

/-- The stage of a context. Whether it is finished is looked at first. -/
def stage (code : Code σ κ) (s : σ) : Stage :=
  if code.finished s then .finished else if code.keyed s then .taking else .unkeyed

/-- The ways in which a call on the context `s` can end, by what it is for. -/
inductive Ends (code : Code σ κ) (s : σ) : Role → StepOutcome σ → Prop
  | refused {role : Role} {e : Error} (works : role.works = true)
    (refusal : (code.stage s).refusal = some e) : Ends code s role (.refused (s, []) e)
  | updated {s' : σ} (taking : code.stage s = .taking) (after : code.stage s' = .taking) :
    Ends code s .update (.done (s', []) none)
  | finished {s' : σ} {tag : Tag} (taking : code.stage s = .taking)
    (flag : code.finished s' = true) (key : code.keyed s' = true) :
    Ends code s .finish (.done (s', []) (some tag))
  | accepted {s' : σ} (taking : code.stage s = .taking)
    (flag : code.finished s' = true) (key : code.keyed s' = true) :
    Ends code s .verify (.done (s', []) none)
  | rejected {s' : σ} (taking : code.stage s = .taking)
    (flag : code.finished s' = true) (key : code.keyed s' = true) :
    Ends code s .verify (.refused (s', []) .authenticationFailed)
  | reset {s' : σ} (flag : code.finished s' = false) (key : code.keyed s' = code.keyed s) :
    Ends code s .reset (.done (s', []) none)
  | keyed {s' : σ} (after : code.stage s' = .taking) : Ends code s .key (.done (s', []) none)
  | set {s' : σ} {answer : Except Error (Option Tag)} (flag : code.finished s' = code.finished s)
    (key : code.keyed s' = code.keyed s) : Ends code s .setting ⟨(s', []), answer⟩

theorem stage_of_finished (h : code.finished s = true) : code.stage s = .finished := by
  rw [stage, if_pos h]

theorem taking_iff : code.stage s = .taking ↔ code.finished s = false ∧ code.keyed s = true := by
  rw [stage]
  cases code.finished s <;> cases code.keyed s <;> simp

/-- A call leads where the course goes, if its context has not finished without a key. -/
theorem Ends.moves (h : code.Ends s role o)
    (hkeyed : code.finished s = true → code.keyed s = true) :
    code.stage o.after.1 = (code.stage s).next role := by
  cases h with
  | refused works refusal => exact (Stage.next_of_refusal refusal works).symm
  | updated taking after =>
    rw [taking]
    exact after
  | finished taking flag _ | accepted taking flag _ | rejected taking flag _ =>
    rw [taking]
    exact stage_of_finished flag
  | @reset s' flag key =>
    change code.stage s' = _
    rw [stage, flag, key, stage]
    cases hfinished : code.finished s with
    | true =>
      rw [hkeyed hfinished]
      rfl
    | false => cases code.keyed s <;> rfl
  | keyed after =>
    cases code.stage s <;> exact after
  | @set s' _ flag key =>
    change code.stage s' = _
    rw [stage, flag, key, ← stage]
    cases code.stage s <;> rfl

theorem Ends.keyed_after (h : code.Ends s role o)
    (hkeyed : code.finished s = true → code.keyed s = true)
    (hfinished : code.finished o.after.1 = true) : code.keyed o.after.1 = true := by
  cases h with
  | refused => exact hkeyed hfinished
  | updated _ after | keyed after => exact (taking_iff.mp after).2
  | finished _ _ key | accepted _ _ key | rejected _ _ key => exact key
  | reset flag _ => exact absurd (flag.symm.trans hfinished) (by decide)
  | set flag key => exact key.trans (hkeyed (flag.symm.trans hfinished))

/-- A call that works on the message is refused at the stages where the course refuses it, and the
context stays as it was. -/
theorem Ends.refused_of (h : code.Ends s role o) (hworks : role.works = true) {e : Error}
    (hrefusal : (code.stage s).refusal = some e) : o = .refused (s, []) e := by
  have hopen : code.stage s ≠ .taking := fun htaking => by
    rw [htaking] at hrefusal
    cases hrefusal
  cases h with
  | refused _ refusal => rw [Option.some.inj (refusal.symm.trans hrefusal)]
  | updated taking _ | finished taking _ _ | accepted taking _ _ | rejected taking _ _ =>
    exact absurd taking hopen
  | reset | keyed | set => exact absurd hworks (by decide)

/-- At the stage at which the message is taken, pieces of it are taken. -/
theorem Ends.answer_update (h : code.Ends s .update o) (htaking : code.stage s = .taking) :
    o.answer = .ok none := by
  cases h with
  | refused _ refusal =>
    rw [htaking] at refusal
    cases refusal
  | updated => rfl

theorem Ends.answer_finish (h : code.Ends s .finish o) (htaking : code.stage s = .taking) :
    ∃ tag, o.answer = .ok (some tag) := by
  cases h with
  | refused _ refusal =>
    rw [htaking] at refusal
    cases refusal
  | @finished _ tag => exact ⟨tag, rfl⟩

theorem Ends.answer_verify (h : code.Ends s .verify o) (htaking : code.stage s = .taking) :
    o.answer = .ok none ∨ o.answer = .error .authenticationFailed := by
  cases h with
  | refused _ refusal =>
    rw [htaking] at refusal
    cases refusal
  | accepted => exact .inl rfl
  | rejected => exact .inr rfl

/-! ## 3. Runs -/

/-- The call has the code computed: it asks for it, and is given it or told what comparing it has
shown. -/
def Computes (code : Code σ κ) (s : σ) (call : κ) : Prop :=
  (code.role call).asks = true ∧
    ((∃ tag, (code.step s call).answer = .ok tag) ∨
      (code.step s call).answer = .error .authenticationFailed)

theorem Ends.taking_of_answer (h : code.Ends s role o) (hasks : role.asks = true)
    (hanswer : (∃ tag, o.answer = .ok tag) ∨ o.answer = .error .authenticationFailed) :
    code.stage s = .taking ∧ code.stage o.after.1 = .finished := by
  cases h with
  | refused _ refusal =>
    rcases hanswer with ⟨tag, hok⟩ | hrejected
    · cases hok
    · cases hrejected
      exact absurd refusal (Stage.refusal_ne_rejection _)
  | finished taking flag _ | accepted taking flag _ | rejected taking flag _ =>
    exact ⟨taking, stage_of_finished flag⟩
  | updated | reset | keyed | set => exact absurd hasks (by decide)

/-- The context keeps to the course: it is not finished without a key, and its calls end in the ways
in which calls can end. -/
structure Obeys (code : Code σ κ) (s : σ) : Prop where
  keyed : code.finished s = true → code.keyed s = true
  ends : ∀ call, code.Ends s (code.role call) (code.step s call)

/-- Contexts keep to the course if none of them is made finished. -/
theorem obeys_of_reachable (hmade : ∀ s, Made s → code.finished s = false)
    (hends : ∀ s, Reachable Made code.step s → ∀ call,
      code.Ends s (code.role call) (code.step s call))
    (h : Reachable Made code.step s) : code.Obeys s := by
  refine ⟨?_, hends s h⟩
  induction h with
  | made h => exact fun hfinished => absurd ((hmade _ h).symm.trans hfinished) (by decide)
  | called h call ih => exact (hends _ h call).keyed_after ih

/-- The course of a run is decided by what its calls are for. -/
theorem stage_run (hobeys : ∀ s, Reachable Made code.step s → code.Obeys s)
    (h : Reachable Made code.step s) (calls : List κ) :
    code.stage (runCalls code.step s calls) =
      (calls.map code.role).foldl Stage.next (code.stage s) := by
  induction calls generalizing s with
  | nil => rfl
  | cons call calls ih =>
    have hmoves := ((hobeys s h).ends call).moves (hobeys s h).keyed
    rw [runCalls_cons, ih (h.called call), hmoves, List.map_cons, List.foldl_cons]

/-- **Between two codes a chain is started.** -/
theorem restart_between (hobeys : ∀ s, Reachable Made code.step s → code.Obeys s)
    (h : Reachable Made code.step s) {first second : κ} {between : List κ}
    (hfirst : code.Computes s first)
    (hsecond : code.Computes (runCalls code.step s (first :: between)) second) :
    ∃ call ∈ between, (code.role call).restarts = true := by
  by_contra hnone
  have hbetween : ∀ role ∈ between.map code.role, role.restarts = false := by
    intro role hrole
    obtain ⟨call, hcall, rfl⟩ := List.mem_map.mp hrole
    exact Bool.eq_false_iff.mpr fun hrestarts => hnone ⟨call, hcall, hrestarts⟩
  obtain ⟨-, hended⟩ := ((hobeys s h).ends first).taking_of_answer hfirst.1 hfirst.2
  have hstays : code.stage (runCalls code.step s (first :: between)) = .finished := by
    rw [runCalls_cons, stage_run hobeys (h.called first), hended,
      Stage.foldl_next_finished hbetween]
  obtain ⟨htaking, -⟩ :=
    ((hobeys _ (h.run (first :: between))).ends second).taking_of_answer hsecond.1 hsecond.2
  exact absurd (hstays.symm.trans htaking) (by decide)

/-- **One code for a chain.** What holds of a context whatever was called on it, and of all calls on
it that follow. -/
structure OneTag (code : Code σ κ) (s : σ) : Prop where
  /-- A finished context has a key. -/
  keyed : code.finished s = true → code.keyed s = true
  unkeyed : code.keyed s = false → ∀ call, (code.role call).works = true →
    code.step s call = .refused (s, []) .macKeyNotSet
  ended : code.keyed s = true → code.finished s = true → ∀ call, (code.role call).works = true →
    code.step s call = .refused (s, []) .badOrder
  update : code.keyed s = true → code.finished s = false → ∀ call, code.role call = .update →
    (code.step s call).answer = .ok none
  finish : code.keyed s = true → code.finished s = false → ∀ call, code.role call = .finish →
    ∃ tag, (code.step s call).answer = .ok (some tag)
  verify : code.keyed s = true → code.finished s = false → ∀ call, code.role call = .verify →
    (code.step s call).answer = .ok none ∨
      (code.step s call).answer = .error .authenticationFailed
  /-- Right or wrong, a comparison leaves the context finished, in the state in which a request for
  the code would leave it. -/
  compared : code.keyed s = true → ∀ call, code.role call = .verify →
    code.finished (code.step s call).after.1 = true ∧
      (code.step s call).after = (code.step s code.finish).after
  /-- Between two calls that have the code computed there is a reset or a key. -/
  once : ∀ first between second, code.Computes s first →
    code.Computes (runCalls code.step s (first :: between)) second →
    ∃ call ∈ between, (code.role call).restarts = true
  /-- The stages of a run are those of the course. -/
  course : ∀ calls, code.stage (runCalls code.step s calls) =
    (calls.map code.role).foldl Stage.next (code.stage s)

theorem finished_of_stage (h : code.stage s = .finished) : code.finished s = true := by
  rw [stage] at h
  split at h
  · assumption
  · split at h <;> cases h

/-- What is known of single calls is known of runs. -/
theorem oneTag_of_reachable (hmade : ∀ s, Made s → code.finished s = false)
    (hends : ∀ s, Reachable Made code.step s → ∀ call,
      code.Ends s (code.role call) (code.step s call))
    (hcompared : ∀ s call, code.role call = .verify →
      (code.step s call).after = (code.step s code.finish).after)
    (h : Reachable Made code.step s) : code.OneTag s := by
  have hobeys : ∀ s, Reachable Made code.step s → code.Obeys s :=
    fun s h => obeys_of_reachable hmade hends h
  have hkeyed := (hobeys s h).keyed
  refine ⟨hkeyed, ?_, ?_, ?_, ?_, ?_, ?_, fun first between second => restart_between hobeys h,
    stage_run hobeys h⟩
  · intro hkey call hworks
    refine (hends s h call).refused_of hworks ?_
    have hopen : code.finished s = false :=
      Bool.eq_false_iff.mpr fun hfinished => absurd (hkey.symm.trans (hkeyed hfinished)) (by decide)
    rw [stage, hopen, hkey]
    rfl
  · intro _ hfinished call hworks
    refine (hends s h call).refused_of hworks ?_
    rw [stage_of_finished hfinished]
    rfl
  · intro hkey hopen call hrole
    have hend := hends s h call
    rw [hrole] at hend
    exact hend.answer_update (taking_iff.mpr ⟨hopen, hkey⟩)
  · intro hkey hopen call hrole
    have hend := hends s h call
    rw [hrole] at hend
    exact hend.answer_finish (taking_iff.mpr ⟨hopen, hkey⟩)
  · intro hkey hopen call hrole
    have hend := hends s h call
    rw [hrole] at hend
    exact hend.answer_verify (taking_iff.mpr ⟨hopen, hkey⟩)
  · intro hkey call hrole
    refine ⟨finished_of_stage ?_, hcompared s call hrole⟩
    rw [(hends s h call).moves hkeyed, hrole, stage, hkey]
    cases code.finished s <;> rfl

end Code

variable {a : Algorithm}

/-! ## 4. The plain code -/

namespace Omac

variable {m : Omac a}

def Call.role : Call → Role
  | .update _ => .update
  | .finish => .finish
  | .verify _ => .verify
  | .reset => .reset
  | .setKey _ => .key
  | .setMacLen _ => .setting

def code (a : Algorithm) : Code (Omac a) Call where
  step := step
  role := Call.role
  finish := .finish
  keyed m := m.key.isSome
  finished m := m.finished

/-- A context is ready where the course takes the message, and gives the reason of the course where
it is not. -/
theorem ready_cases (m : Omac a) :
    (∃ e, m.ready = .error e ∧ ((code a).stage m).refusal = some e) ∨
      ∃ k, m.ready = .ok k ∧ m.key = some k ∧ (code a).stage m = .taking := by
  cases hfinished : m.finished with
  | true =>
    refine .inl ⟨.badOrder, ?_, ?_⟩
    · rw [ready, hfinished]
      rfl
    · rw [Code.stage_of_finished hfinished]
      rfl
  | false =>
    cases hkey : m.key with
    | none =>
      refine .inl ⟨.macKeyNotSet, ?_, ?_⟩
      · rw [ready, hfinished, hkey]
        rfl
      · simp [Code.stage, code, hfinished, hkey, Stage.refusal]
    | some k =>
      refine .inr ⟨k, ?_, rfl, Code.taking_iff.mpr ⟨hfinished, congrArg Option.isSome hkey⟩⟩
      rw [ready, hfinished, hkey]
      rfl

theorem ends_setting (m : Omac a) (size : Nat) :
    (code a).Ends m .setting (step m (.setMacLen size)) := by
  rw [step, setMacLen]
  rcases Outcome.ofCheck_cases m (Bounds.macLen a size) { m with macLen := size } with
    ⟨-, hset⟩ | ⟨e, -, hset⟩ <;> rw [hset] <;> exact .set rfl rfl

/-- Every call ends in one of the ways of the course. -/
theorem ends (m : Omac a) (call : Call) : (code a).Ends m call.role (step m call) := by
  cases call with
  | update data =>
    rcases m.ready_cases with ⟨e, hready, hrefusal⟩ | ⟨k, hready, hkey, htaking⟩
    · rw [step, update, hready]
      exact .refused rfl hrefusal
    · rw [step, update, hready]
      exact .updated htaking htaking
  | finish =>
    rcases m.ready_cases with ⟨e, hready, hrefusal⟩ | ⟨k, hready, hkey, htaking⟩
    · rw [step, finish, hready]
      exact .refused rfl hrefusal
    · rw [step, finish, hready]
      exact .finished htaking rfl (congrArg Option.isSome hkey)
  | verify expected =>
    rcases m.ready_cases with ⟨e, hready, hrefusal⟩ | ⟨k, hready, hkey, htaking⟩
    · rw [step, verify, finish, hready]
      exact .refused rfl hrefusal
    · rw [step, verify, finish, hready, Outcome.done_judge]
      split
      · exact .accepted htaking rfl (congrArg Option.isSome hkey)
      · exact .rejected htaking rfl (congrArg Option.isSome hkey)
  | reset => exact .reset rfl rfl
  | setKey key => exact .keyed rfl
  | setMacLen size => exact m.ends_setting size

theorem after_verify (m : Omac a) {call : Call} (hcall : call.role = .verify) :
    (step m call).after = (step m .finish).after := by
  cases call with
  | verify expected => rfl
  | _ => exact absurd hcall (by simp [Call.role])

theorem Made.unfinished (h : Made m) : m.finished = false := by
  cases h with
  | unkeyed | ofCipher _ | ofKey _ => rfl
  | ofLimits made =>
    rw [Omac.ofLimits, bind_eq_ok_iff] at made
    obtain ⟨⟨⟩, -, made⟩ := made
    obtain ⟨⟨⟩, -, made⟩ := bind_eq_ok_iff.mp made
    obtain rfl := Except.ok.inj made
    rfl

theorem oneTag (h : Reachable Made step m) : (code a).OneTag m :=
  Code.oneTag_of_reachable (fun _ => Made.unfinished) (fun m _ => m.ends)
    (fun m _ => m.after_verify) h

end Omac

/-! ## 5. The meshed code -/

namespace MeshedOmac

variable {m : MeshedOmac a}

def Call.role : Call → Role
  | .update _ => .update
  | .finish => .finish
  | .verify _ => .verify
  | .reset => .reset
  | .setKey _ => .key
  | .setMacLen _ | .setSections _ _ => .setting

def code (a : Algorithm) : Code (MeshedOmac a) Call where
  step := step
  role := Call.role
  finish := .finish
  keyed m := m.keys.isSome
  finished m := m.finished

theorem ready_cases (m : MeshedOmac a) :
    (∃ e, m.ready = .error e ∧ ((code a).stage m).refusal = some e) ∨
      ∃ keys, m.ready = .ok keys ∧ (code a).stage m = .taking := by
  cases hfinished : m.finished with
  | true =>
    refine .inl ⟨.badOrder, ?_, ?_⟩
    · rw [ready, hfinished]
      rfl
    · rw [Code.stage_of_finished hfinished]
      rfl
  | false =>
    cases hkeys : m.keys with
    | none =>
      refine .inl ⟨.macKeyNotSet, ?_, ?_⟩
      · rw [ready, hfinished, hkeys]
        rfl
      · simp [Code.stage, code, hfinished, hkeys, Stage.refusal]
    | some keys =>
      refine .inr ⟨keys, ?_, Code.taking_iff.mpr ⟨hfinished, congrArg Option.isSome hkeys⟩⟩
      rw [ready, hfinished, hkeys]
      rfl

theorem ends_ofCheck (m : MeshedOmac a) (check : Except Error Unit) {changed : MeshedOmac a}
    (hkeys : changed.keys.isSome = m.keys.isSome) (hfinished : changed.finished = m.finished) :
    (code a).Ends m .setting (.ofUnit (.ofCheck m check changed)) := by
  rcases Outcome.ofCheck_cases m check changed with ⟨-, hset⟩ | ⟨e, -, hset⟩
  · rw [hset]
    exact .set hfinished hkeys
  · rw [hset]
    exact .set rfl rfl

/-- Every call ends in one of the ways of the course. A reset finds the keys that it goes back to,
and a key finds a master section that it can use. -/
theorem Sound.ends (h : Sound m) (call : Call) :
    (code a).Ends m call.role (MeshedOmac.step m call) := by
  cases call with
  | update data =>
    rcases m.ready_cases with ⟨e, hready, hrefusal⟩ | ⟨keys, hready, htaking⟩
    · rw [MeshedOmac.step, update, hready]
      exact .refused rfl hrefusal
    · rw [MeshedOmac.step, update_of_ready hready]
      exact .updated htaking (Code.taking_iff.mpr ⟨(Code.taking_iff.mp htaking).1, rfl⟩)
  | finish =>
    rcases m.ready_cases with ⟨e, hready, hrefusal⟩ | ⟨keys, hready, htaking⟩
    · rw [MeshedOmac.step, finish, hready]
      exact .refused rfl hrefusal
    · rw [MeshedOmac.step, finish, hready]
      exact .finished htaking rfl rfl
  | verify expected =>
    rcases m.ready_cases with ⟨e, hready, hrefusal⟩ | ⟨keys, hready, htaking⟩
    · rw [MeshedOmac.step, verify, finish, hready]
      exact .refused rfl hrefusal
    · rw [MeshedOmac.step, verify, finish, hready, Outcome.done_judge]
      split
      · exact .accepted htaking rfl rfl
      · exact .rejected htaking rfl rfl
  | reset =>
    have hkeys : m.initial.isSome = m.keys.isSome := h.keyed.symm
    exact .reset rfl hkeys
  | setKey key =>
    rw [MeshedOmac.step, setKey_eq h.masterSection.2]
    exact .keyed rfl
  | setMacLen size => exact m.ends_ofCheck _ rfl rfl
  | setSections sectionLen masterSection => exact m.ends_ofCheck _ rfl rfl

theorem after_verify (m : MeshedOmac a) {call : Call} (hcall : call.role = .verify) :
    (step m call).after = (step m .finish).after := by
  cases call with
  | verify expected => rfl
  | _ => exact absurd hcall (by simp [Call.role])

theorem finished_setMacLen (m : MeshedOmac a) (size : Nat) :
    (m.setMacLen size).after.finished = m.finished :=
  Outcome.ofCheck_keeps (P := fun m' : MeshedOmac a => m'.finished = m.finished) rfl fun _ => rfl

theorem unfinished_ofKey {key : Key} {sectionLen masterSection : Nat}
    (h : ofKey a key sectionLen masterSection = .ok m) : m.finished = false := by
  obtain ⟨-, -, rfl⟩ := ofKey_eq_ok_iff.mp h
  rfl

theorem Made.unfinished (h : Made m) : m.finished = false := by
  cases h with
  | unkeyed => rfl
  | ofKey made => exact unfinished_ofKey made
  | @ofLimits _ limits _ made =>
    obtain ⟨m₀, hm₀, hset⟩ := ofLimits_fresh made
    have hflag := finished_setMacLen m₀ limits.macLen
    rw [hset] at hflag
    exact hflag.trans (unfinished_ofKey hm₀)

theorem oneTag (h : Reachable Made step m) : (code a).OneTag m :=
  Code.oneTag_of_reachable (fun _ => Made.unfinished) (fun _ h => (sound_of_reachable h).ends)
    (fun m _ => m.after_verify) h

end MeshedOmac

/-! ## 6. The law -/

/-- **One tag for a chain.** Take a context of either code, made with a key or without, after any
calls in any order, some of them refused.

* If it is finished, it has a key. Without a key it refuses pieces, requests and comparisons for
  want of one, with a key and finished it refuses them as out of order, and at all other times it
  takes a piece and gives its tag.
* A comparison of a keyed context leaves it finished, right or wrong, as a request would have left
  it; there is no second guess. Whatever is called later, between two calls that have a tag computed
  there is a reset or a key.
* No more than a block is held back, and the section of the meshed code is never zero, so a length
  can always be divided by it. -/
theorem one_tag_per_chain (a : Algorithm) :
    (∀ m : Omac a, Reachable Omac.Made Omac.step m →
      (Omac.code a).OneTag m ∧ m.chain.pending.length ≤ a.blockLen) ∧
    ∀ m : MeshedOmac a, Reachable MeshedOmac.Made MeshedOmac.step m →
      (MeshedOmac.code a).OneTag m ∧ m.sectionLen ≠ 0 ∧ m.chain.pending.length ≤ a.blockLen := by
  refine ⟨fun m h => ⟨Omac.oneTag h, m.chain.length_pending⟩, fun m h => ?_⟩
  exact ⟨MeshedOmac.oneTag h, (MeshedOmac.sound_of_reachable h).sectionLen.1,
    m.chain.length_pending⟩

/-- A comparison comes before the key, a second one after the first, and a section is changed in the
midst of a message. -/
theorem one_tag_per_chain_magma :
    let key : Key := .zero 32
    let omac := runCalls Omac.step (.unkeyed .magma)
      [.verify [9], .setKey key, .update [1, 2, 3], .verify [9]]
    let meshed := runCalls MeshedOmac.step (.unkeyed .magma)
      [.setKey key, .finish, .reset, .update [1, 2, 3], .setSections 8 16]
    Omac.step (.unkeyed .magma) (.verify [9]) = .refused (.unkeyed .magma, []) .macKeyNotSet ∧
      Omac.step omac (.verify [8]) = .refused (omac, []) .badOrder ∧
      (∃ tag, (MeshedOmac.step meshed .finish).answer = .ok (some tag)) ∧
      meshed.sectionLen ≠ 0 := by
  intro key omac meshed
  obtain ⟨homac, hmeshed⟩ := one_tag_per_chain .magma
  have hbare : Reachable Omac.Made Omac.step (.unkeyed .magma) := .made .unkeyed
  have hbare' : Reachable MeshedOmac.Made MeshedOmac.step (.unkeyed .magma) := .made .unkeyed
  obtain ⟨hlaw, -⟩ := homac _ hbare
  obtain ⟨hlaw', -⟩ := hmeshed _ hbare'
  have hended : (Omac.code .magma).stage omac = .finished := hlaw.course _
  have htaking : (MeshedOmac.code .magma).stage meshed = .taking := hlaw'.course _
  obtain ⟨hafter, -⟩ := homac omac (hbare.run _)
  obtain ⟨hafter', hsection, -⟩ := hmeshed meshed (hbare'.run _)
  have hfinished := Code.finished_of_stage hended
  obtain ⟨hopen, hkeyed⟩ := Code.taking_iff.mp htaking
  exact ⟨hlaw.unkeyed rfl (.verify [9]) rfl,
    hafter.ended (hafter.keyed hfinished) hfinished (.verify [8]) rfl,
    hafter'.finish hkeyed hopen .finish rfl, hsection⟩

end GostSuite

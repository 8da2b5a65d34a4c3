import GostSuite.Algorithm
import GostSuite.Bytes.Basic
import GostSuite.Report

/-!
# Refusals

Every call of the suite either goes through or is refused for one of the causes listed here. A
cause carries what the caller needs to see why: the value that was refused and the bound it broke.

There are three texts of a cause. `message` is the sentence for a person, `name` is the bare word
for a program, and `report` is the one-line form with the values. An error that has been raised
somewhere adds the place to the sentence and to the report.
-/

set_option autoImplicit false

namespace GostSuite

/-- Why a call was refused. -/
inductive Error where
  /-- The call does not fit what the context has already done. -/
  | badOrder
  /-- The message would exceed what the mode can authenticate. -/
  | dataTooLarge
  /-- The tag is not that of the message. -/
  | authenticationFailed
  /-- The key record was not made under these keys. -/
  | badMac
  | invalidMacSize (size max : Nat)
  | invalidTagLength (len max : Nat)
  /-- A code was asked for before a key was set. -/
  | macKeyNotSet
  /-- Processing was asked for before a key was set. -/
  | keyNotSet
  | internalError (reason : String)
  | invalidLength (expected actual : Nat)
  | invalidSectionSize (size blockLen : Nat)
  | unsupportedAlgorithm (algorithm : Algorithm)
  deriving DecidableEq, Repr

namespace Error

def name : Error → String
  | badOrder => "BadOrder"
  | dataTooLarge => "DataTooLarge"
  | authenticationFailed => "AuthenticationFailed"
  | badMac => "BadMac"
  | invalidMacSize .. => "InvalidMacSize"
  | invalidTagLength .. => "InvalidTagLength"
  | macKeyNotSet => "MacKeyNotSet"
  | keyNotSet => "KeyNotSet"
  | internalError .. => "InternalError"
  | invalidLength .. => "InvalidLength"
  | invalidSectionSize .. => "InvalidSectionSize"
  | unsupportedAlgorithm .. => "UnsupportedAlgorithm"

def message : Error → String
  | badOrder => "the operation is not valid in the current state"
  | dataTooLarge => "the input exceeds the mode's length limit"
  | authenticationFailed => "the authentication tag did not match"
  | badMac => "the key transport MAC did not match"
  | invalidMacSize size max => s!"MAC size {size} is outside of 1..={max}"
  | invalidTagLength len max => s!"tag length {len} is outside of 1..={max}"
  | macKeyNotSet => "the MAC key has not been set"
  | keyNotSet => "the cipher key has not been set"
  | internalError reason => s!"internal error: {reason}"
  | invalidLength expected actual => s!"expected {expected} bytes but got {actual}"
  | invalidSectionSize size blockLen =>
    s!"section size {size} is not a multiple of the {blockLen} byte block"
  | unsupportedAlgorithm algorithm => s!"{algorithm.name} is not supported by this operation"

def fields : Error → List (String × String)
  | invalidMacSize size max => [("size", toString size), ("max", toString max)]
  | invalidTagLength len max => [("len", toString len), ("max", toString max)]
  | internalError reason => [("reason", Report.quoted reason)]
  | invalidLength expected actual => [("expected", toString expected), ("actual", toString actual)]
  | invalidSectionSize size blockLen =>
    [("size", toString size), ("block_len", toString blockLen)]
  | unsupportedAlgorithm algorithm => [("algorithm", algorithm.name)]
  | _ => []

def report (e : Error) : String := Report.full e.name e.fields

def locatedMessage (e : Error) (file line : String) : String :=
  s!"[gost-crypto::{file}:{line}]: {e.message}"

def locatedReport (e : Error) (file line : String) : String :=
  Report.full "Error"
    [("kind", e.report), ("crate", Report.quoted "gost-crypto"), ("file", Report.quoted file),
      ("line", line)]

end Error

theorem bind_eq_ok_iff {α β : Type} {x : Except Error α} {f : α → Except Error β} {b : β} :
    x >>= f = .ok b ↔ ∃ a, x = .ok a ∧ f a = .ok b := by
  cases x with
  | error e => exact iff_of_false (fun h => nomatch h) fun ⟨_, h, _⟩ => nomatch h
  | ok a => exact ⟨fun h => ⟨a, rfl, h⟩, fun ⟨_, h, hf⟩ => by cases h; exact hf⟩

theorem map_eq_ok_iff {α β : Type} {x : Except Error α} {f : α → β} {b : β} :
    x.map f = .ok b ↔ ∃ a, x = .ok a ∧ f a = b := by
  cases x with
  | error e => exact iff_of_false (fun h => nomatch h) fun ⟨_, h, _⟩ => nomatch h
  | ok a => exact ⟨fun h => ⟨a, rfl, Except.ok.inj h⟩, fun ⟨_, h, hf⟩ => by cases h; rw [← hf]; rfl⟩

section Guards

variable {α : Type} {p : Prop} [Decidable p] {x : Except Error α} {a b : α} {e : Error}

theorem accepted_eq_ok_iff : (if p then x else .error e) = .ok b ↔ p ∧ x = .ok b := by
  by_cases h : p
  · rw [if_pos h, and_iff_right h]
  · rw [if_neg h]
    exact iff_of_false (fun hok => nomatch hok) fun hok => h hok.1

theorem refused_eq_ok_iff : (if p then .error e else x) = .ok b ↔ ¬p ∧ x = .ok b := by
  rw [← ite_not, accepted_eq_ok_iff]

/-- What is not accepted is refused for the only reason there is. -/
theorem eq_error_of_ne_ok (h : ∀ b, (if p then Except.ok a else .error e) ≠ .ok b) :
    (if p then Except.ok a else .error e) = .error e :=
  if_neg fun hp => h a (if_pos hp)

end Guards

section OtherErrors

variable {α β : Type} {e e' : Error}

theorem guard_ne_error {p : Prop} [Decidable p] {value : α} (h : e ≠ e') :
    (if p then Except.ok value else .error e) ≠ .error e' := by
  split
  · exact fun heq => nomatch heq
  · exact fun heq => h (Except.error.inj heq)

theorem bind_ne_error {x : Except Error α} {f : α → Except Error β} (hx : x ≠ .error e)
    (hf : ∀ value, f value ≠ .error e) : x >>= f ≠ .error e := by
  cases x with
  | error _ => exact fun heq => hx (congrArg Except.error (Except.error.inj heq))
  | ok value => exact hf value

theorem map_ne_error {x : Except Error α} (f : α → β) (hx : x ≠ .error e) :
    x.map f ≠ .error e := by
  cases x with
  | error _ => exact fun heq => hx (congrArg Except.error (Except.error.inj heq))
  | ok value => exact fun heq => nomatch heq

end OtherErrors

/-- Reads a string that has to be exactly `n` bytes long. -/
def Bytes.read (n : Nat) (s : ByteString) : Except Error (Bytes n) :=
  match Bytes.ofList? n s with
  | some b => .ok b
  | none => .error (.invalidLength n s.length)

@[simp] theorem Bytes.read_toList {n : Nat} (b : Bytes n) : Bytes.read n b.toList = .ok b := by
  rw [Bytes.read, Bytes.ofList?, dif_pos b.length_toList]

theorem Bytes.read_eq_ok_iff {n : Nat} {s : ByteString} {b : Bytes n} :
    Bytes.read n s = .ok b ↔ s = b.toList := by
  constructor
  · intro h
    rw [Bytes.read, Bytes.ofList?] at h
    split at h
    · rename_i found hfound
      cases h
      split at hfound
      · cases hfound
        rfl
      · cases hfound
    · cases h
  · rintro rfl
    exact Bytes.read_toList b

theorem Bytes.read_wrong_length {n : Nat} {s : ByteString} (h : s.length ≠ n) :
    Bytes.read n s = .error (.invalidLength n s.length) := by
  rw [Bytes.read, Bytes.ofList?, dif_neg h]

end GostSuite

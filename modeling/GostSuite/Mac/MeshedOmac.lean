import GostSuite.CounterStream
import GostSuite.Mac.Omac

/-!
# The meshed message code

OMAC-ACPKM: the message code for long messages. The chain is cut into sections of `N` bytes, and
each section has a cipher key and a whitening key of its own. They are drawn from a master stream,
a counter-mode keystream under the key of the context whose initial value is all `ff` and which is
meshed itself, with a section length of its own.

A block is chained under the key of the section that it lies in, and keys change when a block is
chained and not when its bytes arrive. `processed` counts the chained bytes; a multiple of the
section length that is not zero is a change of keys.

A context remembers its keys as they were when it was keyed, and a reset goes back to them. The
section lengths can be changed at any time. The one of the chain holds at once, the one of the
master stream from the next keying on.
-/

set_option autoImplicit false

namespace GostSuite

/-- The master stream, and the keys of the present section. -/
structure SectionKeys (a : Algorithm) where
  master : CounterStream a
  current : MacKey a

namespace SectionKeys

variable {a : Algorithm}

/-- Draws the keys of a section: a cipher key, then a whitening key. -/
def ofMaster (master : CounterStream a) : SectionKeys a :=
  let (material, master) := master.draw (keyLen + a.blockLen)
  ⟨master, .ofKey a (.padded 32 material), .padded a.blockLen (material.drop keyLen)⟩

def ofKey (a : Algorithm) (key : Key) (masterSection : Nat) : SectionKeys a :=
  ofMaster (.start (.ofKey a key) (List.replicate a.halfBlockLen 0xff) masterSection)

def next (k : SectionKeys a) : SectionKeys a := ofMaster k.master

end SectionKeys

/-- A meshed message code under way. -/
structure MeshedOmac (a : Algorithm) where
  /-- The keys as they were when the context was keyed. -/
  initial : Option (SectionKeys a)
  keys : Option (SectionKeys a)
  chain : Chain a.blockLen
  /-- Bytes that have gone through the chain. -/
  processed : Nat
  /-- Bytes of the chain under one key. -/
  sectionLen : Nat
  /-- Bytes of the master stream under one key, from the next keying on. -/
  masterSection : Nat
  macLen : Nat
  finished : Bool

namespace MeshedOmac

variable {a : Algorithm}

/-- A context without a key, with the recommended sections. -/
def unkeyed (a : Algorithm) : MeshedOmac a :=
  let limits := Limits.recommended a
  ⟨none, none, .start a.blockLen, 0, limits.macSection, limits.masterSection, limits.macLen, false⟩

/-- Changes both section lengths, or none if one of them is refused. -/
def setSections (m : MeshedOmac a) (sectionLen masterSection : Nat) :
    Outcome (MeshedOmac a) Unit :=
  .ofCheck m
    (do Bounds.macSection a sectionLen; Bounds.macSection a masterSection)
    { m with sectionLen := sectionLen, masterSection := masterSection }

/-- Starts the chain again with the keys that the context holds. -/
def restart (m : MeshedOmac a) : MeshedOmac a :=
  { m with chain := .start a.blockLen, processed := 0, finished := false }

/-- Keys the context and starts the chain again, if a stream can have its master section. -/
def setKey (m : MeshedOmac a) (key : Key) : Outcome (MeshedOmac a) Unit :=
  let keys := SectionKeys.ofKey a key m.masterSection
  .ofCheck m (Bounds.streamSection a m.masterSection)
    { m with initial := some keys, keys := some keys }.restart

/-- Starts the chain again with the keys of the first section. -/
def reset (m : MeshedOmac a) : MeshedOmac a := { m with keys := m.initial }.restart

def setMacLen (m : MeshedOmac a) (size : Nat) : Outcome (MeshedOmac a) Unit :=
  .ofCheck m (Bounds.macLen a size) { m with macLen := size }

/-- The context of a key and two section lengths. -/
def ofKey (a : Algorithm) (key : Key) (sectionLen masterSection : Nat) :
    Except Error (MeshedOmac a) := do
  let o := (unkeyed a).setSections sectionLen masterSection
  o.answer
  let o := o.after.setKey key
  o.answer
  return o.after

/-- The context of a key with the sections and the code length of some limits. -/
def ofLimits (a : Algorithm) (key : Key) (limits : Limits) : Except Error (MeshedOmac a) := do
  limits.require a
  let m ← ofKey a key limits.macSection limits.masterSection
  let o := m.setMacLen limits.macLen
  o.answer
  return o.after

/-- The keys of a context that can go on. -/
def ready (m : MeshedOmac a) : Except Error (SectionKeys a) :=
  if m.finished then .error .badOrder
  else match m.keys with
    | none => .error .macKeyNotSet
    | some keys => .ok keys

/-- The part of a context that chaining a block moves, the chain itself apart. -/
structure Progress (a : Algorithm) where
  keys : SectionKeys a
  processed : Nat

/-- Gets ready to chain a block: at the end of a section the keys change, and the block counts. -/
def Progress.beforeBlock (sectionLen : Nat) (p : Progress a) : Progress a :=
  { keys := if 0 < p.processed ∧ p.processed % sectionLen = 0 then p.keys.next else p.keys
    processed := p.processed + a.blockLen }

/-- Chains a block under the key of the section that it lies in. -/
def Progress.process (sectionLen : Nat) (p : Progress a) (state block : Block a) :
    Progress a × Block a :=
  let p := p.beforeBlock sectionLen
  (p, p.keys.current.cipher.encrypt (state ^^^ block))

def update (m : MeshedOmac a) (data : ByteString) : Outcome (MeshedOmac a) Unit :=
  match m.ready with
  | .error e => .refused m e
  | .ok keys =>
    let (p, chain) := m.chain.feed (Progress.process m.sectionLen) ⟨keys, m.processed⟩ data
    .done { m with keys := some p.keys, processed := p.processed, chain := chain } ()

/-- Ends the message and gives its code. -/
def finish (m : MeshedOmac a) : Outcome (MeshedOmac a) Tag :=
  match m.ready with
  | .error e => .refused m e
  | .ok keys =>
    let p := Progress.beforeBlock m.sectionLen ⟨keys, m.processed⟩
    .done { m with keys := some p.keys, processed := p.processed, finished := true }
      (p.keys.current.close m.chain m.macLen)

/-- Ends the message and compares its code. -/
def verify (m : MeshedOmac a) (expected : ByteString) : Outcome (MeshedOmac a) Unit :=
  m.finish.judge fun tag =>
    if tag.verify expected then .ok () else .error .authenticationFailed

inductive Call where
  | update (data : ByteString)
  | finish
  | verify (expected : ByteString)
  | reset
  | setKey (key : Key)
  | setMacLen (size : Nat)
  | setSections (sectionLen masterSection : Nat)

def step (m : MeshedOmac a) : Call → StepOutcome (MeshedOmac a)
  | .update data => .ofUnit (m.update data)
  | .finish => .ofTag m.finish
  | .verify expected => .ofUnit (m.verify expected)
  | .reset => .ofUnit (.done m.reset ())
  | .setKey key => .ofUnit (m.setKey key)
  | .setMacLen size => .ofUnit (m.setMacLen size)
  | .setSections sectionLen masterSection => .ofUnit (m.setSections sectionLen masterSection)

def report (m : MeshedOmac a) : String :=
  Report.opened "OmacAcpkm"
    [("algorithm", a.name), ("keyed", toString m.keys.isSome),
      ("section", toString m.sectionLen), ("master_section", toString m.masterSection),
      ("processed", toString m.processed), ("mac_len", toString m.macLen)]

end MeshedOmac

end GostSuite

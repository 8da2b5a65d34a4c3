import GostSuite.Proofs.KeyUsage
import GostSuite.Proofs.Mac.Contexts
import Mathlib.Logic.Function.Iterate

/-!
# How much a section key has worked

The meshed code changes its keys where the count of chained bytes is a multiple of the section
length. The count is that of the whole message, and it says nothing about the present key. As long
as the section length stays, the multiples are one section apart, and a key serves a section at most
(`TurnAt.bounded`). It is enough that the length stays for the blocks of one key: lengths may be
changed wherever a key begins.

Inside of a section they may not, although `setSections` takes them at any time. A length that is
set in the middle of a section has its own multiples, and the next of them can lie further ahead
than the new length allows, or far behind the end of the section that was begun. Then a key goes on
working, and no number that was set bounds its work. The counter stream has no such gap: it counts
what its key has made, and compares.

The log has an entry for every block that is chained since the chain began, the last block of the
message among them: what the block found, and the section length that was in force.
-/

set_option autoImplicit false

namespace GostSuite

open KeyUsage

/-! ## 1. The blocks that are chained for some data -/

namespace Chain

variable {n : Nat} {κ : Type}

/-- What the blocks find that are chained while some data is fed. -/
def chained [BlockSize n] (process : κ → Bytes n → Bytes n → κ × Bytes n) (k : κ) (c : Chain n)
    (data : ByteString) : List κ :=
  if _h : data = [] then []
  else
    let r := c.release process k
    (if c.full then [k] else []) ++ chained process r.1 (r.2.hold data) (data.drop r.2.room)
termination_by data.length
decreasing_by
  have := room_release_pos process k c
  have := List.length_pos_iff.mpr _h
  simp only [List.length_drop]
  omega

variable [BlockSize n] (process : κ → Bytes n → Bytes n → κ × Bytes n)

/-- Every byte is in a block that is chained, or is held back. -/
theorem length_chained (k : κ) (c : Chain n) (data : ByteString) :
    n * (c.chained process k data).length + (c.feed process k data).2.pending.length =
      c.pending.length + data.length := by
  by_cases hdata : data = []
  · rw [chained, feed, dif_pos hdata, dif_pos hdata, hdata]
    simp
  · have hpos := room_release_pos process k c
    have hlen := List.length_pos_iff.mpr hdata
    have hrest := length_chained (c.release process k).1 ((c.release process k).2.hold data)
      (data.drop (c.release process k).2.room)
    have hhold : ((c.release process k).2.hold data).pending.length +
        (data.drop (c.release process k).2.room).length =
          (c.release process k).2.pending.length + data.length := by
      simp only [hold, List.length_append, List.length_take, List.length_drop]
      omega
    have hrelease : n * (if c.full then [k] else []).length +
        (c.release process k).2.pending.length = c.pending.length := by
      rw [release]
      split
      · rename_i hfull
        have hn : c.pending.length = n := by simpa [full] using hfull
        simp [hn]
      · simp
    rw [chained, feed, dif_neg hdata, dif_neg hdata]
    simp only [List.length_append, Nat.mul_add]
    omega
termination_by data.length
decreasing_by simp only [List.length_drop]; omega

/-- A new chain chains all blocks but the last. -/
theorem length_chained_start (k : κ) (data : ByteString) :
    ((start n).chained process k data).length = blockCount n data - 1 := by
  have hn : 0 < n := BlockSize.pos
  have hbalance := length_chained process k (start n) data
  have hfeed : feed process (after process k []).1 (after process k []).2 data =
      after process k ([] ++ data) := feed_after [] data
  rw [after_nil, List.nil_append] at hfeed
  rw [hfeed, start, List.length_nil, Nat.zero_add, length_eq hn data] at hbalance
  have hheld : (after process k data).2.pending = held n data := rfl
  rw [hheld, Nat.mul_comm, Nat.add_right_cancel_iff] at hbalance
  exact Nat.eq_of_mul_eq_mul_right hn hbalance

variable {process} {Holds : List κ → κ → Prop}

/-- What chaining a block keeps is kept by feeding. -/
theorem feed_keeps
    (hprocess : ∀ log k state block, Holds log k → Holds (log ++ [k]) (process k state block).1)
    {log : List κ} {k : κ} (h : Holds log k) (c : Chain n) (data : ByteString) :
    Holds (log ++ c.chained process k data) (c.feed process k data).1 := by
  by_cases hdata : data = []
  · rw [chained, feed, dif_pos hdata, dif_pos hdata, List.append_nil]
    exact h
  · have hpos := room_release_pos process k c
    have hlen := List.length_pos_iff.mpr hdata
    have hrelease : Holds (log ++ if c.full then [k] else []) (c.release process k).1 := by
      rw [release]
      split
      · exact hprocess log k _ _ h
      · rwa [List.append_nil]
    have hrest := feed_keeps hprocess hrelease ((c.release process k).2.hold data)
      (data.drop (c.release process k).2.room)
    rw [chained, feed, dif_neg hdata, dif_neg hdata]
    rwa [List.append_assoc] at hrest
termination_by data.length
decreasing_by simp only [List.length_drop]; omega

end Chain

/-! ## 2. The log of a chain -/

namespace MeshedOmac

variable {a : Algorithm}

/-- A block that is chained: what it finds, and the section length in force. -/
structure Turn (a : Algorithm) where
  found : Progress a
  sectionLen : Nat

namespace Turn

/-- The block is chained under new keys. -/
def fresh (t : Turn a) : Bool :=
  decide (0 < t.found.processed ∧ t.found.processed % t.sectionLen = 0)

/-- The keys that the block is chained under. -/
def keys (t : Turn a) : SectionKeys a := (t.found.beforeBlock t.sectionLen).keys

theorem keys_eq (t : Turn a) : t.keys = if t.fresh then t.found.keys.next else t.found.keys := by
  simp [keys, fresh, Progress.beforeBlock]

end Turn

def turnsOfUpdate (m : MeshedOmac a) (data : ByteString) : List (Turn a) :=
  match m.ready with
  | .error _ => []
  | .ok keys =>
    (m.chain.chained (Progress.process m.sectionLen) ⟨keys, m.processed⟩ data).map
      (⟨·, m.sectionLen⟩)

/-- The end of a message chains its last block. -/
def turnsOfEnd (m : MeshedOmac a) : List (Turn a) :=
  match m.ready with
  | .error _ => []
  | .ok keys => [⟨⟨keys, m.processed⟩, m.sectionLen⟩]

def turnsOf (m : MeshedOmac a) : Call → List (Turn a)
  | .update data => m.turnsOfUpdate data
  | .finish | .verify _ => m.turnsOfEnd
  | .reset | .setKey _ | .setMacLen _ | .setSections _ _ => []

/-- The call starts the chain again. -/
def starts (m : MeshedOmac a) : Call → Bool
  | .reset => true
  | .setKey key => (m.setKey key).answer.isOk
  | .update _ | .finish | .verify _ | .setMacLen _ | .setSections _ _ => false

/-- The blocks of the chain that a list of calls leaves, those of `log` being chained before. -/
def chainLog (m : MeshedOmac a) (log : List (Turn a)) : List Call → List (Turn a)
  | [] => log
  | call :: calls =>
    (step m call).after.1.chainLog ((if m.starts call then [] else log) ++ m.turnsOf call) calls

/-! ## 3. What a context knows of its log -/

variable {first : SectionKeys a} {log : List (Turn a)} {p : Progress a} {m : MeshedOmac a}

/-- The blocks of a log have been chained, the keys of the first section being `first`. -/
structure HasChained (first : SectionKeys a) (log : List (Turn a)) (p : Progress a) : Prop where
  keys : p.keys = SectionKeys.next^[presentKey Turn.fresh log] first
  processed : p.processed = a.blockLen * log.length

/-- A block finds what the blocks before it have left, and a section length in its bounds. -/
structure TakesTurn (first : SectionKeys a) (before : List (Turn a)) (t : Turn a) : Prop where
  found : HasChained first before t.found
  sectionLen : t.sectionLen ≠ 0 ∧ t.sectionLen % a.blockLen = 0

theorem HasChained.keys_concat (h : HasChained first log p) (sectionLen : Nat) :
    Turn.keys ⟨p, sectionLen⟩ =
      SectionKeys.next^[presentKey Turn.fresh (log ++ [⟨p, sectionLen⟩])] first := by
  rw [Turn.keys_eq, presentKey_concat]
  split
  · rw [Function.iterate_succ_apply', ← h.keys]
  · exact h.keys

/-- **One block more.** -/
theorem HasChained.beforeBlock (h : HasChained first log p) (sectionLen : Nat) :
    HasChained first (log ++ [⟨p, sectionLen⟩]) (p.beforeBlock sectionLen) := by
  refine ⟨h.keys_concat sectionLen, ?_⟩
  change p.processed + a.blockLen = _
  rw [h.processed, List.length_append, List.length_singleton, Nat.mul_succ]

/-- The blocks have been chained, each of them in its turn. -/
structure Written (first : SectionKeys a) (log : List (Turn a)) (p : Progress a) : Prop where
  made : HasChained first log p
  before : Throughout (TakesTurn first) log

theorem Written.nil (first : SectionKeys a) : Written first [] ⟨first, 0⟩ :=
  ⟨⟨rfl, rfl⟩, .nil _⟩

theorem Written.beforeBlock (h : Written first log p) {sectionLen : Nat}
    (hsection : sectionLen ≠ 0 ∧ sectionLen % a.blockLen = 0) :
    Written first (log ++ [⟨p, sectionLen⟩]) (p.beforeBlock sectionLen) :=
  ⟨h.made.beforeBlock sectionLen, h.before.concat ⟨h.made, hsection⟩⟩

theorem Written.feed (h : Written first log p) {sectionLen : Nat}
    (hsection : sectionLen ≠ 0 ∧ sectionLen % a.blockLen = 0) (c : Chain a.blockLen)
    (data : ByteString) :
    Written first (log ++ (c.chained (Progress.process sectionLen) p data).map (⟨·, sectionLen⟩))
      (c.feed (Progress.process sectionLen) p data).1 := by
  let Holds (found : List (Progress a)) (p : Progress a) : Prop :=
    Written first (log ++ found.map (⟨·, sectionLen⟩)) p
  have hprocess (found : List (Progress a)) (p : Progress a) (state block : Block a)
      (hp : Holds found p) :
      Holds (found ++ [p]) (Progress.process sectionLen p state block).1 := by
    change Written first (log ++ (found ++ [p]).map _) (p.beforeBlock sectionLen)
    rw [List.map_append, ← List.append_assoc]
    exact Written.beforeBlock hp hsection
  have hnil : Holds [] p := by
    change Written first (log ++ []) p
    rwa [List.append_nil]
  exact Chain.feed_keeps hprocess hnil c data

/-- Either the context has no keys and has chained nothing, or the log tells its keys and its
count. -/
def Ledger (log : List (Turn a)) (m : MeshedOmac a) : Prop :=
  (m.initial = none ∧ m.keys = none ∧ log = []) ∨
    ∃ first keys, m.initial = some first ∧ m.keys = some keys ∧
      Written first log ⟨keys, m.processed⟩

theorem Ledger.of_eq {m' : MeshedOmac a} (h : Ledger log m) (hinitial : m'.initial = m.initial)
    (hkeys : m'.keys = m.keys) (hprocessed : m'.processed = m.processed) : Ledger log m' := by
  rw [Ledger, hinitial, hkeys, hprocessed]
  exact h

theorem Ledger.restart (h : Ledger log m) : Ledger [] m.reset := by
  rcases h with ⟨hinitial, -, -⟩ | ⟨first, keys, hinitial, -, -⟩
  · exact .inl ⟨hinitial, hinitial, rfl⟩
  · exact .inr ⟨first, first, hinitial, hinitial, .nil first⟩

theorem ledger_keyed (m : MeshedOmac a) (first : SectionKeys a) :
    Ledger [] { m with initial := some first, keys := some first, processed := 0 } :=
  .inr ⟨first, first, rfl, rfl, .nil first⟩

theorem keys_of_ready {keys : SectionKeys a} (h : m.ready = .ok keys) : m.keys = some keys := by
  rw [ready] at h
  split at h
  · cases h
  · split at h
    · cases h
    · next hkeys => rw [hkeys, Except.ok.inj h]

/-- A context that can go on has keys, and its log tells which. -/
theorem Ledger.of_ready (h : Ledger log m) {keys : SectionKeys a} (hready : m.ready = .ok keys) :
    ∃ first, m.initial = some first ∧ Written first log ⟨keys, m.processed⟩ := by
  have hkeys := keys_of_ready hready
  rcases h with ⟨-, hnone, -⟩ | ⟨first, present, hinitial, hsome, hwritten⟩
  · rw [hnone] at hkeys
    cases hkeys
  · rw [hsome] at hkeys
    obtain rfl := Option.some.inj hkeys
    exact ⟨first, hinitial, hwritten⟩

theorem Ledger.update (h : Ledger log m) (hsound : Sound m) (data : ByteString) :
    Ledger (log ++ m.turnsOfUpdate data) (m.update data).after := by
  rw [MeshedOmac.update, turnsOfUpdate]
  cases hready : m.ready with
  | error e =>
    rw [List.append_nil]
    exact h
  | ok keys =>
    obtain ⟨first, hinitial, hwritten⟩ := h.of_ready hready
    exact .inr ⟨first, _, hinitial, rfl, hwritten.feed hsound.sectionLen m.chain data⟩

theorem Ledger.finish (h : Ledger log m) (hsound : Sound m) :
    Ledger (log ++ m.turnsOfEnd) m.finish.after := by
  rw [MeshedOmac.finish, turnsOfEnd]
  cases hready : m.ready with
  | error e =>
    rw [List.append_nil]
    exact h
  | ok keys =>
    obtain ⟨first, hinitial, hwritten⟩ := h.of_ready hready
    exact .inr ⟨first, _, hinitial, rfl, hwritten.beforeBlock hsound.sectionLen⟩

theorem Ledger.step (h : Ledger log m) (hsound : Sound m) (call : Call) :
    Ledger ((if m.starts call then [] else log) ++ m.turnsOf call) (step m call).after.1 := by
  cases call with
  | update data => exact h.update hsound data
  | finish => exact h.finish hsound
  | verify expected => exact h.finish hsound
  | reset => exact h.restart
  | setKey key =>
    have hset := setKey_eq hsound.masterSection.2 key
    have hstarts : m.starts (.setKey key) = true := by
      rw [starts, hset]
      rfl
    rw [if_pos hstarts]
    change Ledger [] (m.setKey key).after
    rw [hset]
    exact (ledger_keyed m (SectionKeys.ofKey a key m.masterSection)).of_eq rfl rfl rfl
  | setMacLen size =>
    change Ledger (log ++ []) (Outcome.ofCheck m _ _).after
    rw [List.append_nil]
    exact Outcome.ofCheck_keeps (P := Ledger log) h fun _ => h.of_eq rfl rfl rfl
  | setSections sectionLen masterSection =>
    change Ledger (log ++ []) (Outcome.ofCheck m _ _).after
    rw [List.append_nil]
    exact Outcome.ofCheck_keeps (P := Ledger log) h fun _ => h.of_eq rfl rfl rfl

theorem Ledger.run (h : Ledger log m) (hsound : Sound m) (calls : List Call) :
    Ledger (m.chainLog log calls) (runCalls MeshedOmac.step m calls) := by
  induction calls generalizing log m with
  | nil => exact h
  | cons call calls ih =>
    rw [runCalls_cons]
    exact ih (h.step hsound call) (hsound.step call)

theorem ledger_ofKey {key : Key} {sectionLen masterSection : Nat}
    (h : ofKey a key sectionLen masterSection = .ok m) : Ledger [] m := by
  obtain ⟨-, -, rfl⟩ := ofKey_eq_ok_iff.mp h
  exact (ledger_keyed (unkeyed a) (SectionKeys.ofKey a key masterSection)).of_eq rfl rfl rfl

theorem Made.ledger (h : Made m) : Ledger [] m := by
  cases h with
  | unkeyed => exact .inl ⟨rfl, rfl, rfl⟩
  | ofKey made => exact ledger_ofKey made
  | @ofLimits _ limits _ made =>
    obtain ⟨m₀, hm₀, hset⟩ := ofLimits_fresh made
    have hledger := (ledger_ofKey hm₀).step (sound_ofKey hm₀) (.setMacLen limits.macLen)
    change Ledger [] (m₀.setMacLen limits.macLen).after at hledger
    rwa [hset] at hledger

/-! ## 4. The bound -/

/-- The blocks under the present key have been chained with one section length. -/
def Steady (sectionLen : Nat) (log : List (Turn a)) : Prop :=
  ∀ (i : Nat) (h : i < log.length), keyOf Turn.fresh log i = presentKey Turn.fresh log →
    log[i].sectionLen = sectionLen

theorem Steady.last {sectionLen : Nat} {t : Turn a} (h : Steady sectionLen (log ++ [t])) :
    t.sectionLen = sectionLen := by
  have hlast := h log.length (by simp)
  rw [List.getElem_concat_length rfl] at hlast
  refine hlast ?_
  rw [keyOf, List.take_of_length_le (by simp), presentKey]

/-- The blocks before one that needs no new key are under the same key. -/
theorem Steady.of_concat {sectionLen : Nat} {t : Turn a} (h : Steady sectionLen (log ++ [t]))
    (hfresh : t.fresh = false) : Steady sectionLen log := by
  intro i hi hkey
  have hsame := h i (by rw [List.length_append]; omega)
  rw [List.getElem_append_left hi] at hsame
  refine hsame ?_
  rw [presentKey_concat, hfresh, if_neg Bool.false_ne_true, Nat.add_zero, ← hkey,
    ← keyOf_take hi, List.take_left]

/-- Between two lengths of whole blocks there is a block. -/
theorem mul_succ_le_of_lt {n u len : Nat} (hlen : len % n = 0) (h : n * u < len) :
    n * (u + 1) ≤ len := by
  obtain ⟨t, rfl⟩ := Nat.dvd_of_mod_eq_zero hlen
  exact Nat.mul_le_mul_left n (Nat.lt_of_mul_lt_mul_left h)

/-- **The bound.** A key begins at the start of the message or at a multiple of the section length.
A later multiple gets a new key, so the present one has not gone as far as the next. -/
theorem uses_of_steady {sectionLen : Nat} (hlog : Throughout (TakesTurn first) log)
    (hne : log ≠ []) (hsteady : Steady sectionLen log) :
    ∃ begun, sectionLen ∣ begun ∧
      a.blockLen * log.length = begun + a.blockLen * uses Turn.fresh log ∧
      a.blockLen * uses Turn.fresh log ≤ sectionLen := by
  induction log using List.reverseRecOn with
  | nil => exact absurd rfl hne
  | append_singleton log t ih =>
    obtain ⟨hbefore, hturn⟩ := hlog.of_concat
    obtain ⟨hpos, hwhole⟩ := hturn.sectionLen
    have hlast := hsteady.last
    rw [hlast] at hpos hwhole
    have hsucc : a.blockLen * (log ++ [t]).length = a.blockLen * log.length + a.blockLen := by
      rw [List.length_append, List.length_singleton, Nat.mul_succ]
    have hfirst : a.blockLen * 1 ≤ sectionLen :=
      mul_succ_le_of_lt hwhole (by rw [Nat.mul_zero]; exact Nat.pos_of_ne_zero hpos)
    rw [uses_concat, hsucc]
    cases hfresh : t.fresh with
    | true =>
      -- the count is a multiple, and a new key begins there
      have hdue := (of_decide_eq_true hfresh).2
      rw [hturn.found.processed, hlast] at hdue
      rw [if_pos rfl, Nat.mul_one] at *
      exact ⟨a.blockLen * log.length, Nat.dvd_of_mod_eq_zero hdue, rfl, hfirst⟩
    | false =>
      rw [if_neg Bool.false_ne_true]
      by_cases hlogne : log = []
      · rw [hlogne]
        exact ⟨0, Nat.dvd_zero _, by simp, hfirst⟩
      · obtain ⟨begun, hbegun, hcount, hle⟩ := ih hbefore hlogne (hsteady.of_concat hfresh)
        refine ⟨begun, hbegun, by rw [Nat.mul_succ]; omega, ?_⟩
        -- a key that has served all of its section would have been replaced here
        have hnot : a.blockLen * uses Turn.fresh log ≠ sectionLen := by
          intro hfull
          refine of_decide_eq_false hfresh ?_
          rw [hturn.found.processed, hlast, hcount, hfull]
          exact ⟨by omega, Nat.mod_eq_zero_of_dvd ((Nat.dvd_add_left (Nat.dvd_refl _)).mpr hbegun)⟩
        exact mul_succ_le_of_lt hwhole (Nat.lt_of_le_of_ne hle hnot)

/-! ## 5. The law -/

/-- What is known of block `i` of a chain. -/
structure TurnAt (first : SectionKeys a) (log : List (Turn a)) (i : Nat) (t : Turn a) : Prop where
  processed : t.found.processed = a.blockLen * i
  /-- The keys are those of the first section, replaced as often as the log says. -/
  keys : t.keys = SectionKeys.next^[keyOf Turn.fresh log i] first
  /-- The keys have served no more than a section, if they have served one section length. -/
  bounded : (∀ (j : Nat) (h : j < log.length), j ≤ i →
      keyOf Turn.fresh log j = keyOf Turn.fresh log i → log[j].sectionLen = t.sectionLen) →
    a.blockLen * usesAt Turn.fresh log i ≤ t.sectionLen

theorem TakesTurn.turnAt {i : Nat} (hlog : Throughout (TakesTurn first) log)
    (hi : i < log.length) : TurnAt first log i log[i] := by
  have hnum : (log.take i).length = i := by
    rw [List.length_take]
    omega
  obtain ⟨hfound, -⟩ := hlog i hi
  have hprocessed := hfound.processed
  rw [hnum] at hprocessed
  refine ⟨hprocessed, ?_, fun hsame => ?_⟩
  · rw [keyOf_eq Turn.fresh hi]
    exact hfound.keys_concat log[i].sectionLen
  · have hne : log.take (i + 1) ≠ [] :=
      List.ne_nil_of_length_pos (by rw [List.length_take]; omega)
    have hsteady : Steady log[i].sectionLen (log.take (i + 1)) := by
      intro j hj hkey
      have hji : j < i + 1 := Nat.lt_of_lt_of_le hj (List.length_take_le _ _)
      rw [keyOf_take hji] at hkey
      rw [List.getElem_take]
      exact hsame j (by omega) (by omega) hkey
    obtain ⟨-, -, -, hle⟩ := uses_of_steady (hlog.take (i + 1)) hne hsteady
    rwa [usesAt_eq Turn.fresh hi, List.take_append_getElem hi]

/-- **A key serves no more than the section that stays.** A context is made and called in any way,
keyed and reset among others. The count is that of the blocks of its chain; each of them is chained
under the keys that the log says; and keys that have met one section length only have not exceeded
it. -/
theorem section_law (h : Made m) (calls : List Call) :
    let log := m.chainLog [] calls
    let m' := runCalls step m calls
    (m'.keys.isSome = true → m'.processed = a.blockLen * log.length) ∧
      ∀ (i : Nat) (hi : i < log.length),
        ∃ first, m'.initial = some first ∧ TurnAt first log i log[i] := by
  intro log m'
  rcases h.ledger.run h.sound calls with ⟨-, hkeys, hempty⟩ | ⟨first, keys, hinitial, -, hwritten⟩
  · refine ⟨fun hsome => ?_, fun i hi => ?_⟩
    · rw [show m'.keys = none from hkeys] at hsome
      cases hsome
    · rw [show log = [] from hempty] at hi
      exact absurd hi (Nat.not_lt_zero i)
  · exact ⟨fun _ => hwritten.made.processed,
      fun i hi => ⟨first, hinitial, TakesTurn.turnAt hwritten.before hi⟩⟩

/-- A section ends before the end of the message, and the next message has longer ones. -/
theorem section_law_magma :
    ∃ m, ofKey .magma (.zero 32) 16 40 = .ok m ∧
      let calls : List Call :=
        [.update (List.replicate 40 1), .finish, .setSections 24 40, .reset,
          .update (List.replicate 50 2), .verify [1, 2, 3]]
      let log := m.chainLog [] calls
      let m' := runCalls step m calls
      (m'.keys.isSome = true → m'.processed = Algorithm.magma.blockLen * log.length) ∧
        ∀ (i : Nat) (hi : i < log.length),
          ∃ first, m'.initial = some first ∧ TurnAt first log i log[i] := by
  obtain ⟨m, hmade⟩ : ∃ m, ofKey .magma (.zero 32) 16 40 = .ok m := ⟨_, rfl⟩
  exact ⟨m, hmade, section_law (.ofKey hmade) _⟩

/-- **A section length that is set inside of a section** lets its key go on. Three blocks are
chained under sections of four; sections of two are set; the last block has the same key as the
three. -/
theorem section_outgrown :
    ∃ m, ofKey .magma (.zero 32) 32 40 = .ok m ∧
      let log := m.chainLog [] [.update (List.replicate 32 1), .setSections 16 40, .finish]
      ∃ (i : Nat) (hi : i < log.length), log[i].sectionLen = 16 ∧
        Algorithm.magma.blockLen * usesAt Turn.fresh log i = 32 := by
  obtain ⟨m, hmade⟩ : ∃ m, ofKey .magma (.zero 32) 32 40 = .ok m := ⟨_, rfl⟩
  refine ⟨m, hmade, ?_⟩
  intro log
  have hledger : Ledger log _ := (ledger_ofKey hmade).run (sound_ofKey hmade) _
  obtain ⟨-, -, rfl⟩ := ofKey_eq_ok_iff.mp hmade
  let data : ByteString := List.replicate 32 1
  let p : Progress .magma := ⟨SectionKeys.ofKey .magma (.zero 32) 40, 0⟩
  let start := Chain.start Algorithm.magma.blockLen
  let found := start.chained (Progress.process 32) p data
  let last : Turn .magma := ⟨(start.feed (Progress.process 32) p data).1, 16⟩
  have hlog : log = found.map (⟨·, 32⟩) ++ [] ++ [last] := rfl
  have hcount : Chain.blockCount Algorithm.magma.blockLen data - 1 = 3 := by decide
  have hfound : found.length = 3 :=
    (Chain.length_chained_start (Progress.process 32) p data).trans hcount
  have hsections : log.map Turn.sectionLen = [32, 32, 32, 16] := by
    rw [hlog, List.append_nil, List.map_append, List.map_map]
    change found.map (fun _ => 32) ++ [16] = _
    rw [List.map_const', hfound]
    rfl
  have hlen : log.length = 4 := by simpa using congrArg List.length hsections
  have hsection (i : Nat) (hi : i < log.length) :
      log[i].sectionLen = [32, 32, 32, 16].getD i 0 := by
    rw [← hsections]
    simp [hi]
  obtain ⟨hinitial, -, -⟩ | ⟨first, keys, -, -, hwritten⟩ := hledger
  · cases hinitial
  -- none of the counts 0, 8, 16 and 24 is a multiple of its section length
  have hfresh : ∀ t ∈ log, t.fresh = false := by
    intro t ht
    obtain ⟨i, hi, rfl⟩ := List.getElem_of_mem ht
    have hprocessed : log[i].found.processed = 8 * i :=
      (TakesTurn.turnAt hwritten.before hi).processed
    have hnone : ∀ i < 4, decide (0 < 8 * i ∧ 8 * i % [32, 32, 32, 16].getD i 0 = 0) = false := by
      decide
    rw [Turn.fresh, hprocessed, hsection i hi]
    exact hnone i (by omega)
  refine ⟨3, by omega, hsection 3 (by omega), ?_⟩
  rw [usesAt_eq _ (by omega), List.take_append_getElem, List.take_of_length_le (by omega),
    uses_of_never_fresh hfresh, hlen]
  rfl

end MeshedOmac

end GostSuite

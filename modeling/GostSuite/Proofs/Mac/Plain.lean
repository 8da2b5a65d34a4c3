import GostSuite.Mac.Omac
import GostSuite.Proofs.Mac.Meshed

/-!
# The plain code, block by block

The plain code has one key. Every block but the last is added to the state and the sum is encrypted;
the last one is whitened first, in the way of the meshed code. `wholeCode` says that of a message
that is at hand, and a context gives it however the message comes in: `Fed` is the state of a
context that has been fed with a message, and each call of a session goes from one such state to
another. None of these calls is refused, because the context is keyed and not finished.
-/

set_option autoImplicit false

namespace GostSuite

namespace Omac

variable {a : Algorithm} {c : Cipher a}

/-! ## 1. The code as a definition -/

def chainState (c : Cipher a) (message : ByteString) : Nat → Block a
  | 0 => .zero a.blockLen
  | i + 1 => c.encrypt (chainState c message i ^^^ Chain.blockAt a.blockLen message i)

/-- The whole code of a message: the state before the last block, and the last block whitened with
the double of the encrypted zero block, or with the double of that. -/
def wholeCode (c : Cipher a) (message : ByteString) : Block a :=
  c.encrypt
    (chainState c message (Chain.blockCount a.blockLen message - 1) ^^^
      MeshedOmac.lastBlock (.ofCipher c) (Chain.held a.blockLen message))

/-! ## 2. A context and its message -/

/-- Chaining the first blocks of a message leaves the key as it is and leads to their state. -/
theorem run_blocks (c : Cipher a) (message : ByteString) (i : Nat) :
    Chain.run MacKey.process (.ofCipher c, .zero a.blockLen)
        ((List.range i).map (Chain.blockAt a.blockLen message)) =
      (.ofCipher c, chainState c message i) := by
  induction i with
  | zero => rfl
  | succ i ih =>
    rw [List.range_succ, List.map_append, Chain.run, List.foldl_append]
    change Chain.run MacKey.process (Chain.run MacKey.process _ _) _ = _
    rw [ih]
    rfl

def chainAfter (c : Cipher a) (message : ByteString) : Chain a.blockLen :=
  (Chain.after MacKey.process (.ofCipher c) message).2

theorem after_eq (c : Cipher a) (message : ByteString) :
    Chain.after MacKey.process (.ofCipher c) message = (.ofCipher c, chainAfter c message) := by
  have hkey : (Chain.after MacKey.process (.ofCipher c) message).1 = MacKey.ofCipher c :=
    congrArg Prod.fst (run_blocks c message _)
  exact Prod.ext hkey rfl

theorem chainAfter_state (c : Cipher a) (message : ByteString) :
    (chainAfter c message).state =
      chainState c message (Chain.blockCount a.blockLen message - 1) :=
  congrArg Prod.snd (run_blocks c message _)

/-- A context over the cipher `c` that has been fed with `message` and not been finished. -/
structure Fed (c : Cipher a) (macLen : Nat) (message : ByteString) (m : Omac a) : Prop where
  key : m.key = some (.ofCipher c)
  chain : m.chain = chainAfter c message
  macLen : m.macLen = macLen
  unfinished : m.finished = false

theorem Fed.ofCipher (c : Cipher a) : Fed c a.blockLen [] (ofCipher c) where
  key := rfl
  chain := by
    have hempty : Chain.after MacKey.process (.ofCipher c) [] =
        (MacKey.ofCipher c, Chain.start a.blockLen) := Chain.after_nil
    rw [chainAfter, hempty]
    rfl
  macLen := rfl
  unfinished := rfl

variable {macLen : Nat} {message : ByteString} {m : Omac a}

theorem Fed.ready (h : Fed c macLen message m) : m.ready = .ok (.ofCipher c) := by
  rw [Omac.ready, h.unfinished, h.key]
  rfl

theorem Fed.update (h : Fed c macLen message m) (piece : ByteString) :
    ∃ m', m.update piece = .done m' () ∧ Fed c macLen (message ++ piece) m' := by
  have hfeed : (m.chain.feed MacKey.process (.ofCipher c) piece).2 =
      chainAfter c (message ++ piece) := by
    have hrun : (chainAfter c message).feed MacKey.process
        (Chain.after MacKey.process (.ofCipher c) message).1 piece =
        Chain.after MacKey.process (.ofCipher c) (message ++ piece) :=
      Chain.feed_after message piece
    rw [after_eq, after_eq] at hrun
    rw [h.chain, hrun]
  refine ⟨{ m with chain := chainAfter c (message ++ piece) }, ?_,
    h.key, rfl, h.macLen, h.unfinished⟩
  rw [Omac.update, h.ready, ← hfeed]

theorem Fed.goesThrough_update (h : Fed c macLen message m) (pieces : List ByteString) :
    ∃ m', GoesThrough step m (pieces.map .update) [] m' ∧
      Fed c macLen (message ++ pieces.flatten) m' := by
  refine GoesThrough.ofPieces (fun message m h piece => ?_) h pieces
  obtain ⟨m', hupdate, hfed⟩ := h.update piece
  exact ⟨m', congrArg StepOutcome.ofUnit hupdate, hfed⟩

/-- The end of the message gives the code, cut to the length that was set, and finishes the
context. -/
theorem Fed.finish (h : Fed c macLen message m) :
    m.finish = .done { m with finished := true } (.ofBlock (wholeCode c message) macLen) := by
  have hclose : (MacKey.ofCipher c).close m.chain m.macLen =
      .ofBlock (wholeCode c message) macLen := by
    rw [MacKey.close, Chain.close, MeshedOmac.chain_lastBlock, h.chain, h.macLen,
      chainAfter_state]
    rfl
  rw [Omac.finish, h.ready, ← hclose]

theorem Fed.setMacLen (h : Fed c macLen message m) {size : Nat}
    (hsize : 1 ≤ size ∧ size ≤ a.blockLen) :
    ∃ m', m.setMacLen size = .done m' () ∧ Fed c size message m' := by
  refine ⟨{ m with macLen := size }, ?_, h.key, h.chain, rfl, h.unfinished⟩
  rw [Omac.setMacLen, Bounds.macLen, Algorithm.macLen, if_pos hsize]
  rfl

end Omac

end GostSuite

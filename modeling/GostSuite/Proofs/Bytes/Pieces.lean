import GostSuite.Bytes.Pieces
import Mathlib.Data.List.Chain

/-!
# Pieces leave nothing out

A caller who hands data over in pieces has cut it by a list of lengths that starts over when it is
used up. Whoever compares the outcome with that of one call takes for granted that the pieces are
the data: no byte skipped, none handed over twice, and an end to it for lengths that are all zero.
That is `pieces_divide`.

The loop asks a rotation for the next length. What it is told in turn `i` is a matter of counting,
and it is settled first (`Rotation.InTurn.next`); behind that point the rotation is forgotten, and
the pieces are those of `Tiles`, where the length of a piece is a function of its number.
-/

set_option autoImplicit false

namespace GostSuite

/-! ## 1. Whose turn it is -/

/-- The rotation after it has been asked `i` times. It comes round only when it is asked again, so
behind the last length there is nothing left for a moment. -/
structure Rotation.InTurn (lengths : List UInt8) (i : Nat) (r : Rotation) : Prop where
  all : r.all = lengths
  left : r.left = lengths.drop (i % lengths.length) ∨ r.left = [] ∧ i % lengths.length = 0

namespace Rotation

variable {lengths : List UInt8} {i : Nat} {r : Rotation}

theorem inTurn_start (lengths : List UInt8) : InTurn lengths 0 (start lengths) where
  all := rfl
  left := Or.inl (by simp [start])

theorem next_cons {length : UInt8} {left : List UInt8} (h : r.left = length :: left) :
    r.next = (some length, ⟨r.all, left⟩) := by
  unfold next
  rw [h]

theorem next_round {length : UInt8} {left : List UInt8} (h : r.left = [])
    (hall : r.all = length :: left) : r.next = (some length, ⟨r.all, left⟩) := by
  unfold next
  rw [h, hall]

theorem next_none (h : r.left = []) (hall : r.all = []) : r.next = (none, r) := by
  unfold next
  rw [h, hall]

/-- One length further on the rotation is in its next turn, or at its end. -/
theorem inTurn_drop (h : i % lengths.length < lengths.length) :
    InTurn lengths (i + 1) ⟨lengths, lengths.drop (i % lengths.length + 1)⟩ := by
  refine ⟨rfl, ?_⟩
  rw [← Nat.mod_add_mod i lengths.length 1]
  by_cases hlast : i % lengths.length + 1 = lengths.length
  · right
    simp [hlast]
  · left
    rw [Nat.mod_eq_of_lt (show i % lengths.length + 1 < lengths.length by omega)]

theorem InTurn.next (h : InTurn lengths i r) :
    r.next.1 = lengths[i % lengths.length]? ∧ InTurn lengths (i + 1) r.next.2 := by
  obtain ⟨hall, hleft⟩ := h
  cases hlengths : lengths with
  | nil =>
    subst hlengths
    have hr : r.left = [] := by rcases hleft with hleft | ⟨hleft, -⟩ <;> simpa using hleft
    rw [next_none hr hall]
    exact ⟨rfl, hall, Or.inl (by simpa using hr)⟩
  | cons first more =>
    have hlt : i % lengths.length < lengths.length := Nat.mod_lt _ (by simp [hlengths])
    have hdrop := List.drop_eq_getElem_cons hlt
    have hnext : r.next = (some lengths[i % lengths.length],
        ⟨lengths, lengths.drop (i % lengths.length + 1)⟩) := by
      rcases hleft with hleft | ⟨hleft, hzero⟩
      · rw [next_cons (hleft.trans hdrop), hall]
      · have hwhole : lengths = lengths.drop (i % lengths.length) := by
          rw [hzero, List.drop_zero]
        rw [next_round hleft (hall.trans (hwhole.trans hdrop)), hall]
    rw [← hlengths, hnext]
    exact ⟨(List.getElem?_eq_getElem hlt).symm, inTurn_drop hlt⟩

end Rotation

namespace Piece

variable {total i start : Nat} {lengths : List UInt8} {ps : List Piece}

/-! ## 2. Tiles -/

/-- The pieces from the `i`-th on, which begins at `start`. Each is as long as its number asks for,
and what goes beyond the end is cut off. -/
inductive Tiles (total : Nat) (lengths : List UInt8) : (i start : Nat) → List Piece → Prop where
  | done (i : Nat) : Tiles total lengths i total []
  | piece {i start : Nat} {more : List Piece} (h : start < total)
      (rest : Tiles total lengths (i + 1) (min (start + wanted total lengths i) total) more) :
      Tiles total lengths i start (⟨start, min (start + wanted total lengths i) total⟩ :: more)

theorem wanted_pos (h : 0 < total) (lengths : List UInt8) (i : Nat) :
    0 < wanted total lengths i :=
  size_pos h _

theorem listFrom_of_lt (r : Rotation) (h : start < total) :
    listFrom total r start =
      ⟨start, min (start + size total r.next.1) total⟩ ::
        listFrom total r.next.2 (min (start + size total r.next.1) total) := by
  rw [listFrom, if_pos h]

theorem listFrom_end (total : Nat) (r : Rotation) : listFrom total r total = [] := by
  rw [listFrom, if_neg (Nat.lt_irrefl total)]

theorem tiles_listFrom {i start : Nat} {r : Rotation} (hturn : r.InTurn lengths i)
    (h : start ≤ total) : Tiles total lengths i start (listFrom total r start) := by
  rcases Nat.eq_or_lt_of_le h with rfl | hlt
  · rw [listFrom_end]
    exact .done i
  · obtain ⟨hasked, hnext⟩ := hturn.next
    rw [listFrom_of_lt r hlt, hasked]
    exact .piece hlt (tiles_listFrom hnext (Nat.min_le_right ..))
termination_by total - start
decreasing_by
  have hpos := wanted_pos (show 0 < total by omega) lengths i
  omega

theorem tiles_pieces (total : Nat) (lengths : List UInt8) :
    Tiles total lengths 0 0 (pieces total lengths) :=
  tiles_listFrom (Rotation.inTurn_start lengths) (Nat.zero_le total)

/-! ## 3. What tiles cover -/

def length (p : Piece) : Nat := p.stop - p.start

def positions (p : Piece) : List Nat := List.range' p.start p.length

theorem Tiles.start_le (h : Tiles total lengths i start ps) : start ≤ total := by
  cases h with
  | done => exact Nat.le_refl total
  | piece h => exact Nat.le_of_lt h

theorem Tiles.getElem (h : Tiles total lengths i start ps) {k : Nat} (hk : k < ps.length) :
    ps[k].start < total ∧ ps[k].stop = min (ps[k].start + wanted total lengths (i + k)) total := by
  induction h generalizing k with
  | done => exact absurd hk (by simp)
  | @piece i start more hlt rest ih =>
    cases k with
    | zero => exact ⟨hlt, rfl⟩
    | succ k =>
      have hnext := ih (Nat.lt_of_succ_lt_succ hk)
      rwa [Nat.add_assoc, Nat.add_comm 1] at hnext

theorem Tiles.nonempty (h : Tiles total lengths i start ps) : ∀ p ∈ ps, p.start < p.stop := by
  intro p hp
  obtain ⟨k, hk, rfl⟩ := List.mem_iff_getElem.mp hp
  obtain ⟨hlt, hstop⟩ := h.getElem hk
  have hpos := wanted_pos (show 0 < total by omega) lengths (i + k)
  omega

theorem Tiles.count_le (h : Tiles total lengths i start ps) : ps.length ≤ total - start := by
  induction h with
  | done => simp
  | @piece i start more hlt rest ih =>
    have hpos := wanted_pos (show 0 < total by omega) lengths i
    rw [List.length_cons]
    omega

theorem Tiles.isChain (h : Tiles total lengths i start ps) :
    (∀ p ∈ ps.head?, p.start = start) ∧ ps.IsChain fun p q => p.stop = q.start := by
  induction h with
  | done => simp
  | piece hlt rest ih =>
    refine ⟨by simp, List.isChain_cons.mpr ⟨?_, ih.2⟩⟩
    intro q hq
    exact (ih.1 q hq).symm

theorem Tiles.positions_eq (h : Tiles total lengths i start ps) :
    ps.flatMap positions = List.range' start (total - start) := by
  induction h with
  | done => simp
  | @piece i start more hlt rest ih =>
    have hstop := rest.start_le
    have hstart : start ≤ min (start + wanted total lengths i) total := by omega
    rw [List.flatMap_cons, ih]
    generalize min (start + wanted total lengths i) total = stop at hstop hstart
    show List.range' start (stop - start) ++ List.range' stop (total - stop) = _
    have hsum : stop = start + (stop - start) := by omega
    have hrest : total - start = (stop - start) + (total - stop) := by omega
    rw [hrest, ← List.range'_append_1, ← hsum]

theorem Tiles.gather (h : Tiles total lengths i start ps) {data : ByteString}
    (hdata : data.length = total) : ps.flatMap (·.of data) = data.drop start := by
  induction h with
  | done => simp [← hdata]
  | @piece i start more hlt rest ih =>
    have hstart : start ≤ min (start + wanted total lengths i) total := by omega
    rw [List.flatMap_cons, ih]
    generalize min (start + wanted total lengths i) total = stop at hstart
    show (data.drop start).take (stop - start) ++ data.drop stop = _
    have hrest : data.drop stop = (data.drop start).drop (stop - start) := by
      rw [List.drop_drop]
      congr 1
      omega
    rw [hrest, List.take_append_drop]

theorem wanted_of_ne_nil (total : Nat) (h : lengths ≠ []) (k : Nat) :
    wanted total lengths k = max 1 (lengths.getD (k % lengths.length) 0).toNat := by
  have hlt : k % lengths.length < lengths.length :=
    Nat.mod_lt _ (List.length_pos_of_ne_nil h)
  simp [wanted, size, hlt, Nat.max_comm]

theorem wanted_nil (total k : Nat) : wanted total [] k = total := by
  simp [wanted, size]

/-- With no lengths there is one piece, and none of nothing. -/
theorem Tiles.whole (h : Tiles total [] 0 0 ps) : ps = [] ∨ ps = [⟨0, total⟩] := by
  cases h with
  | done => exact Or.inl rfl
  | @piece _ _ more hlt rest =>
    have hend : min (0 + wanted total [] 0) total = total := by
      rw [wanted_nil]
      omega
    rw [hend] at rest ⊢
    cases rest with
    | done => exact Or.inr rfl
    | piece hmore => exact absurd hmore (Nat.lt_irrefl total)

theorem Tiles.length_le (h : Tiles total lengths 0 0 ps) {k : Nat} (hk : k < ps.length) :
    ps[k].length ≤ wanted total lengths k := by
  obtain ⟨-, hstop⟩ := h.getElem hk
  rw [Nat.zero_add] at hstop
  unfold length
  omega

/-- Only what would go beyond the end is cut off, and then no piece follows. -/
theorem Tiles.length_eq (h : Tiles total lengths 0 0 ps) {k : Nat} (hk : k + 1 < ps.length) :
    ps[k].length = wanted total lengths k := by
  have hmeet : ps[k].stop = ps[k + 1].start := h.isChain.2.getElem k hk
  obtain ⟨-, hstop⟩ := h.getElem (Nat.lt_of_succ_lt hk)
  obtain ⟨hnext, -⟩ := h.getElem hk
  rw [Nat.zero_add] at hstop
  unfold length
  omega

/-- A length that was asked for is a byte; all of the data is asked for only at its start. -/
theorem Tiles.fits (h : Tiles total lengths 0 0 ps) {largest : Nat} (hlargest : total < largest - 255)
    {k : Nat} (hk : k < ps.length) : ps[k].start + wanted total lengths k ≤ largest := by
  obtain ⟨hlt, -⟩ := h.getElem hk
  by_cases hlengths : lengths = []
  · subst hlengths
    have hstart : ps[k].start = 0 := by
      rcases h.whole with hps | hps <;> simp [hps] at hk ⊢
    rw [hstart, wanted_nil]
    omega
  · rw [wanted_of_ne_nil total hlengths]
    have hbyte := (lengths.getD (k % lengths.length) 0).toNat_lt
    omega

end Piece

/-! ## 4. The division -/

/-- What it is to divide `total` bytes into pieces by lengths that are used in turn. -/
structure Division (total : Nat) (lengths : List UInt8) (ps : List Piece) : Prop where
  nonempty : ∀ p ∈ ps, p.start < p.stop
  consecutive : ps.IsChain fun p q => p.stop = q.start
  /-- Every position is in one piece, and they come in order. -/
  covers : ps.flatMap Piece.positions = List.range total
  eq_nil_iff : ps = [] ↔ total = 0
  count_le : ps.length ≤ total
  /-- Zero asks for one byte, and behind the last length comes the first one. -/
  length_eq (k : Nat) (h : k + 1 < ps.length) (hlengths : lengths ≠ []) :
    ps[k].length = max 1 (lengths.getD (k % lengths.length) 0).toNat
  /-- The last piece is what is left. -/
  length_le (k : Nat) (h : k < ps.length) (hlengths : lengths ≠ []) :
    ps[k].length ≤ max 1 (lengths.getD (k % lengths.length) 0).toNat
  single : lengths = [] → ps.length ≤ 1
  gathers (data : ByteString) (h : data.length = total) : ps.flatMap (·.of data) = data
  /-- No end of a piece that is computed on the way goes beyond the largest number of a machine,
  if all bytes and one longest piece do not. -/
  fits (largest : Nat) (h : total < largest - 255) (k : Nat) (hk : k < ps.length) :
    ps[k].start + Piece.wanted total lengths k ≤ largest

/-- **Data in pieces is the data.** Whatever the lengths are, zeros and none at all included, the
cut ends, the pieces follow each other over all positions, and their lengths are those asked for. -/
theorem pieces_divide (total : Nat) (lengths : List UInt8) :
    Division total lengths (pieces total lengths) := by
  have h := Piece.tiles_pieces total lengths
  have hcovers : (pieces total lengths).flatMap Piece.positions = List.range total := by
    rw [h.positions_eq, Nat.sub_zero, List.range_eq_range']
  constructor
  case nonempty => exact h.nonempty
  case consecutive => exact h.isChain.2
  case covers => exact hcovers
  case eq_nil_iff =>
    constructor
    · intro hnil
      rw [hnil] at hcovers
      simpa using hcovers.symm
    · rintro rfl
      exact Piece.listFrom_end 0 _
  case count_le => exact h.count_le
  case length_eq =>
    intro k hk hlengths
    rw [h.length_eq hk, Piece.wanted_of_ne_nil total hlengths]
  case length_le =>
    intro k hk hlengths
    rw [← Piece.wanted_of_ne_nil total hlengths]
    exact h.length_le hk
  case single =>
    rintro rfl
    rcases h.whole with hps | hps <;> simp [hps]
  case gathers =>
    intro data hdata
    rw [h.gather hdata, List.drop_zero]
  case fits =>
    intro largest hlargest k hk
    exact h.fits hlargest hk

example : pieces 7 [2, 0] = [⟨0, 2⟩, ⟨2, 3⟩, ⟨3, 5⟩, ⟨5, 6⟩, ⟨6, 7⟩] := by cbv

end GostSuite

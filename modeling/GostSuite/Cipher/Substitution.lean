import GostSuite.Algorithm
import GostSuite.Bytes.Basic

/-!
# Substitution tables of the 64-bit ciphers

The round function of GOST 28147-89 replaces each of the eight nibbles of a word by an entry of its
own row. A `Substitution` is these eight rows; row `i` belongs to nibble `i`, counted from the least
significant one. Rows need not be permutations: the network is invertible for any rows.

The rounds do not look up nibbles. `ByteTables` merges the rows in pairs, so that a word takes four
look-ups, one a byte. The merged tables of the published sets are built once.
-/

set_option autoImplicit false

namespace GostSuite

/-- The replacement of one nibble, by its value. -/
abbrev Row := Vector (BitVec 4) 16

/-- Row `i` replaces nibble `i`, counted from the least significant one. -/
abbrev Substitution := Vector Row 8

/-- Table `i` replaces byte `i`, counted from the least significant one. -/
abbrev ByteTables := Vector (ByteTable UInt8) 4

def Row.entry (row : Row) (x : BitVec 4) : BitVec 4 := row.get ⟨x.toNat, x.isLt⟩

namespace Substitution

/-- Two rows side by side: `low` for the low nibble of a byte, `high` for the high one. -/
def mergeRows (low high : Row) : ByteTable UInt8 :=
  Vector.ofFn fun i =>
    let x := BitVec.ofNat 8 i
    .ofBitVec (high.entry (x.extractLsb' 4 4) ++ low.entry (x.extractLsb' 0 4))

/-- The rows merged in pairs. -/
def byteTables (s : Substitution) : ByteTables :=
  #v[mergeRows s[0] s[1], mergeRows s[2] s[3], mergeRows s[4] s[5], mergeRows s[6] s[7]]

def test : Substitution :=
  #v[
    #v[4, 10, 9, 2, 13, 8, 0, 14, 6, 11, 1, 12, 7, 15, 5, 3],
    #v[14, 11, 4, 12, 6, 13, 15, 10, 2, 3, 8, 1, 0, 7, 5, 9],
    #v[5, 8, 1, 13, 10, 3, 4, 2, 14, 15, 12, 7, 6, 0, 9, 11],
    #v[7, 13, 10, 1, 0, 8, 9, 15, 14, 4, 6, 12, 11, 2, 5, 3],
    #v[6, 12, 7, 1, 5, 15, 13, 8, 4, 10, 9, 14, 0, 3, 11, 2],
    #v[4, 11, 10, 0, 7, 2, 1, 13, 3, 6, 8, 5, 9, 12, 15, 14],
    #v[13, 11, 4, 1, 3, 15, 5, 9, 0, 10, 14, 7, 6, 8, 2, 12],
    #v[1, 15, 13, 0, 5, 7, 10, 4, 9, 2, 3, 14, 6, 11, 8, 12]]

def cryptoProA : Substitution :=
  #v[
    #v[9, 6, 3, 2, 8, 11, 1, 7, 10, 4, 14, 15, 12, 0, 13, 5],
    #v[3, 7, 14, 9, 8, 10, 15, 0, 5, 2, 6, 12, 11, 4, 13, 1],
    #v[14, 4, 6, 2, 11, 3, 13, 8, 12, 15, 5, 10, 0, 7, 1, 9],
    #v[14, 7, 10, 12, 13, 1, 3, 9, 0, 2, 11, 4, 15, 8, 5, 6],
    #v[11, 5, 1, 9, 8, 13, 15, 0, 14, 4, 2, 3, 12, 7, 10, 6],
    #v[3, 10, 13, 12, 1, 2, 0, 11, 7, 5, 9, 4, 8, 15, 14, 6],
    #v[1, 13, 2, 9, 7, 10, 6, 0, 8, 12, 4, 5, 15, 3, 11, 14],
    #v[11, 10, 15, 5, 0, 12, 14, 8, 6, 2, 3, 9, 1, 7, 13, 4]]

def cryptoProB : Substitution :=
  #v[
    #v[8, 4, 11, 1, 3, 5, 0, 9, 2, 14, 10, 12, 13, 6, 7, 15],
    #v[0, 1, 2, 10, 4, 13, 5, 12, 9, 7, 3, 15, 11, 8, 6, 14],
    #v[14, 12, 0, 10, 9, 2, 13, 11, 7, 5, 8, 15, 3, 6, 1, 4],
    #v[7, 5, 0, 13, 11, 6, 1, 2, 3, 10, 12, 15, 4, 14, 9, 8],
    #v[2, 7, 12, 15, 9, 5, 10, 11, 1, 4, 0, 13, 6, 8, 14, 3],
    #v[8, 3, 2, 6, 4, 13, 14, 11, 12, 1, 7, 15, 10, 0, 9, 5],
    #v[5, 2, 10, 11, 9, 1, 12, 3, 7, 4, 13, 0, 6, 15, 8, 14],
    #v[0, 4, 11, 14, 8, 3, 7, 1, 10, 2, 9, 6, 15, 13, 5, 12]]

def cryptoProC : Substitution :=
  #v[
    #v[1, 11, 12, 2, 9, 13, 0, 15, 4, 5, 8, 14, 10, 7, 6, 3],
    #v[0, 1, 7, 13, 11, 4, 5, 2, 8, 14, 15, 12, 9, 10, 6, 3],
    #v[8, 2, 5, 0, 4, 9, 15, 10, 3, 7, 12, 13, 6, 14, 1, 11],
    #v[3, 6, 0, 1, 5, 13, 10, 8, 11, 2, 9, 7, 14, 15, 12, 4],
    #v[8, 13, 11, 0, 4, 5, 1, 2, 9, 3, 12, 14, 6, 15, 10, 7],
    #v[12, 9, 11, 1, 8, 14, 2, 4, 7, 3, 6, 5, 10, 0, 15, 13],
    #v[10, 9, 6, 8, 13, 14, 2, 0, 15, 3, 5, 11, 4, 1, 12, 7],
    #v[7, 4, 0, 5, 10, 2, 15, 14, 12, 6, 1, 11, 13, 9, 3, 8]]

def cryptoProD : Substitution :=
  #v[
    #v[10, 4, 5, 6, 8, 1, 3, 7, 13, 12, 14, 0, 9, 2, 11, 15],
    #v[5, 15, 4, 0, 2, 13, 11, 9, 1, 7, 6, 3, 12, 14, 10, 8],
    #v[7, 15, 12, 14, 9, 4, 1, 0, 3, 11, 5, 2, 6, 10, 8, 13],
    #v[4, 10, 7, 12, 0, 15, 2, 8, 14, 1, 6, 5, 13, 11, 9, 3],
    #v[7, 6, 4, 11, 9, 12, 2, 10, 1, 8, 0, 14, 15, 13, 3, 5],
    #v[7, 6, 2, 4, 13, 9, 15, 0, 10, 1, 5, 11, 8, 14, 12, 3],
    #v[13, 14, 4, 1, 7, 0, 5, 10, 3, 12, 8, 15, 6, 2, 9, 11],
    #v[1, 3, 10, 9, 5, 11, 4, 15, 8, 6, 7, 14, 13, 0, 2, 12]]

/-- The rows of TC26 set Z, which are also those of Magma. -/
def tc26Z : Substitution :=
  #v[
    #v[12, 4, 6, 2, 10, 5, 11, 9, 14, 8, 13, 7, 0, 3, 15, 1],
    #v[6, 8, 2, 3, 9, 10, 5, 12, 1, 14, 4, 7, 11, 13, 0, 15],
    #v[11, 3, 5, 8, 2, 15, 10, 13, 14, 1, 7, 4, 12, 9, 6, 0],
    #v[12, 8, 2, 1, 13, 4, 15, 6, 7, 0, 10, 5, 3, 14, 9, 11],
    #v[7, 15, 5, 10, 8, 1, 6, 13, 0, 9, 3, 14, 11, 4, 2, 12],
    #v[5, 13, 15, 6, 9, 2, 12, 10, 11, 7, 8, 1, 4, 3, 14, 0],
    #v[8, 14, 2, 5, 6, 9, 1, 12, 15, 4, 11, 0, 13, 10, 3, 7],
    #v[1, 7, 14, 13, 0, 5, 8, 3, 4, 15, 10, 6, 9, 12, 11, 2]]

end Substitution

namespace ParamSet

def substitution : ParamSet → Substitution
  | test => Substitution.test
  | cryptoProA => Substitution.cryptoProA
  | cryptoProB => Substitution.cryptoProB
  | cryptoProC => Substitution.cryptoProC
  | cryptoProD => Substitution.cryptoProD
  | tc26Z => Substitution.tc26Z

/-- The merged rows, built once. -/
def testTables : ByteTables := Substitution.test.byteTables

def cryptoProATables : ByteTables := Substitution.cryptoProA.byteTables

def cryptoProBTables : ByteTables := Substitution.cryptoProB.byteTables

def cryptoProCTables : ByteTables := Substitution.cryptoProC.byteTables

def cryptoProDTables : ByteTables := Substitution.cryptoProD.byteTables

def tc26ZTables : ByteTables := Substitution.tc26Z.byteTables

def tables : ParamSet → ByteTables
  | test => testTables
  | cryptoProA => cryptoProATables
  | cryptoProB => cryptoProBTables
  | cryptoProC => cryptoProCTables
  | cryptoProD => cryptoProDTables
  | tc26Z => tc26ZTables

/-- Naming a set and merging its rows come to the same tables. -/
theorem tables_eq (set : ParamSet) : set.tables = set.substitution.byteTables := by
  cases set <;> rfl

end ParamSet

end GostSuite

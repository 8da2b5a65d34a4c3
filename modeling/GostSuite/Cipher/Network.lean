import GostSuite.Bytes.BigEndian
import GostSuite.Cipher.Substitution

/-!
# The 64-bit network

Magma and Gost89 run one Feistel network over two words. A round adds a key word to one half,
substitutes, turns the result left by eleven and adds it to the other half; then the halves change
places. The key is eight words, and a schedule is a list of them: three times forward and once
backward to encrypt, the reverse of that to decrypt, twice forward for the imitation code.

The two ciphers differ in the substitution and in how words are read from bytes. Magma is
big-endian throughout, Gost89 is little-endian, and the halves stand the other way round. Both
give their halves back exchanged, which undoes the exchange of the last round. The imitation code
does not exchange them.
-/

set_option autoImplicit false

namespace GostSuite

/-- The unit of the 64-bit ciphers. -/
abbrev Word := UInt32

namespace Word

/-- Reads four bytes, the first one weighing most. -/
def ofBigEndian (s : ByteString) : Word := UInt32.ofNat s.value

/-- Reads four bytes, the first one weighing least. -/
def ofLittleEndian (s : ByteString) : Word := ofBigEndian s.reverse

def bigEndian (x : Word) : ByteString := ByteString.bigEndian 4 x.toNat

def littleEndian (x : Word) : ByteString := x.bigEndian.reverse

@[simp] theorem length_bigEndian (x : Word) : x.bigEndian.length = 4 := by simp [bigEndian]

@[simp] theorem length_littleEndian (x : Word) : x.littleEndian.length = 4 := by
  simp [littleEndian]

/-- Byte `i` of the word, counted from the least significant one. -/
@[inline] def byte (x i : Word) : UInt8 := (x >>> (8 * i)).toUInt8

/-- The word whose byte `i` is `b` and whose other bytes are zero. -/
@[inline] def ofByte (b : UInt8) (i : Word) : Word := b.toUInt32 <<< (8 * i)

/-- The word turned left by `i` bits, for `i` from 1 to 31. -/
@[inline] def rotateLeft (x i : Word) : Word := (x <<< i) ||| (x >>> (32 - i))

end Word

def Bytes.quarter {n : Nat} (b : Bytes n) (i : Nat) : ByteString := (b.toList.drop (4 * i)).take 4

/-- The eight words of a key, in the given byte order. -/
def Key.words (read : ByteString → Word) (key : Key) : List Word :=
  (List.range 8).map fun i => read (Bytes.quarter key i)

namespace Network

/-- The two halves of a block: the one that receives, and the one that goes through the round
function. -/
abbrev Halves := Word × Word

/-- Replaces every byte of a word by the entry of its table. -/
def substitute (tables : ByteTables) (x : Word) : Word :=
  .ofByte (tables[0].entry (x.byte 0)) 0 ||| .ofByte (tables[1].entry (x.byte 1)) 1 |||
    .ofByte (tables[2].entry (x.byte 2)) 2 ||| .ofByte (tables[3].entry (x.byte 3)) 3

/-- The round function over merged tables: add the key word, substitute, turn left by eleven. -/
def mix (tables : ByteTables) (a k : Word) : Word := Word.rotateLeft (substitute tables (a + k)) 11

/-- The rounds of a schedule, one key word each. -/
@[specialize] def rounds (g : Word → Word → Word) : List Word → Halves → Halves
  | [], h => h
  | k :: schedule, (a, b) => rounds g schedule (b, a ^^^ g b k)

/-- The order of the key words for encryption. -/
def forward (words : List Word) : List Word := words ++ words ++ words ++ words.reverse

def backward (words : List Word) : List Word :=
  words ++ words.reverse ++ words.reverse ++ words.reverse

/-- The order of the key words for the imitation code. -/
def half (words : List Word) : List Word := words ++ words

end Network

namespace Magma

def words (key : Key) : List Word := key.words Word.ofBigEndian

def split (b : Bytes 8) : Network.Halves :=
  (Word.ofBigEndian (b.quarter 0), Word.ofBigEndian (b.quarter 1))

/-- The block of two halves, exchanged. -/
def join (h : Network.Halves) : Bytes 8 := ⟨h.2.bigEndian ++ h.1.bigEndian, by simp⟩

def run (schedule : List Word) (b : Bytes 8) : Bytes 8 :=
  join (Network.rounds (Network.mix ParamSet.tc26Z.tables) schedule (split b))

end Magma

namespace Gost89

def words (key : Key) : List Word := key.words Word.ofLittleEndian

def split (b : Bytes 8) : Network.Halves :=
  (Word.ofLittleEndian (b.quarter 1), Word.ofLittleEndian (b.quarter 0))

/-- The block of two halves, exchanged. -/
def join (h : Network.Halves) : Bytes 8 := ⟨h.1.littleEndian ++ h.2.littleEndian, by simp⟩

/-- The block of two halves as they stand. -/
def joinStraight (h : Network.Halves) : Bytes 8 := ⟨h.2.littleEndian ++ h.1.littleEndian, by simp⟩

/-- The halves of a block through the rounds of a schedule. -/
def runHalves (params : ParamSet) (schedule : List Word) (b : Bytes 8) : Network.Halves :=
  Network.rounds (Network.mix params.tables) schedule (split b)

end Gost89

end GostSuite

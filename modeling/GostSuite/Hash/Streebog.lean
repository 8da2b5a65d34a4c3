import GostSuite.Bytes.Pieces
import GostSuite.Cipher.Kuznyechik

/-!
# Streebog

The 256-bit hash of GOST R 34.11-2012. A message is cut into blocks of 512 bits, and each block
goes into the chain through one keyed transformation of its own, a block cipher over 512 bits whose
key is the chain. The last block is the rest of the message, a one, and zeros. After it the chain
takes in the length of the message in bits and the sum of all blocks.

Numbers of 512 bits are eight words, the lowest one first, as the bytes of the message stand in
memory. A round substitutes the bytes, exchanges rows and columns of the square they form, and maps
each row through a matrix; all three are one look-up a byte in a table.

A context is a value, and a context that has taken in whole blocks can be finished any number of
times. The keyed code uses that: it takes in the key once.
-/

set_option autoImplicit false

namespace GostSuite

namespace Streebog

/-- A number of 512 bits, lowest word first. -/
structure Wide where
  w0 : UInt64
  w1 : UInt64
  w2 : UInt64
  w3 : UInt64
  w4 : UInt64
  w5 : UInt64
  w6 : UInt64
  w7 : UInt64

namespace Wide

def xor (a b : Wide) : Wide :=
  ⟨a.w0 ^^^ b.w0, a.w1 ^^^ b.w1, a.w2 ^^^ b.w2, a.w3 ^^^ b.w3,
    a.w4 ^^^ b.w4, a.w5 ^^^ b.w5, a.w6 ^^^ b.w6, a.w7 ^^^ b.w7⟩

/-- The words of a number, modulo `2^512`. -/
def ofNat (v : Nat) : Wide :=
  ⟨UInt64.ofNat v, UInt64.ofNat (v >>> 64), UInt64.ofNat (v >>> 128), UInt64.ofNat (v >>> 192),
    UInt64.ofNat (v >>> 256), UInt64.ofNat (v >>> 320), UInt64.ofNat (v >>> 384),
    UInt64.ofNat (v >>> 448)⟩

/-- The number of the words. -/
def toNat (a : Wide) : Nat :=
  [a.w7, a.w6, a.w5, a.w4, a.w3, a.w2, a.w1, a.w0].foldl
    (fun high word => (high <<< 64) + word.toNat) 0

/-- The word of up to eight bytes, the first one lowest. -/
def word (s : ByteString) : UInt64 :=
  s.foldr (fun b high => (high <<< 8) ||| b.toUInt64) 0

/-- The number of up to 64 bytes, the first one lowest. -/
def ofBytes (s : ByteString) : Wide :=
  let part (i : Nat) := word ((s.drop (8 * i)).take 8)
  ⟨part 0, part 1, part 2, part 3, part 4, part 5, part 6, part 7⟩

def wordBytes (w : UInt64) : ByteString :=
  (List.range 8).map fun i => (w >>> UInt64.ofNat (8 * i)).toUInt8

def upperHalf (a : Wide) : Bytes 32 :=
  ⟨[a.w4, a.w5, a.w6, a.w7].flatMap wordBytes, by simp [wordBytes]⟩

end Wide

/-! ## The round -/

/-- The rows of the matrix, the row of the highest bit first. -/
def matrix : List UInt64 :=
  [
    0x8e20faa72ba0b470, 0x47107ddd9b505a38, 0xad08b0e0c3282d1c, 0xd8045870ef14980e,
    0x6c022c38f90a4c07, 0x3601161cf205268d, 0x1b8e0b0e798c13c8, 0x83478b07b2468764,
    0xa011d380818e8f40, 0x5086e740ce47c920, 0x2843fd2067adea10, 0x14aff010bdd87508,
    0x0ad97808d06cb404, 0x05e23c0468365a02, 0x8c711e02341b2d01, 0x46b60f011a83988e,
    0x90dab52a387ae76f, 0x486dd4151c3dfdb9, 0x24b86a840e90f0d2, 0x125c354207487869,
    0x092e94218d243cba, 0x8a174a9ec8121e5d, 0x4585254f64090fa0, 0xaccc9ca9328a8950,
    0x9d4df05d5f661451, 0xc0a878a0a1330aa6, 0x60543c50de970553, 0x302a1e286fc58ca7,
    0x18150f14b9ec46dd, 0x0c84890ad27623e0, 0x0642ca05693b9f70, 0x0321658cba93c138,
    0x86275df09ce8aaa8, 0x439da0784e745554, 0xafc0503c273aa42a, 0xd960281e9d1d5215,
    0xe230140fc0802984, 0x71180a8960409a42, 0xb60c05ca30204d21, 0x5b068c651810a89e,
    0x456c34887a3805b9, 0xac361a443d1c8cd2, 0x561b0d22900e4669, 0x2b838811480723ba,
    0x9bcf4486248d9f5d, 0xc3e9224312c8c1a0, 0xeffa11af0964ee50, 0xf97d86d98a327728,
    0xe4fa2054a80b329c, 0x727d102a548b194e, 0x39b008152acb8227, 0x9258048415eb419d,
    0x492c024284fbaec0, 0xaa16012142f35760, 0x550b8e9e21f7a530, 0xa48b474f9ef5dc18,
    0x70a6a56e2440598e, 0x3853dc371220a247, 0x1ca76e95091051ad, 0x0edd37c48a08a6d8,
    0x07e095624504536c, 0x8d70c431ac02a736, 0xc83862965601dd1b, 0x641c314b2b8ee083]

/-- A word through the matrix: the sum of the rows of its bits. -/
def linear (v : UInt64) : UInt64 :=
  (matrix.zipIdx).foldl
    (fun sum (row, i) => if v.toNat.testBit (63 - i) then sum ^^^ row else sum) 0

/-- What each byte of column `c` contributes to a word of the next round: substituted, moved to place
`c`, and mapped. -/
def table (c : Nat) : ByteTable UInt64 :=
  Vector.ofFn fun x =>
    linear ((Kuznyechik.pi.entry (UInt8.ofNat x)).toUInt64 <<< UInt64.ofNat (8 * c))

def table0 : ByteTable UInt64 := table 0

def table1 : ByteTable UInt64 := table 1

def table2 : ByteTable UInt64 := table 2

def table3 : ByteTable UInt64 := table 3

def table4 : ByteTable UInt64 := table 4

def table5 : ByteTable UInt64 := table 5

def table6 : ByteTable UInt64 := table 6

def table7 : ByteTable UInt64 := table 7

/-- The next word from one byte of every word, the byte at bit `shift`. -/
@[inline] def gather (a : Wide) (shift : UInt64) : UInt64 :=
  table0.entry (a.w0 >>> shift).toUInt8 ^^^ table1.entry (a.w1 >>> shift).toUInt8 ^^^
    table2.entry (a.w2 >>> shift).toUInt8 ^^^ table3.entry (a.w3 >>> shift).toUInt8 ^^^
    table4.entry (a.w4 >>> shift).toUInt8 ^^^ table5.entry (a.w5 >>> shift).toUInt8 ^^^
    table6.entry (a.w6 >>> shift).toUInt8 ^^^ table7.entry (a.w7 >>> shift).toUInt8

/-- Substitution, transposition and matrix, all at once. -/
def mix (a : Wide) : Wide :=
  ⟨gather a 0, gather a 8, gather a 16, gather a 24,
    gather a 32, gather a 40, gather a 48, gather a 56⟩

/-- The constants of the key schedule. -/
def constants : List Wide :=
  [
    .ofNat
      0xb1085bda1ecadae9ebcb2f81c0657c1f2f6a76432e45d016714eb88d7585c4fc4b7ce09192676901a2422a08a460d31505767436cc744d23dd806559f2a64507,
    .ofNat
      0x6fa3b58aa99d2f1a4fe39d460f70b5d7f3feea720a232b9861d55e0f16b501319ab5176b12d699585cb561c2db0aa7ca55dda21bd7cbcd56e679047021b19bb7,
    .ofNat
      0xf574dcac2bce2fc70a39fc286a3d843506f15e5f529c1f8bf2ea7514b1297b7bd3e20fe490359eb1c1c93a376062db09c2b6f443867adb31991e96f50aba0ab2,
    .ofNat
      0xef1fdfb3e81566d2f948e1a05d71e4dd488e857e335c3c7d9d721cad685e353fa9d72c82ed03d675d8b71333935203be3453eaa193e837f1220cbebc84e3d12e,
    .ofNat
      0x4bea6bacad4747999a3f410c6ca923637f151c1f1686104a359e35d7800fffbdbfcd1747253af5a3dfff00b723271a167a56a27ea9ea63f5601758fd7c6cfe57,
    .ofNat
      0xae4faeae1d3ad3d96fa4c33b7a3039c02d66c4f95142a46c187f9ab49af08ec6cffaa6b71c9ab7b40af21f66c2bec6b6bf71c57236904f35fa68407a46647d6e,
    .ofNat
      0xf4c70e16eeaac5ec51ac86febf240954399ec6c7e6bf87c9d3473e33197a93c90992abc52d822c3706476983284a05043517454ca23c4af38886564d3a14d493,
    .ofNat
      0x9b1f5b424d93c9a703e7aa020c6e41414eb7f8719c36de1e89b4443b4ddbc49af4892bcb929b069069d18d2bd1a5c42f36acc2355951a8d9a47f0dd4bf02e71e,
    .ofNat
      0x378f5a541631229b944c9ad8ec165fde3a7d3a1b258942243cd955b7e00d0984800a440bdbb2ceb17b2b8a9aa6079c540e38dc92cb1f2a607261445183235adb,
    .ofNat
      0xabbedea680056f52382ae548b2e4f3f38941e71cff8a78db1fffe18a1b3361039fe76702af69334b7a1e6c303b7652f43698fad1153bb6c374b4c7fb98459ced,
    .ofNat
      0x7bcd9ed0efc889fb3002c6cd635afe94d8fa6bbbebab076120018021148466798a1d71efea48b9caefbacd1d7d476e98dea2594ac06fd85d6bcaa4cd81f32d1b,
    .ofNat
      0x378ee767f11631bad21380b00449b17acda43c32bcdf1d77f82012d430219f9b5d80ef9d1891cc86e71da4aa88e12852faf417d5d9b21b9948bc924af11bd720]

/-- The rounds under a key that goes on with the remaining constants, and the last key addition. -/
def rounds : List Wide → (key state : Wide) → Wide
  | [], key, state => key.xor state
  | constant :: rest, key, state =>
    rounds rest (mix (key.xor constant)) (mix (key.xor state))

/-- The chain after a block, at a position in the message. -/
def compress (position chain block : Wide) : Wide :=
  ((rounds constants (mix (chain.xor position)) block).xor chain).xor block

/-! ## Messages -/

/-- A message under way: the chain, the bits taken in, and the sum of the blocks. -/
structure Context where
  chain : Wide
  bits : Nat
  sum : Nat

/-- The context before any block. -/
def Context.start : Context :=
  let ones : UInt64 := 0x0101010101010101
  ⟨⟨ones, ones, ones, ones, ones, ones, ones, ones⟩, 0, 0⟩

/-- The context after a block of which `bits` bits belong to the message. -/
def Context.take (s : Context) (block : Wide) (bits : Nat) : Context :=
  { chain := compress (.ofNat s.bits) s.chain block
    bits := s.bits + bits
    sum := (s.sum + block.toNat) % (1 <<< 512) }

/-- The hash of what has been taken in followed by `tail`. -/
def Context.finish (s : Context) (tail : ByteString) : Bytes 32 :=
  let (whole, rest) := tail.blocks 64
  let s := whole.foldl (fun s b => s.take (.ofBytes b.toList) 512) s
  let s := s.take (.ofBytes (rest ++ [1])) (8 * rest.length)
  let chain := compress (.ofNat 0) s.chain (.ofNat s.bits)
  (compress (.ofNat 0) chain (.ofNat s.sum)).upperHalf

def hash (message : ByteString) : Bytes 32 := Context.start.finish message

end Streebog

end GostSuite

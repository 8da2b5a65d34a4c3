import GostSuite.Cipher.Basic
import GostSuite.Derivation.KeyTree
import GostSuite.Outcome

/-!
# Record keys

A connection has a fresh key for every few records. The keys are the leaves of a tree of three
levels under the root key: each level derives from the one above it with a part of the sequence
number, cut out by a mask of that level, and the masks let through more bits level by level. Only
Magma and Kuznyechik have masks.

Successive records share their upper levels, so a tree keeps the last key of every level with the
masked number that it was derived for. A walk down the levels uses what is kept as long as the
numbers agree. From the first level that differs everything is derived anew: a kept key further
down belongs to another parent, even if its own number agrees.

Every derivation goes through the checks of the key tree. A walk that one of them stopped would
leave keys of two paths behind, so it leaves nothing that is kept.
-/

set_option autoImplicit false

namespace GostSuite

/-- The number of a record. -/
abbrev SequenceNumber := BitVec 64

/-- One level of the tree: the label that it derives with, and its mask. -/
structure TlsLevel where
  label : ByteString
  mask : SequenceNumber

/-- The levels of an algorithm, from the root down. -/
def TlsLevel.ofAlgorithm? : Algorithm → Option (List TlsLevel)
  | .kuznyechik => some
    [⟨.ascii "level1", 0xFFFFFFFF00000000⟩, ⟨.ascii "level2", 0xFFFFFFFFFFF80000⟩,
      ⟨.ascii "level3", 0xFFFFFFFFFFFFFFC0⟩]
  | .magma => some
    [⟨.ascii "level1", 0xFFFFFFC000000000⟩, ⟨.ascii "level2", 0xFFFFFFFFFE000000⟩,
      ⟨.ascii "level3", 0xFFFFFFFFFFFFF000⟩]
  | .gost89 => none

/-- The key below `parent` for a masked number, derived with a counter of one byte. -/
def TlsLevel.key (level : TlsLevel) (parent : Key) (masked : SequenceNumber) : Except Error Key :=
  (KeyTree.derive parent.toList level.label (ByteString.bigEndian 8 masked.toNat) 1 keyLen).map
    (Bytes.padded 32)

/-- A derived key and the masked number that it was derived for. -/
structure KeptKey where
  masked : SequenceNumber
  key : Key

/-- A tree of record keys. -/
structure TlsTree where
  algorithm : Algorithm
  levels : List TlsLevel
  root : Key
  /-- The last key of every level, from the root down; empty before the first walk. -/
  kept : List KeptKey

namespace TlsTree

def ofRoot (a : Algorithm) (root : Key) : Except Error TlsTree :=
  match TlsLevel.ofAlgorithm? a with
  | some levels => .ok ⟨a, levels, root, []⟩
  | none => .error (.unsupportedAlgorithm a)

/-- The keys of the levels below `parent` for a sequence number, derived. -/
def descend (seq : SequenceNumber) :
    (parent : Key) → List TlsLevel → Except Error (List KeptKey)
  | _, [] => .ok []
  | parent, level :: levels => do
    let masked := seq &&& level.mask
    let key ← level.key parent masked
    return ⟨masked, key⟩ :: (← descend seq key levels)

/-- The same keys, those taken from `kept` that still hold. -/
def refresh (seq : SequenceNumber) :
    (parent : Key) → List TlsLevel → List KeptKey → Except Error (List KeptKey)
  | parent, levels, [] => descend seq parent levels
  | _, [], _ => .ok []
  | parent, level :: levels, k :: kept =>
    if k.masked = seq &&& level.mask then (refresh seq k.key levels kept).map (k :: ·)
    else descend seq parent (level :: levels)

/-- The last of some keys, or the root if there are none. -/
def lowest (root : Key) (keys : List KeptKey) : Key :=
  match keys.getLast? with
  | some k => k.key
  | none => root

def key (t : TlsTree) (seq : SequenceNumber) : Outcome TlsTree Key :=
  match refresh seq t.root t.levels t.kept with
  | .ok kept => .done { t with kept := kept } (lowest t.root kept)
  | .error e => .refused { t with kept := [] } e

/-- A cipher under the key of a record. -/
def cipher (t : TlsTree) (a : Algorithm) (seq : SequenceNumber) : Outcome TlsTree (Cipher a) :=
  if a = t.algorithm then (t.key seq).judge fun key => .ok (Cipher.ofKey a key)
  else .refused t (.unsupportedAlgorithm a)

def report (t : TlsTree) : String :=
  Report.opened "TlsTree" [("algorithm", t.algorithm.name)]

end TlsTree

/-- The key of one record, from a fresh tree. -/
def recordKey (a : Algorithm) (root : Key) (seq : SequenceNumber) : Except Error Key := do
  let tree ← TlsTree.ofRoot a root
  (tree.key seq).answer

end GostSuite

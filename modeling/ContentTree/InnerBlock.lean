import ContentTree.Identifier
import ContentTree.Shape
import ContentTree.Suite

/-!
The plaintext of an inner node: a hash over its children's pairs, a checksum over the children's
checksums, and the pairs, zero-filled to a block.
-/

namespace ContentTree

structure InnerBlock where
  superHash : Digest
  crc : UInt32
  chks : List Chk
  deriving DecidableEq

namespace InnerBlock

def tableBytes (chks : List Chk) : Bytes := chks.flatMap Chk.toBytes

def superHashOf (s : Suite) (chks : List Chk) : Digest := s.hash (tableBytes chks)

def ofChildren (s : Suite) (chks : List Chk) (crc : UInt32) : InnerBlock :=
  ⟨superHashOf s chks, crc, chks⟩

/-- Pairs beyond the fanout are left out. -/
def encode (b : InnerBlock) : Block :=
  fit 1024 (b.superHash.toList ++ bigEndian 4 b.crc.toNat ++ tableBytes (b.chks.take fanout))

def readTable : Nat → Bytes → List Chk
  | 0, _ => []
  | n + 1, bs => Chk.ofBytes bs :: readTable n (bs.drop Chk.size)

def decode (block : Block) (count : Nat) : InnerBlock :=
  let bs := block.toList
  ⟨fit 20 bs, UInt32.ofNat (ofBigEndian ((bs.drop 20).take 4)),
    readTable (min count fanout) (bs.drop innerHeaderSize)⟩

end InnerBlock

end ContentTree

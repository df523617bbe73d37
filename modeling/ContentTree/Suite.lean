import ContentTree.Primitive.Sha256
import ContentTree.Primitive.Aes
import ContentTree.Primitive.Crc32

/-!
The primitives that seal blocks: a hash, a checksum and a block cipher keyed by digests. The tree
is defined over any such suite; `Suite.standard` is the one in use.
-/

namespace ContentTree

structure Suite where
  hash : Bytes → Digest
  checksum : Bytes → UInt32
  encrypt : Digest → Block → Block
  decrypt : Digest → Block → Block

namespace Suite

def verify (s : Suite) (expected : Digest) (data : Bytes) : Bool := s.hash data == expected

/-- The checksum over a sequence of checksums, each taken as four bytes. -/
def chain (s : Suite) (crcs : List UInt32) : UInt32 :=
  s.checksum (crcs.flatMap fun c => bigEndian 4 c.toNat)

/-- AES in counter mode under a key and a first counter value derived from the digest. Applying it
twice gives the block back. -/
def maskBlock (key : Digest) (block : Block) : Block :=
  let okm := Sha256.derive "chktree-chk".toUTF8.toList key.toList "block-key-iv".toUTF8.toList 48
  let stream := Aes.keystream (Aes.expandKey (okm.take 32)) 64 (ofBigEndian (okm.drop 32))
  fit 1024 (List.zipWith (· ^^^ ·) block.toList stream)

def standard : Suite where
  hash := Sha1.hash
  checksum := Crc32.checksum
  encrypt := maskBlock
  decrypt := maskBlock

end Suite

end ContentTree

import ContentTree.Hex

/-!
Content hash keys, and the identifier under which an inserted file is found again.
-/

namespace ContentTree

/-- Key and query of one block: the hash of its plaintext, which decrypts it, and the hash of its
ciphertext, which the network sees. -/
structure Chk where
  key : Digest
  query : Digest
  deriving DecidableEq

namespace Chk

abbrev size : Nat := 40

def zero : Chk := ⟨zeroDigest, zeroDigest⟩

def toBytes (c : Chk) : Bytes := c.key.toList ++ c.query.toList

/-- The pair in the first forty bytes. -/
def ofBytes (bs : Bytes) : Chk := ⟨fit 20 bs, fit 20 (bs.drop 20)⟩

@[simp]
theorem length_toBytes (c : Chk) : c.toBytes.length = size := by simp [toBytes]

theorem ofBytes_toBytes_append (c : Chk) (rest : Bytes) : ofBytes (c.toBytes ++ rest) = c := by
  have hdrop : (c.key.toList ++ (c.query.toList ++ rest)).drop 20 = c.query.toList ++ rest :=
    List.drop_left' (by simp)
  simp [ofBytes, toBytes, hdrop, fit_append_toList]

end Chk

structure FileIdentifier where
  chk : Chk
  /-- Checksum of the root block's plaintext. -/
  crc : UInt32
  /-- Length of the file in bytes. -/
  length : UInt64
  deriving DecidableEq

namespace FileIdentifier

abbrev size : Nat := 52

/-- Length, checksum, key and query. -/
def toBytes (f : FileIdentifier) : Bytes :=
  bigEndian 8 f.length.toNat ++ bigEndian 4 f.crc.toNat ++ f.chk.toBytes

def ofBytes? (bs : Bytes) : Option FileIdentifier :=
  if bs.length = size then
    some ⟨Chk.ofBytes (bs.drop 12), UInt32.ofNat (ofBigEndian ((bs.drop 8).take 4)),
      UInt64.ofNat (ofBigEndian (bs.take 8))⟩
  else none

def toText (f : FileIdentifier) : String :=
  s!"{f.chk.key.toHex}.{f.chk.query.toHex}.{Hex.encode (bigEndian 4 f.crc.toNat)}.{f.length}"

end FileIdentifier

end ContentTree

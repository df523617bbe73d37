import ContentTree.Bytes

/-!
CRC-32 with the reflected polynomial `0xedb88320`.
-/

namespace ContentTree.Crc32

def shift : Nat → UInt32 → UInt32
  | 0, c => c
  | n + 1, c => shift n (if c &&& 1 = 0 then c >>> 1 else (c >>> 1) ^^^ 0xedb88320)

def table : Array UInt32 := ((List.range 256).map fun n => shift 8 (UInt32.ofNat n)).toArray

def update (c : UInt32) (b : UInt8) : UInt32 :=
  table[((c ^^^ b.toUInt32) &&& 0xff).toNat]! ^^^ (c >>> 8)

def checksum (bs : Bytes) : UInt32 := ~~~ bs.foldl update 0xffffffff

end ContentTree.Crc32

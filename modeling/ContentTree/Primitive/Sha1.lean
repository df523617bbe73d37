import ContentTree.Bytes

/-!
SHA-1: the 160-bit digest of a byte string.
-/

namespace ContentTree.Sha1

structure State where
  a : UInt32
  b : UInt32
  c : UInt32
  d : UInt32
  e : UInt32

def initial : State := ⟨0x67452301, 0xefcdab89, 0x98badcfe, 0x10325476, 0xc3d2e1f0⟩

def rotl (x : UInt32) (n : UInt32) : UInt32 := (x <<< n) ||| (x >>> (32 - n))

/-- Big-endian words; a tail of fewer than four bytes is dropped. -/
def words : Bytes → List UInt32
  | a :: b :: c :: d :: rest =>
    ((a.toUInt32 <<< 24) ||| (b.toUInt32 <<< 16) ||| (c.toUInt32 <<< 8) ||| d.toUInt32) ::
      words rest
  | _ => []

/-- The message followed by a one bit, zeros up to the next multiple of 64 bytes less eight, and the
length in bits. -/
def pad (message : Bytes) : Bytes :=
  message ++ 0x80 :: List.replicate ((119 - message.length % 64) % 64) 0 ++
    bigEndian 8 (8 * message.length)

def extend : Nat → Array UInt32 → Array UInt32
  | 0, w => w
  | n + 1, w =>
    let i := w.size
    extend n (w.push (rotl (w[i - 3]! ^^^ w[i - 8]! ^^^ w[i - 14]! ^^^ w[i - 16]!) 1))

/-- The function of round `i` with its constant. -/
def mix (i : Nat) (b c d : UInt32) : UInt32 :=
  if i < 20 then ((b &&& c) ||| ((~~~ b) &&& d)) + 0x5a827999
  else if i < 40 then (b ^^^ c ^^^ d) + 0x6ed9eba1
  else if i < 60 then ((b &&& c) ||| (b &&& d) ||| (c &&& d)) + 0x8f1bbcdc
  else (b ^^^ c ^^^ d) + 0xca62c1d6

def rounds (w : Array UInt32) : Nat → Nat → UInt32 → UInt32 → UInt32 → UInt32 → UInt32 → State
  | 0, _, a, b, c, d, e => ⟨a, b, c, d, e⟩
  | n + 1, i, a, b, c, d, e =>
    rounds w n (i + 1) (rotl a 5 + mix i b c d + e + w[i]!) a (rotl b 30) c d

def compress (s : State) (block : List UInt32) : State :=
  let t := rounds (extend 64 block.toArray) 80 0 s.a s.b s.c s.d s.e
  ⟨s.a + t.a, s.b + t.b, s.c + t.c, s.d + t.d, s.e + t.e⟩

def blocks : Nat → List UInt32 → State → State
  | 0, _, s => s
  | n + 1, ws, s => blocks n (ws.drop 16) (compress s (ws.take 16))

def hash (message : Bytes) : Digest :=
  let ws := words (pad message)
  let s := blocks (ws.length / 16) ws initial
  fit 20 ([s.a, s.b, s.c, s.d, s.e].flatMap fun w => bigEndian 4 w.toNat)

end ContentTree.Sha1

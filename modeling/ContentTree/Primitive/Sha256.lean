import ContentTree.Primitive.Sha1

/-!
SHA-256, its keyed hash, and key derivation by extraction and expansion.
-/

namespace ContentTree.Sha256

def rotr (x : UInt32) (n : UInt32) : UInt32 := (x >>> n) ||| (x <<< (32 - n))

def initial : Array UInt32 :=
  #[0x6a09e667, 0xbb67ae85, 0x3c6ef372, 0xa54ff53a, 0x510e527f, 0x9b05688c, 0x1f83d9ab, 0x5be0cd19]

def constants : Array UInt32 :=
  #[0x428a2f98, 0x71374491, 0xb5c0fbcf, 0xe9b5dba5, 0x3956c25b, 0x59f111f1, 0x923f82a4, 0xab1c5ed5,
    0xd807aa98, 0x12835b01, 0x243185be, 0x550c7dc3, 0x72be5d74, 0x80deb1fe, 0x9bdc06a7, 0xc19bf174,
    0xe49b69c1, 0xefbe4786, 0x0fc19dc6, 0x240ca1cc, 0x2de92c6f, 0x4a7484aa, 0x5cb0a9dc, 0x76f988da,
    0x983e5152, 0xa831c66d, 0xb00327c8, 0xbf597fc7, 0xc6e00bf3, 0xd5a79147, 0x06ca6351, 0x14292967,
    0x27b70a85, 0x2e1b2138, 0x4d2c6dfc, 0x53380d13, 0x650a7354, 0x766a0abb, 0x81c2c92e, 0x92722c85,
    0xa2bfe8a1, 0xa81a664b, 0xc24b8b70, 0xc76c51a3, 0xd192e819, 0xd6990624, 0xf40e3585, 0x106aa070,
    0x19a4c116, 0x1e376c08, 0x2748774c, 0x34b0bcb5, 0x391c0cb3, 0x4ed8aa4a, 0x5b9cca4f, 0x682e6ff3,
    0x748f82ee, 0x78a5636f, 0x84c87814, 0x8cc70208, 0x90befffa, 0xa4506ceb, 0xbef9a3f7, 0xc67178f2]

def extend : Nat → Array UInt32 → Array UInt32
  | 0, w => w
  | n + 1, w =>
    let i := w.size
    let x := w[i - 15]!
    let y := w[i - 2]!
    let s0 := rotr x 7 ^^^ rotr x 18 ^^^ (x >>> 3)
    let s1 := rotr y 17 ^^^ rotr y 19 ^^^ (y >>> 10)
    extend n (w.push (w[i - 16]! + s0 + w[i - 7]! + s1))

/-- What the last four words of the state add to the first and the fifth one. -/
def upper (e f g h : UInt32) : UInt32 :=
  h + (rotr e 6 ^^^ rotr e 11 ^^^ rotr e 25) + ((e &&& f) ^^^ ((~~~ e) &&& g))

/-- What the first three words of the state add to the first one. -/
def lower (a b c : UInt32) : UInt32 :=
  (rotr a 2 ^^^ rotr a 13 ^^^ rotr a 22) + ((a &&& b) ^^^ (a &&& c) ^^^ (b &&& c))

def rounds (w : Array UInt32) : Nat → Nat → UInt32 → UInt32 → UInt32 → UInt32 → UInt32 → UInt32 →
    UInt32 → UInt32 → Array UInt32
  | 0, _, a, b, c, d, e, f, g, h => #[a, b, c, d, e, f, g, h]
  | n + 1, i, a, b, c, d, e, f, g, h =>
    let t := upper e f g h + constants[i]! + w[i]!
    rounds w n (i + 1) (t + lower a b c) a b c (d + t) e f g

def compress (s : Array UInt32) (block : List UInt32) : Array UInt32 :=
  s.zipWith (· + ·)
    (rounds (extend 48 block.toArray) 64 0 s[0]! s[1]! s[2]! s[3]! s[4]! s[5]! s[6]! s[7]!)

def blocks : Nat → List UInt32 → Array UInt32 → Array UInt32
  | 0, _, s => s
  | n + 1, ws, s => blocks n (ws.drop 16) (compress s (ws.take 16))

def hash (message : Bytes) : Bytes :=
  let ws := Sha1.words (Sha1.pad message)
  (blocks (ws.length / 16) ws initial).toList.flatMap fun w => bigEndian 4 w.toNat

/-- The keyed hash for keys of at most 64 bytes. -/
def keyed (key message : Bytes) : Bytes :=
  let k := key ++ List.replicate (64 - key.length) 0
  hash (k.map (· ^^^ 0x5c) ++ hash (k.map (· ^^^ 0x36) ++ message))

def expand (key info : Bytes) : Nat → UInt8 → Bytes → Bytes
  | 0, _, _ => []
  | n + 1, i, last =>
    let t := keyed key (last ++ info ++ [i])
    t ++ expand key info n (i + 1) t

/-- `n` bytes derived from the key material `ikm`. -/
def derive (salt ikm info : Bytes) (n : Nat) : Bytes :=
  (expand (keyed salt ikm) info ((n + 31) / 32) 1 []).take n

end ContentTree.Sha256

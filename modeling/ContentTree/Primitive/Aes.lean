import ContentTree.Bytes

/-!
AES with 256-bit keys, and the keystream that encrypts a counter.
-/

namespace ContentTree.Aes

/-- Multiplication by `x` in the field of 256 elements. -/
def xtime (b : UInt8) : UInt8 := (b <<< 1) ^^^ (if b &&& 0x80 = 0 then 0 else 0x1b)

def mul : Nat → UInt8 → UInt8 → UInt8
  | 0, _, _ => 0
  | n + 1, a, b => (if b &&& 1 = 0 then 0 else a) ^^^ mul n (xtime a) (b >>> 1)

def pow : Nat → UInt8 → UInt8
  | 0, _ => 1
  | n + 1, b => mul 8 b (pow n b)

def rotl8 (b : UInt8) (n : UInt8) : UInt8 := (b <<< n) ||| (b >>> (8 - n))

/-- The affine image of the field inverse. -/
def substitute (b : UInt8) : UInt8 :=
  let i := pow 254 b
  i ^^^ rotl8 i 1 ^^^ rotl8 i 2 ^^^ rotl8 i 3 ^^^ rotl8 i 4 ^^^ 0x63

def sbox : Array UInt8 := ((List.range 256).map fun n => substitute (UInt8.ofNat n)).toArray

def sub (b : UInt8) : UInt8 := sbox[b.toNat]!

def word (a b c d : UInt8) : UInt32 :=
  (a.toUInt32 <<< 24) ||| (b.toUInt32 <<< 16) ||| (c.toUInt32 <<< 8) ||| d.toUInt32

/-- The column that a substituted byte contributes to the mixed state. -/
def column (n : Nat) : UInt32 :=
  let s := sub (UInt8.ofNat n)
  word (xtime s) s s (xtime s ^^^ s)

def columns : Array UInt32 := ((List.range 256).map column).toArray

def rotr32 (x : UInt32) (n : UInt32) : UInt32 := (x >>> n) ||| (x <<< (32 - n))

def byteAt (w : UInt32) (n : UInt32) : UInt8 := (w >>> n).toUInt8

def subWord (w : UInt32) : UInt32 :=
  word (sub (byteAt w 24)) (sub (byteAt w 16)) (sub (byteAt w 8)) (sub (byteAt w 0))

structure State where
  a : UInt32
  b : UInt32
  c : UInt32
  d : UInt32

def mixed (w x y z k : UInt32) : UInt32 :=
  columns[(byteAt w 24).toNat]! ^^^ rotr32 columns[(byteAt x 16).toNat]! 8 ^^^
    rotr32 columns[(byteAt y 8).toNat]! 16 ^^^ rotr32 columns[(byteAt z 0).toNat]! 24 ^^^ k

def unmixed (w x y z k : UInt32) : UInt32 :=
  word (sub (byteAt w 24)) (sub (byteAt x 16)) (sub (byteAt y 8)) (sub (byteAt z 0)) ^^^ k

/-- The rounds that mix columns, and the last one, which does not. -/
def rounds (ks : Array UInt32) : Nat → Nat → UInt32 → UInt32 → UInt32 → UInt32 → State
  | 0, i, a, b, c, d =>
    ⟨unmixed a b c d ks[i]!, unmixed b c d a ks[i + 1]!, unmixed c d a b ks[i + 2]!,
      unmixed d a b c ks[i + 3]!⟩
  | n + 1, i, a, b, c, d =>
    rounds ks n (i + 4) (mixed a b c d ks[i]!) (mixed b c d a ks[i + 1]!)
      (mixed c d a b ks[i + 2]!) (mixed d a b c ks[i + 3]!)

/-- Round keys: 60 words from the eight words of the key. -/
def schedule : Nat → UInt8 → Array UInt32 → Array UInt32
  | 0, _, ks => ks
  | n + 1, rcon, ks =>
    let i := ks.size
    let last := ks[i - 1]!
    if i % 8 = 0 then
      schedule n (xtime rcon)
        (ks.push (ks[i - 8]! ^^^ subWord (rotr32 last 24) ^^^ (rcon.toUInt32 <<< 24)))
    else if i % 8 = 4 then schedule n rcon (ks.push (ks[i - 8]! ^^^ subWord last))
    else schedule n rcon (ks.push (ks[i - 8]! ^^^ last))

def wordsOf : Bytes → List UInt32
  | a :: b :: c :: d :: rest => word a b c d :: wordsOf rest
  | _ => []

def expandKey (key : Bytes) : Array UInt32 := schedule 52 1 (wordsOf key).toArray

def encrypt (ks : Array UInt32) (n : Nat) : Bytes :=
  let w (i : Nat) : UInt32 := UInt32.ofNat (n >>> (32 * i))
  let s := rounds ks 13 4 (w 3 ^^^ ks[0]!) (w 2 ^^^ ks[1]!) (w 1 ^^^ ks[2]!) (w 0 ^^^ ks[3]!)
  [s.a, s.b, s.c, s.d].flatMap fun w => [byteAt w 24, byteAt w 16, byteAt w 8, byteAt w 0]

/-- The encryptions of `n` successive 128-bit counter values. -/
def keystream (ks : Array UInt32) : Nat → Nat → Bytes
  | 0, _ => []
  | n + 1, counter => encrypt ks (counter % Nat.pow 2 128) ++ keystream ks n (counter + 1)

end ContentTree.Aes

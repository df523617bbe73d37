import ContentTree.Random

/-!
A random source over the keystream of ChaCha with twelve rounds, keyed from a 64-bit seed.
-/

namespace ContentTree

/-- The keystream of a key, read up to `position` words. -/
structure ChaCha where
  key : List UInt32
  position : Nat

namespace ChaCha

def rotl (x n : UInt32) : UInt32 := (x <<< n) ||| (x >>> (32 - n))

def quarter (s : Array UInt32) (i j k l : Nat) : Array UInt32 :=
  let a := s[i]! + s[j]!
  let d := rotl (s[l]! ^^^ a) 16
  let c := s[k]! + d
  let b := rotl (s[j]! ^^^ c) 12
  let a := a + b
  let d := rotl (d ^^^ a) 8
  let c := c + d
  let b := rotl (b ^^^ c) 7
  (((s.set! i a).set! j b).set! k c).set! l d

def doubleRound (s : Array UInt32) : Array UInt32 :=
  let s := quarter s 0 4 8 12
  let s := quarter s 1 5 9 13
  let s := quarter s 2 6 10 14
  let s := quarter s 3 7 11 15
  let s := quarter s 0 5 10 15
  let s := quarter s 1 6 11 12
  let s := quarter s 2 7 8 13
  quarter s 3 4 9 14

/-- The sixteen words of the keystream block with the given number. -/
def block (key : List UInt32) (number : Nat) : Array UInt32 :=
  let start : Array UInt32 :=
    ([0x61707865, 0x3320646e, 0x79622d32, 0x6b206574] ++ key ++
      [UInt32.ofNat number, UInt32.ofNat (number / UInt32.size), 0, 0]).toArray
  start.zipWith (· + ·) (Nat.repeat doubleRound 6 start)

/-- Key words from the successive states of a linear congruential generator. -/
def keyWords : Nat → UInt64 → List UInt32
  | 0, _ => []
  | n + 1, state =>
    let state := state * 6364136223846793005 + 11634580027462260723
    let x := (((state >>> 18) ^^^ state) >>> 27).toUInt32
    let turn := (state >>> 59).toUInt32
    ((x >>> turn) ||| (x <<< ((32 - turn) % 32))) :: keyWords n state

def ofSeed (seed : UInt64) : ChaCha := ⟨keyWords 8 seed, 0⟩

def nextUInt32 (r : ChaCha) : UInt32 × ChaCha :=
  ((block r.key (r.position / 16))[r.position % 16]!, { r with position := r.position + 1 })

/-- Two words, the lower first. -/
def nextUInt64 (r : ChaCha) : UInt64 × ChaCha :=
  let (low, r) := r.nextUInt32
  let (high, r) := r.nextUInt32
  (low.toUInt64 ||| (high.toUInt64 <<< 32), r)

def next32 (r : ChaCha) : Nat × ChaCha :=
  let (v, r) := r.nextUInt32
  (v.toNat, r)

def next64 (r : ChaCha) : Nat × ChaCha :=
  let (v, r) := r.nextUInt64
  (v.toNat, r)

/-- The high part of a product of `n` with a word of `bits` bits, drawing again, up to `tries`
times, while the low part is among the values that would favour some results. -/
def scaled (bits : Nat) (next : ChaCha → Nat × ChaCha) (n : Nat) : Nat → ChaCha → Nat × ChaCha
  | 0, r =>
    let (v, r) := next r
    (v * n / Nat.pow 2 bits, r)
  | tries + 1, r =>
    let (v, r) := next r
    if v * n % Nat.pow 2 bits < n * Nat.pow 2 (bits - 1 - n.log2) then (v * n / Nat.pow 2 bits, r)
    else scaled bits next n tries r

/-- Draws allowed for one result. More than half of all words are accepted, so this many are never
needed. -/
def maxTries : Nat := 1000

def below (n : Nat) (r : ChaCha) : Nat × ChaCha := scaled 64 next64 n maxTries r

/-- Swaps each index from `i` down to 1 with one not above it. -/
def shuffleFrom : Nat → Array Nat → ChaCha → Array Nat × ChaCha
  | 0, xs, r => (xs, r)
  | i + 1, xs, r =>
    let (j, r) := scaled 32 next32 (i + 2) maxTries r
    shuffleFrom i (xs.swapIfInBounds (i + 1) j) r

def shuffle (n : Nat) (r : ChaCha) : List Nat × ChaCha :=
  let (xs, r) := shuffleFrom (n - 1) (Array.range n) r
  (xs.toList, r)

theorem scaled_lt (bits : Nat) (next : ChaCha → Nat × ChaCha) (n tries : Nat) (r : ChaCha)
    (hnext : ∀ r, (next r).1 < Nat.pow 2 bits) (hn : 0 < n) : (scaled bits next n tries r).1 < n := by
  have hhigh : ∀ r, (next r).1 * n / Nat.pow 2 bits < n := fun r =>
    Nat.div_lt_of_lt_mul (Nat.mul_lt_mul_of_pos_right (hnext r) hn)
  induction tries generalizing r with
  | zero => exact hhigh r
  | succ tries ih =>
    unfold scaled
    dsimp only
    split
    · exact hhigh r
    · exact ih _

theorem swapIfInBounds_perm (xs : Array Nat) (i j : Nat) :
    (xs.swapIfInBounds i j).toList.Perm xs.toList := by
  unfold Array.swapIfInBounds
  split
  · split
    · exact (Array.swap_perm _ _).toList
    · exact List.Perm.refl _
  · exact List.Perm.refl _

theorem shuffleFrom_perm (i : Nat) (xs : Array Nat) (r : ChaCha) :
    (shuffleFrom i xs r).1.toList.Perm xs.toList := by
  induction i generalizing xs r with
  | zero => exact List.Perm.refl _
  | succ i ih => exact (ih _ _).trans (swapIfInBounds_perm _ _ _)

instance : RandomSource ChaCha where
  below := below
  shuffle := shuffle
  below_lt n r hn := scaled_lt 64 next64 n maxTries r (fun r => (nextUInt64 r).1.toNat_lt) hn
  shuffle_perm n r := by
    have h := shuffleFrom_perm (n - 1) (Array.range n) r
    simpa [shuffle] using h

end ChaCha

end ContentTree

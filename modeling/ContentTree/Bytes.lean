/-!
Byte strings, byte vectors of fixed size, and big-endian numbers. Reading undoes writing for
numbers that fit the width, and writing undoes reading for every string of that width.
-/

namespace ContentTree

abbrev Bytes := List UInt8

/-- A 160-bit hash. -/
abbrev Digest := Vector UInt8 20

/-- The unit of storage and transfer. -/
abbrev Block := Vector UInt8 1024

abbrev digestSize : Nat := 20

abbrev blockSize : Nat := 1024

/-- The first `n` bytes of `bs`, with zeros where `bs` is too short. -/
def fit (n : Nat) (bs : Bytes) : Vector UInt8 n :=
  ⟨(bs.take n ++ List.replicate (n - bs.length) 0).toArray, by simp; omega⟩

theorem toList_fit (n : Nat) (bs : Bytes) :
    (fit n bs).toList = bs.take n ++ List.replicate (n - bs.length) 0 := by
  simp [fit, Vector.toList]

theorem toList_fit_of_le {n : Nat} {bs : Bytes} (h : n ≤ bs.length) :
    (fit n bs).toList = bs.take n := by
  simp [toList_fit, Nat.sub_eq_zero_of_le h]

theorem take_toList_fit {n : Nat} {bs : Bytes} (h : bs.length ≤ n) :
    (fit n bs).toList.take bs.length = bs := by
  rw [toList_fit, List.take_of_length_le h, List.take_left]

@[simp]
theorem fit_toList {n : Nat} (v : Vector UInt8 n) : fit n v.toList = v := by
  apply Vector.toList_inj.1
  rw [toList_fit_of_le (by simp)]
  exact List.take_of_length_le (by simp)

theorem fit_append_toList {n : Nat} (v : Vector UInt8 n) (rest : Bytes) :
    fit n (v.toList ++ rest) = v := by
  apply Vector.toList_inj.1
  rw [toList_fit_of_le (by simp), List.take_append_of_le_length (by simp)]
  exact List.take_of_length_le (by simp)

def zeroDigest : Digest := Vector.replicate 20 0

def zeroBlock : Block := Vector.replicate 1024 0

/-- The `k` low-order base-256 digits of `n`, most significant first. -/
def bigEndian : Nat → Nat → Bytes
  | 0, _ => []
  | k + 1, n => bigEndian k (n / 256) ++ [UInt8.ofNat n]

def ofBigEndian (bs : Bytes) : Nat :=
  bs.foldl (fun n b => n * 256 + b.toNat) 0

@[simp]
theorem length_bigEndian (k n : Nat) : (bigEndian k n).length = k := by
  induction k generalizing n with
  | zero => rfl
  | succ k ih => simp [bigEndian, ih]

theorem ofBigEndian_append (bs : Bytes) (b : UInt8) :
    ofBigEndian (bs ++ [b]) = ofBigEndian bs * 256 + b.toNat := by
  simp [ofBigEndian]

theorem ofBigEndian_bigEndian (k n : Nat) : ofBigEndian (bigEndian k n) = n % Nat.pow 256 k := by
  induction k generalizing n with
  | zero => simp [bigEndian, ofBigEndian, Nat.mod_one]
  | succ k ih =>
    have hb : (UInt8.ofNat n).toNat = n % 256 := by simp
    have hpow : Nat.pow 256 (k + 1) = 256 * Nat.pow 256 k := Nat.mul_comm ..
    rw [bigEndian, ofBigEndian_append, ih, hb, hpow, Nat.mod_mul]
    omega

theorem bigEndian_ofBigEndian (bs : Bytes) : bigEndian bs.length (ofBigEndian bs) = bs := by
  suffices h : ∀ rs : Bytes, bigEndian rs.reverse.length (ofBigEndian rs.reverse) = rs.reverse by
    simpa using h bs.reverse
  intro rs
  induction rs with
  | nil => rfl
  | cons b rs ih =>
    have hb := b.toNat_lt
    have hdiv : (ofBigEndian rs.reverse * 256 + b.toNat) / 256 = ofBigEndian rs.reverse := by omega
    simp only [List.reverse_cons, ofBigEndian_append, List.length_append, List.length_cons,
      List.length_nil, Nat.zero_add, bigEndian, hdiv, ih]
    congr 2
    apply UInt8.toNat_inj.1
    rw [UInt8.toNat_ofNat']
    omega

end ContentTree

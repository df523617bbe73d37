import Mathlib.Algebra.Order.Ring.Nat
import ContentTree.Proofs.InnerBlock
import ContentTree.Wire

/-!
# The fields of frames

A field that was written is read back, whatever follows it, and writing what was read gives the
bytes that it was read from.
-/

namespace ContentTree

theorem le_length_drop {bs : Bytes} {k n : Nat} (h : k + n ≤ bs.length) : n ≤ (bs.drop k).length := by
  rw [List.length_drop]
  omega

theorem ofBigEndian_lt (bs : Bytes) : ofBigEndian bs < 256 ^ bs.length := by
  have h := ofBigEndian_bigEndian bs.length (ofBigEndian bs)
  rw [bigEndian_ofBigEndian] at h
  rw [h]
  exact Nat.mod_lt _ (Nat.pow_pos (by decide))

theorem ofBigEndian_take_lt (k : Nat) (bs : Bytes) : ofBigEndian (bs.take k) < 256 ^ k :=
  Nat.lt_of_lt_of_le (ofBigEndian_lt _)
    (Nat.pow_le_pow_right (by decide) (List.length_take_le k bs))

theorem ofBigEndian_take_append {k n : Nat} (h : n < 256 ^ k) (rest : Bytes) :
    ofBigEndian ((bigEndian k n ++ rest).take k) = n := by
  rw [List.take_left' (length_bigEndian k n), ofBigEndian_bigEndian]
  exact Nat.mod_eq_of_lt h

theorem bigEndian_ofBigEndian_take {k : Nat} {bs : Bytes} (h : k ≤ bs.length) :
    bigEndian k (ofBigEndian (bs.take k)) = bs.take k := by
  have hlength : (bs.take k).length = k := List.length_take_of_le h
  have hback := bigEndian_ofBigEndian (bs.take k)
  rwa [hlength] at hback

namespace Wire

/-! ### Words -/

theorem readUInt16_append (x : UInt16) (rest : Bytes) :
    readUInt16 (bigEndian 2 x.toNat ++ rest) = x := by
  rw [readUInt16, ofBigEndian_take_append x.toNat_lt]
  exact UInt16.ofNat_toNat

theorem readUInt32_append (x : UInt32) (rest : Bytes) :
    readUInt32 (bigEndian 4 x.toNat ++ rest) = x := by
  rw [readUInt32, ofBigEndian_take_append x.toNat_lt]
  exact UInt32.ofNat_toNat

theorem readUInt64_append (x : UInt64) (rest : Bytes) :
    readUInt64 (bigEndian 8 x.toNat ++ rest) = x := by
  rw [readUInt64, ofBigEndian_take_append x.toNat_lt]
  exact UInt64.ofNat_toNat

theorem readInt32_append (x : Int32) (rest : Bytes) :
    readInt32 (bigEndian 4 x.toUInt32.toNat ++ rest) = x := by
  rw [readInt32, readUInt32_append]
  rfl

theorem bigEndian_readUInt16 {bs : Bytes} (h : 2 ≤ bs.length) :
    bigEndian 2 (readUInt16 bs).toNat = bs.take 2 := by
  rw [readUInt16, UInt16.toNat_ofNat_of_lt' (ofBigEndian_take_lt 2 bs), bigEndian_ofBigEndian_take h]

theorem bigEndian_readUInt32 {bs : Bytes} (h : 4 ≤ bs.length) :
    bigEndian 4 (readUInt32 bs).toNat = bs.take 4 := by
  rw [readUInt32, UInt32.toNat_ofNat_of_lt' (ofBigEndian_take_lt 4 bs), bigEndian_ofBigEndian_take h]

theorem bigEndian_readUInt64 {bs : Bytes} (h : 8 ≤ bs.length) :
    bigEndian 8 (readUInt64 bs).toNat = bs.take 8 := by
  rw [readUInt64, UInt64.toNat_ofNat_of_lt' (ofBigEndian_take_lt 8 bs), bigEndian_ofBigEndian_take h]

theorem bigEndian_readInt32 {bs : Bytes} (h : 4 ≤ bs.length) :
    bigEndian 4 (readInt32 bs).toUInt32.toNat = bs.take 4 :=
  bigEndian_readUInt32 h

/-! ### Hashes -/

theorem readHashes_flatMap (hs : List Digest) :
    readHashes hs.length (hs.flatMap Vector.toList) = hs := by
  induction hs with
  | nil => rfl
  | cons h hs ih =>
    have hdrop : (h.toList ++ hs.flatMap Vector.toList).drop 20 = hs.flatMap Vector.toList :=
      List.drop_left' (by simp)
    rw [List.flatMap_cons, List.length_cons, readHashes, fit_append_toList, hdrop, ih]

theorem flatMap_readHashes {n : Nat} {bs : Bytes} (h : bs.length = 20 * n) :
    (readHashes n bs).flatMap Vector.toList = bs := by
  induction n generalizing bs with
  | zero => exact (List.eq_nil_of_length_eq_zero h).symm
  | succ n ih =>
    have hrest : (bs.drop 20).length = 20 * n := by
      rw [List.length_drop]
      omega
    rw [readHashes, List.flatMap_cons, toList_fit_of_le (by omega), ih hrest]
    exact List.take_append_drop 20 bs

@[simp]
theorem length_readHashes (n : Nat) (bs : Bytes) : (readHashes n bs).length = n := by
  induction n generalizing bs with
  | zero => rfl
  | succ n ih => rw [readHashes, List.length_cons, ih]

theorem length_flatMap_toList (hs : List Digest) :
    (hs.flatMap Vector.toList).length = 20 * hs.length := by
  induction hs with
  | nil => rfl
  | cons h hs ih =>
    rw [List.flatMap_cons, List.length_append, ih, List.length_cons, Vector.length_toList]
    omega

/-! ### Entries of the index -/

@[simp]
theorem length_indexBytes (e : IndexEntry) : (indexBytes e).length = 36 := by
  simp [indexBytes]

/-- What comes after a field, if the field starts after `k` bytes. -/
theorem drop_add_of_drop_eq {bs field rest : Bytes} {k n : Nat} (h : bs.drop k = field ++ rest)
    (hn : field.length = n) : bs.drop (k + n) = rest := by
  rw [← List.drop_drop, h, List.drop_left' hn]

theorem readIndex_indexBytes (e : IndexEntry) : readIndex (indexBytes e) = e := by
  have hhash : (indexBytes e).drop 0 = e.hash.toList ++ (bigEndian 4 e.priority.toNat ++
      (bigEndian 2 e.lookup.toNat ++ (bigEndian 2 e.fileIndex.toNat ++
        (bigEndian 8 e.offset.toNat ++ [])))) := by
    simp [indexBytes]
  have hpriority := drop_add_of_drop_eq hhash (Vector.length_toList (n := 20))
  have hlookup := drop_add_of_drop_eq hpriority (length_bigEndian 4 _)
  have hfile := drop_add_of_drop_eq hlookup (length_bigEndian 2 _)
  have hoffset := drop_add_of_drop_eq hfile (length_bigEndian 2 _)
  rw [List.drop_zero] at hhash
  simp only [Nat.zero_add, Nat.reduceAdd] at hpriority hlookup hfile hoffset
  rw [readIndex, hpriority, hlookup, hfile, hoffset, readUInt32_append, readUInt16_append,
    readUInt16_append, readUInt64_append, hhash, fit_append_toList]

theorem indexBytes_readIndex {bs : Bytes} (h : bs.length = 36) : indexBytes (readIndex bs) = bs := by
  have hroom : ∀ {k n : Nat}, k + n ≤ 36 → n ≤ (bs.drop k).length := fun hfits =>
    le_length_drop (h ▸ hfits)
  simp only [indexBytes, readIndex, toList_fit_of_le (by omega : 20 ≤ bs.length),
    bigEndian_readUInt32 (hroom (by decide) : 4 ≤ (bs.drop 20).length),
    bigEndian_readUInt16 (hroom (by decide) : 2 ≤ (bs.drop 24).length),
    bigEndian_readUInt16 (hroom (by decide) : 2 ≤ (bs.drop 26).length),
    bigEndian_readUInt64 (hroom (by decide) : 8 ≤ (bs.drop 28).length)]
  rw [← List.take_add, ← List.take_add, ← List.take_add, ← List.take_add]
  exact List.take_of_length_le (Nat.le_of_eq h)

end Wire

end ContentTree

import Mathlib.Data.List.Basic
import ContentTree.InnerBlock

/-!
# The layout of inner blocks

Reading an inner block takes exactly the bytes that count for the number of its children, and gives
back what was written.
-/

namespace ContentTree

theorem fit_take {n k : Nat} (bs : Bytes) (h : n ≤ k) : fit n (bs.take k) = fit n bs := by
  apply Vector.toList_inj.1
  rw [toList_fit, toList_fit, List.take_take, Nat.min_eq_left h, List.length_take]
  congr 2
  omega

namespace Chk

theorem ofBytes_take {k : Nat} (bs : Bytes) (h : size ≤ k) : ofBytes (bs.take k) = ofBytes bs := by
  have hsize : size = 40 := rfl
  have hkey : fit 20 (bs.take k) = fit 20 bs := fit_take bs (by omega)
  have hquery : fit 20 ((bs.take k).drop 20) = fit 20 (bs.drop 20) := by
    rw [List.drop_take]
    exact fit_take _ (by omega)
  simp only [ofBytes, hkey, hquery]

end Chk

namespace InnerBlock

theorem length_tableBytes (chks : List Chk) : (tableBytes chks).length = Chk.size * chks.length := by
  induction chks with
  | nil => rfl
  | cons c chks ih =>
    have hcons : tableBytes (c :: chks) = c.toBytes ++ tableBytes chks := rfl
    rw [hcons, List.length_append, ih, Chk.length_toBytes, List.length_cons, Nat.mul_succ,
      Nat.add_comm]

theorem readTable_take (n k : Nat) (bs : Bytes) (h : Chk.size * n ≤ k) :
    readTable n (bs.take k) = readTable n bs := by
  induction n generalizing k bs with
  | zero => rfl
  | succ n ih =>
    rw [Nat.mul_succ] at h
    simp only [readTable]
    rw [Chk.ofBytes_take bs (by omega), List.drop_take, ih _ _ (by omega)]

@[simp]
theorem length_readTable (n : Nat) (bs : Bytes) : (readTable n bs).length = n := by
  induction n generalizing bs with
  | zero => rfl
  | succ n ih => rw [readTable, List.length_cons, ih]

theorem length_chks_decode (b : Block) (n : Nat) : (decode b n).chks.length = min n fanout :=
  length_readTable _ _

theorem readTable_tableBytes (chks : List Chk) (rest : Bytes) :
    readTable chks.length (tableBytes chks ++ rest) = chks := by
  induction chks with
  | nil => rfl
  | cons c chks ih =>
    have hcons : tableBytes (c :: chks) ++ rest = c.toBytes ++ (tableBytes chks ++ rest) :=
      List.append_assoc _ _ _
    have hdrop : (c.toBytes ++ (tableBytes chks ++ rest)).drop Chk.size = tableBytes chks ++ rest :=
      List.drop_left' c.length_toBytes
    rw [hcons, List.length_cons, readTable, Chk.ofBytes_toBytes_append, hdrop, ih]

/-- Only the bytes that count for `n` children matter. -/
theorem decode_congr {b b' : Block} {n : Nat}
    (h : b.toList.take (innerHeaderSize + 40 * n) = b'.toList.take (innerHeaderSize + 40 * n)) :
    decode b n = decode b' n := by
  have hheader : innerHeaderSize = 24 := rfl
  have hsize : Chk.size = 40 := rfl
  have hread : ∀ c : Block, decode c n =
      ⟨fit 20 (c.toList.take (innerHeaderSize + 40 * n)),
        UInt32.ofNat (ofBigEndian
          (((c.toList.take (innerHeaderSize + 40 * n)).drop 20).take 4)),
        readTable (min n fanout)
          ((c.toList.take (innerHeaderSize + 40 * n)).drop innerHeaderSize)⟩ := by
    intro c
    have hhash : fit 20 (c.toList.take (innerHeaderSize + 40 * n)) = fit 20 c.toList :=
      fit_take _ (by omega)
    have hcrc : ((c.toList.take (innerHeaderSize + 40 * n)).drop 20).take 4 =
        (c.toList.drop 20).take 4 := by
      rw [List.drop_take, List.take_take, Nat.min_eq_left (by omega)]
    have htable : readTable (min n fanout)
        ((c.toList.take (innerHeaderSize + 40 * n)).drop innerHeaderSize) =
          readTable (min n fanout) (c.toList.drop innerHeaderSize) := by
      rw [List.drop_take]
      refine readTable_take _ _ _ ?_
      rw [hsize]
      omega
    rw [hhash, hcrc, htable]
    rfl
  rw [hread b, hread b', h]

/-- What follows the table of an inner block is zero. -/
theorem toList_encode (b : InnerBlock) (h : b.chks.length ≤ fanout) :
    b.encode.toList = b.superHash.toList ++ (bigEndian 4 b.crc.toNat ++ (tableBytes b.chks ++
      List.replicate (1024 - (innerHeaderSize + 40 * b.chks.length)) 0)) := by
  have htable := length_tableBytes b.chks
  have hfanout : innerHeaderSize + 40 * fanout ≤ 1024 := by decide
  have hheader : innerHeaderSize = 24 := rfl
  have hsize : Chk.size = 40 := rfl
  have hlength : (b.superHash.toList ++ bigEndian 4 b.crc.toNat ++ tableBytes b.chks).length =
      innerHeaderSize + 40 * b.chks.length := by
    simp only [List.length_append, Vector.length_toList, length_bigEndian, htable, hsize, hheader]
  rw [encode, toList_fit, List.take_of_length_le h, hlength, List.take_of_length_le (by omega)]
  simp only [List.append_assoc]

theorem decode_encode (b : InnerBlock) (h : b.chks.length ≤ fanout) :
    decode b.encode b.chks.length = b := by
  have hcrc : ∀ rest : Bytes, ((b.superHash.toList ++ (bigEndian 4 b.crc.toNat ++ rest)).drop 20).take 4
      = bigEndian 4 b.crc.toNat := by
    intro rest
    rw [List.drop_left' (by simp), List.take_left' (by simp)]
  have htable : ∀ rest : Bytes,
      (b.superHash.toList ++ (bigEndian 4 b.crc.toNat ++ rest)).drop innerHeaderSize = rest := by
    intro rest
    rw [← List.append_assoc]
    exact List.drop_left' (by simp)
  have hword : UInt32.ofNat (ofBigEndian (bigEndian 4 b.crc.toNat)) = b.crc := by
    have hlt : b.crc.toNat < Nat.pow 256 4 := b.crc.toNat_lt
    rw [ofBigEndian_bigEndian, Nat.mod_eq_of_lt hlt]
    simp
  simp only [decode]
  rw [toList_encode b h, fit_append_toList, hcrc, htable, hword, Nat.min_eq_left h,
    readTable_tableBytes]

end InnerBlock

end ContentTree

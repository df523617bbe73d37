import Mathlib.Data.List.Basic
import ContentTree.Suite

/-!
# Suites

Applying the block cipher in use a second time gives the block back. Two suites are simple enough to
be worked with by hand: one that hides nothing, and one whose hash tells chosen strings from all
others.
-/

namespace ContentTree

theorem toList_fit_of_length_eq {n : Nat} {bs : Bytes} (h : bs.length = n) :
    (fit n bs).toList = bs := by
  subst h
  rw [toList_fit_of_le (Nat.le_refl _), List.take_length]

namespace Suite

theorem zipWith_xor_xor {bs stream : Bytes} (h : bs.length ≤ stream.length) :
    List.zipWith (· ^^^ ·) (List.zipWith (· ^^^ ·) bs stream) stream = bs := by
  induction bs generalizing stream with
  | nil => rfl
  | cons b bs ih =>
    cases stream with
    | nil => cases h
    | cons c stream =>
      rw [List.zipWith_cons_cons, List.zipWith_cons_cons, ih (Nat.le_of_succ_le_succ h),
        UInt8.xor_assoc, UInt8.xor_self, UInt8.xor_zero]

theorem length_encrypt (ks : Array UInt32) (n : Nat) : (Aes.encrypt ks n).length = 16 := rfl

theorem length_keystream (ks : Array UInt32) (n counter : Nat) :
    (Aes.keystream ks n counter).length = 16 * n := by
  induction n generalizing counter with
  | zero => rfl
  | succ n ih =>
    rw [Aes.keystream, List.length_append, length_encrypt, ih]
    omega

theorem maskBlock_maskBlock (key : Digest) (block : Block) :
    maskBlock key (maskBlock key block) = block := by
  unfold maskBlock
  extract_lets okm stream
  have hstream : stream.length = 1024 := length_keystream _ _ _
  have hlength : (List.zipWith (· ^^^ ·) block.toList stream).length = 1024 := by
    rw [List.length_zipWith, hstream, Vector.length_toList, Nat.min_self]
  rw [toList_fit_of_length_eq hlength, zipWith_xor_xor (by simp [hstream]), fit_toList]

/-- In the suite in use, decrypting undoes encrypting. -/
theorem standard_decrypt_encrypt (key : Digest) (block : Block) :
    standard.decrypt key (standard.encrypt key block) = block :=
  maskBlock_maskBlock key block

/-- A suite that hides nothing: the hash of a string is how it begins, and blocks stay as they are. -/
def plain : Suite where
  hash := fit 20
  checksum _ := 0
  encrypt _ := id
  decrypt _ := id

/-- Every byte of the block turned round. -/
def flip (block : Block) : Block := fit 1024 (block.toList.map (~~~ ·))

/-- A suite whose hash begins with the rank of a string among those chosen, the last of them first,
and with zero for all other strings. Checksums are sums of bytes, and blocks are encrypted bit for
bit. -/
def separating (chosen : List Bytes) : Suite where
  hash bytes := fit 20 (UInt8.ofNat (chosen.length - chosen.idxOf bytes) :: bytes)
  checksum bytes := bytes.foldl (fun sum byte => sum + byte.toUInt32) 0
  encrypt _ := flip
  decrypt _ := flip

theorem flip_flip (block : Block) : flip (flip block) = block := by
  unfold flip
  have hlength : (block.toList.map (~~~ ·)).length = 1024 := by simp
  have hself : (fun b : UInt8 => ~~~ b) ∘ (fun b => ~~~ b) = id := by
    funext b
    exact UInt8.not_not
  rw [toList_fit_of_length_eq hlength, List.map_map, hself, List.map_id, fit_toList]

/-- No other string has the hash of a chosen one. -/
theorem separating_hash_inj {chosen : List Bytes} (hfew : chosen.length < 256) {bs bs' : Bytes}
    (hmem : bs' ∈ chosen) (h : (separating chosen).hash bs = (separating chosen).hash bs') :
    bs = bs' := by
  have hlists := congrArg Vector.toList h
  change (fit 20 (_ :: bs)).toList = (fit 20 (_ :: bs')).toList at hlists
  rw [toList_fit, toList_fit, List.take_succ_cons, List.take_succ_cons] at hlists
  have hrank := congrArg UInt8.toNat (List.head_eq_of_cons_eq hlists)
  have hword : UInt8.size = 256 := rfl
  have hlt := List.idxOf_lt_length_iff.2 hmem
  have hle : chosen.idxOf bs ≤ chosen.length := List.idxOf_le_length
  rw [UInt8.toNat_ofNat_of_lt' (by omega), UInt8.toNat_ofNat_of_lt' (by omega)] at hrank
  exact ((List.idxOf_inj hmem).1 (by omega)).symm

end Suite

end ContentTree

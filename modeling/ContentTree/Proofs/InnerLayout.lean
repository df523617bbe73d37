import ContentTree.Proofs.Merkle
import ContentTree.Proofs.Wire.Reads

/-!
# Inner blocks within their bounds

An inner block is written through a cursor that has no room beyond the block, and read by taking one
field after the other off its front. Neither ever runs out. The bytes that are hashed for a number
of children are the ones that the decoded fields depend on, and all of them.
-/

namespace ContentTree

/-- A block under way: what has been written, and what is still to be overwritten. -/
structure Cursor where
  written : Bytes
  room : Bytes

namespace Cursor

/-- Overwrites the next bytes, unless there are too few. -/
def put? (c : Cursor) (bs : Bytes) : Option Cursor :=
  if bs.length ≤ c.room.length then some ⟨c.written ++ bs, c.room.drop bs.length⟩ else none

def putChk? (c : Cursor) (chk : Chk) : Option Cursor := do
  (← c.put? chk.key.toList).put? chk.query.toList

/-- The cursor of a zero block once `bs` is written. -/
def after (bs : Bytes) : Cursor := ⟨bs, List.replicate (blockSize - bs.length) 0⟩

variable {written : Bytes}

theorem put?_after {bs : Bytes} (h : (written ++ bs).length ≤ blockSize) :
    (after written).put? bs = some (after (written ++ bs)) := by
  rw [List.length_append] at h
  have hroom : bs.length ≤ (after written).room.length := by
    rw [after, List.length_replicate]
    omega
  rw [put?, if_pos hroom, after, after, List.drop_replicate, List.length_append, Nat.sub_sub]

theorem putChk?_after {chk : Chk} (h : (written ++ chk.toBytes).length ≤ blockSize) :
    (after written).putChk? chk = some (after (written ++ chk.toBytes)) := by
  rw [Chk.toBytes, ← List.append_assoc] at h ⊢
  have hkey : (written ++ chk.key.toList).length ≤ blockSize := by
    rw [List.length_append] at h
    exact Nat.le_of_add_right_le h
  rw [putChk?, put?_after hkey]
  exact put?_after h

theorem putTable?_after {chks : List Chk}
    (h : (written ++ InnerBlock.tableBytes chks).length ≤ blockSize) :
    chks.foldlM putChk? (after written) = some (after (written ++ InnerBlock.tableBytes chks)) := by
  induction chks generalizing written with
  | nil =>
    rw [InnerBlock.tableBytes, List.flatMap_nil, List.append_nil]
    rfl
  | cons c chks ih =>
    have hcons : written ++ InnerBlock.tableBytes (c :: chks) =
        (written ++ c.toBytes) ++ InnerBlock.tableBytes chks := by
      rw [List.append_assoc]
      rfl
    rw [hcons] at h ⊢
    have hfirst : (written ++ c.toBytes).length ≤ blockSize := by
      rw [List.length_append] at h
      exact Nat.le_of_add_right_le h
    rw [List.foldlM_cons, putChk?_after hfirst]
    exact ih h

end Cursor

namespace Chk

theorem toBytes_ofBytes {bs : Bytes} (h : size ≤ bs.length) :
    (ofBytes bs).toBytes = bs.take size := by
  have hkey : 20 ≤ bs.length := Nat.le_trans (by decide) h
  have hquery : 20 ≤ (bs.drop 20).length := le_length_drop h
  calc (ofBytes bs).toBytes = bs.take 20 ++ (bs.drop 20).take 20 := by
        rw [toBytes, ofBytes, toList_fit_of_le hkey, toList_fit_of_le hquery]
    _ = bs.take size := List.take_add.symm

end Chk

namespace InnerBlock

open Wire

/-- The block of `d`, written within its bounds. -/
def encode? (d : InnerBlock) : Option Bytes := do
  let header ← (Cursor.after []).put? d.superHash.toList
  let table ← header.put? (bigEndian 4 d.crc.toNat)
  let c ← (d.chks.take fanout).foldlM Cursor.putChk? table
  return c.written ++ c.room

def chk? (bs : Bytes) : Option (Chk × Bytes) := do
  let (key, bs) ← fixed? 20 bs
  let (query, bs) ← fixed? 20 bs
  return (⟨key, query⟩, bs)

def table? : Nat → Bytes → Option (List Chk)
  | 0, _ => some []
  | n + 1, bs => do
    let (c, bs) ← chk? bs
    return c :: (← table? n bs)

/-- What is in the block of a node with `n` children, read within its bounds. -/
def decode? (b : Block) (n : Nat) : Option InnerBlock := do
  let (superHash, bs) ← fixed? 20 b.toList
  let (crc, bs) ← number? 4 bs
  return ⟨superHash, UInt32.ofNat crc, ← table? (min n fanout) bs⟩

/-- The bytes of the block of a node with `n` children that its key is the hash of. -/
def hashed (n : Nat) (b : Block) : Bytes := b.toList.take (innerLength n)

/-- A full table fills the block. -/
theorem table_le_blockSize {n : Nat} (h : n ≤ fanout) :
    innerHeaderSize + Chk.size * n ≤ blockSize := by
  calc innerHeaderSize + Chk.size * n ≤ innerHeaderSize + Chk.size * fanout :=
        Nat.add_le_add_left (Nat.mul_le_mul_left _ h) _
    _ = blockSize := by decide

theorem encode?_eq (d : InnerBlock) : encode? d = some d.encode.toList := by
  have hcount : (d.chks.take fanout).length ≤ fanout := List.length_take_le _ _
  have hheader : (d.superHash.toList ++ bigEndian 4 d.crc.toNat).length = innerHeaderSize := by
    rw [List.length_append, Vector.length_toList, length_bigEndian]
  have hall : (d.superHash.toList ++ bigEndian 4 d.crc.toNat ++
      tableBytes (d.chks.take fanout)).length ≤ blockSize := by
    rw [List.length_append, hheader, length_tableBytes]
    exact table_le_blockSize hcount
  have hhash : (Cursor.after []).put? d.superHash.toList = some (.after d.superHash.toList) :=
    Cursor.put?_after (by rw [List.nil_append, Vector.length_toList]; decide)
  have hcrc : (Cursor.after d.superHash.toList).put? (bigEndian 4 d.crc.toNat) =
      some (.after (d.superHash.toList ++ bigEndian 4 d.crc.toNat)) :=
    Cursor.put?_after (by rw [hheader]; decide)
  simp only [encode?, hhash, hcrc, Cursor.putTable?_after hall, Option.bind_eq_bind,
    Option.bind_some]
  rw [encode, toList_fit, List.take_of_length_le hall]
  rfl

theorem chk?_eq {bs : Bytes} (h : Chk.size ≤ bs.length) :
    chk? bs = some (Chk.ofBytes bs, bs.drop Chk.size) := by
  have hkey : 20 ≤ bs.length := Nat.le_trans (by decide) h
  have hquery : 20 ≤ (bs.drop 20).length := le_length_drop h
  simp only [chk?, fixed?_eq hkey, fixed?_eq hquery, Option.bind_eq_bind, Option.bind_some,
    List.drop_drop]
  rfl

theorem table?_eq {n : Nat} {bs : Bytes} (h : Chk.size * n ≤ bs.length) :
    table? n bs = some (readTable n bs) := by
  induction n generalizing bs with
  | zero => rfl
  | succ n ih =>
    rw [Nat.mul_succ] at h
    have hfirst : Chk.size ≤ bs.length := Nat.le_of_add_left_le h
    have hrest : Chk.size * n ≤ (bs.drop Chk.size).length := le_length_drop (Nat.add_comm .. ▸ h)
    simp only [table?, chk?_eq hfirst, ih hrest, Option.bind_eq_bind, Option.bind_some]
    rfl

theorem decode?_eq (b : Block) (n : Nat) : decode? b n = some (decode b n) := by
  have hlength : b.toList.length = blockSize := Vector.length_toList
  have hhash : 20 ≤ b.toList.length := by rw [hlength]; decide
  have hcrc : 4 ≤ (b.toList.drop 20).length := le_length_drop (by rw [hlength]; decide)
  have htable : Chk.size * min n fanout ≤ (b.toList.drop innerHeaderSize).length := by
    refine le_length_drop ?_
    rw [hlength]
    exact table_le_blockSize (Nat.min_le_right _ _)
  simp only [decode?, fixed?_eq hhash, number?_eq hcrc, Option.bind_eq_bind, Option.bind_some,
    List.drop_drop, table?_eq htable]
  rfl

theorem tableBytes_readTable {n : Nat} {bs : Bytes} (h : Chk.size * n ≤ bs.length) :
    tableBytes (readTable n bs) = bs.take (Chk.size * n) := by
  induction n generalizing bs with
  | zero => rfl
  | succ n ih =>
    rw [Nat.mul_succ, Nat.add_comm (Chk.size * n)] at h ⊢
    have hrest : Chk.size * n ≤ (bs.drop Chk.size).length := le_length_drop h
    calc tableBytes (readTable (n + 1) bs)
        = (Chk.ofBytes bs).toBytes ++ tableBytes (readTable n (bs.drop Chk.size)) := rfl
      _ = bs.take Chk.size ++ (bs.drop Chk.size).take (Chk.size * n) := by
        rw [Chk.toBytes_ofBytes (Nat.le_of_add_right_le h), ih hrest]
      _ = bs.take (Chk.size + Chk.size * n) := List.take_add.symm

theorem toList_encode_decode {n : Nat} (h : n ≤ fanout) (b : Block) :
    (decode b n).encode.toList = hashed n b ++ List.replicate (blockSize - innerLength n) 0 := by
  have hlength : b.toList.length = blockSize := Vector.length_toList
  have hcount : (decode b n).chks.length = n := by rw [length_chks_decode, Nat.min_eq_left h]
  have hhash : (fit 20 b.toList).toList = b.toList.take 20 :=
    toList_fit_of_le (by rw [hlength]; decide)
  have hcrc : bigEndian 4 (UInt32.ofNat (ofBigEndian ((b.toList.drop 20).take 4))).toNat =
      (b.toList.drop 20).take 4 := by
    rw [UInt32.toNat_ofNat_of_lt' (ofBigEndian_take_lt 4 _)]
    exact bigEndian_ofBigEndian_take (le_length_drop (by rw [hlength]; decide))
  have htable : tableBytes (readTable (min n fanout) (b.toList.drop innerHeaderSize)) =
      (b.toList.drop innerHeaderSize).take (Chk.size * n) := by
    rw [Nat.min_eq_left h]
    refine tableBytes_readTable (le_length_drop ?_)
    rw [hlength]
    exact table_le_blockSize h
  have hjoin : b.toList.take 20 ++ ((b.toList.drop 20).take 4 ++
      (b.toList.drop innerHeaderSize).take (Chk.size * n)) = hashed n b := by
    rw [← List.append_assoc, ← List.take_add]
    exact List.take_add.symm
  rw [toList_encode _ (hcount.trans_le h), hcount, ← hjoin, List.append_assoc,
    List.append_assoc]
  simp only [decode, hhash, hcrc, htable]
  rfl

theorem decode_eq_decode_iff {n : Nat} (h : n ≤ fanout) (b b' : Block) :
    decode b n = decode b' n ↔ hashed n b = hashed n b' := by
  constructor
  · intro heq
    have hbytes : (decode b n).encode.toList = (decode b' n).encode.toList := by rw [heq]
    rw [toList_encode_decode h, toList_encode_decode h] at hbytes
    exact List.append_cancel_right hbytes
  · exact decode_congr

theorem key_sealed (s : Suite) (size position depth : Nat) (parent : Option NodeId) (b : Block) :
    (({ Node.newInner size position depth parent with data := some b } : Node).sealed s).1.chk.key =
      s.hash (hashed (childCount size position depth) b) := by
  rw [Node.sealed_eq s _ b rfl]
  rfl

/-- A block and the fields of a node with `n` children determine each other as far as the key of the
node binds the block, and neither is written or read beyond its bounds. -/
theorem layout (n : Nat) (h : n ≤ fanout) :
    (∀ d : InnerBlock, d.chks.length = n → decode d.encode n = d) ∧
    (∀ b : Block, (decode b n).encode.toList =
      b.toList.take (innerLength n) ++ List.replicate (1024 - innerLength n) 0) ∧
    (∀ b b' : Block, decode b n = decode b' n ↔ hashed n b = hashed n b') ∧
    (∀ (s : Suite) (size position depth : Nat) (parent : Option NodeId) (b : Block),
      childCount size position depth = n →
      (({ Node.newInner size position depth parent with data := some b } : Node).sealed s).1.chk.key =
        s.hash (hashed n b)) ∧
    (∀ d : InnerBlock, encode? d = some d.encode.toList) ∧
    ∀ (b : Block) (count : Nat), decode? b count = some (decode b count) := by
  refine ⟨?_, toList_encode_decode h, decode_eq_decode_iff h, ?_, encode?_eq, decode?_eq⟩
  · rintro d rfl
    exact decode_encode d h
  · rintro s size position depth parent b rfl
    exact key_sealed s size position depth parent b

theorem layout_of_full_table : 25 ≤ fanout ∧
    decode (encode ⟨zeroDigest, 7, List.replicate 25 .zero⟩) 25 =
      ⟨zeroDigest, 7, List.replicate 25 .zero⟩ :=
  ⟨by decide, (layout 25 (by decide)).1 _ List.length_replicate⟩

end InnerBlock

end ContentTree

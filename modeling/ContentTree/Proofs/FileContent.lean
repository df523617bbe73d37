import Mathlib.Data.List.Basic
import ContentTree.FileContent

/-!
# What a file holds

A content is seen as a size and one byte for each offset. Reading lists bytes, and writing changes
those of one range.
-/

namespace ContentTree

namespace Piece

/-- The byte that the piece puts at `i`, if it covers `i`. -/
def byte? (p : Piece) (i : Nat) : Option UInt8 :=
  if p.offset ≤ i then p.bytes.data[i - p.offset]? else none

theorem byte?_eq_none {p : Piece} {i : Nat} (h : i < p.offset ∨ p.stop ≤ i) : p.byte? i = none := by
  unfold byte?
  split
  · rename_i hle
    have hstop : p.stop = p.offset + p.bytes.data.size := rfl
    exact Array.getElem?_eq_none (by omega)
  · rfl

theorem byte?_cut (p : Piece) {i size : Nat} (h : i < size) : (p.cut size).byte? i = p.byte? i := by
  unfold byte? cut
  split
  · simp only [ByteArray.data_extract, Array.getElem?_extract]
    grind
  · rfl

/-- Laying a piece over a window replaces the bytes that the piece covers. -/
theorem getElem?_layOver (start : Nat) (p : Piece) (window : ByteArray) (k : Nat) :
    (p.layOver start window).data[k]? =
      if k < window.data.size then (p.byte? (start + k)).or window.data[k]? else none := by
  have hstop : p.stop = p.offset + p.bytes.data.size := rfl
  have hsize : window.size = window.data.size := rfl
  unfold layOver
  dsimp only
  rw [hsize]
  by_cases hoverlap : max p.offset start < min p.stop (start + window.data.size)
  · rw [if_pos hoverlap]
    simp only [ByteArray.copySlice, Array.getElem?_append, Array.getElem?_extract,
      Array.size_append, Array.size_extract, byte?]
    grind
  · rw [if_neg hoverlap]
    split
    · rw [byte?_eq_none (by omega), Option.none_or]
    · exact Array.getElem?_eq_none (by omega)

end Piece

namespace FileContent

/-- The byte at `i`: that of the latest piece that covers `i`, or zero. -/
def byteAt (c : FileContent) (i : Nat) : UInt8 := (c.pieces.findSome? (·.byte? i)).getD 0

theorem getElem?_layers (pieces : List Piece) (start size k : Nat) :
    (pieces.foldr (Piece.layOver start) ⟨Array.replicate size 0⟩).data[k]? =
      if k < size then some ((pieces.findSome? (·.byte? (start + k))).getD 0) else none := by
  induction pieces generalizing k with
  | nil => simp [Array.getElem?_replicate]
  | cons p pieces ih =>
    have hsize : (pieces.foldr (Piece.layOver start) ⟨Array.replicate size 0⟩).data.size = size := by
      have hlast := ih size
      have hall : ∀ j < size,
          j < (pieces.foldr (Piece.layOver start) ⟨Array.replicate size 0⟩).data.size := by
        intro j hj
        have hsome := ih j
        rw [if_pos hj] at hsome
        exact (Array.getElem?_eq_some_iff.1 hsome).1
      rw [if_neg (Nat.lt_irrefl size), Array.getElem?_eq_none_iff] at hlast
      by_contra hne
      exact absurd (hall _ (Nat.lt_of_le_of_ne hlast hne)) (Nat.lt_irrefl _)
    rw [List.foldr_cons, Piece.getElem?_layOver, hsize, ih, List.findSome?_cons]
    split
    · cases p.byte? (start + k) <;> rfl
    · rfl

theorem readAt_eq (c : FileContent) (offset n : Nat) :
    c.readAt offset n = (List.range (min n (c.size - offset))).map fun k => c.byteAt (offset + k) := by
  apply List.ext_getElem?
  intro k
  rw [readAt, Array.getElem?_toList, window, getElem?_layers, List.getElem?_map]
  by_cases hk : k < min n (c.size - offset)
  · rw [if_pos hk, List.getElem?_range hk]
    rfl
  · rw [if_neg hk, List.getElem?_eq_none (by simpa using Nat.le_of_not_lt hk)]
    rfl

@[simp]
theorem length_readAt (c : FileContent) (offset n : Nat) :
    (c.readAt offset n).length = min n (c.size - offset) := by
  simp [readAt_eq]

theorem length_readAt_eq_iff {c : FileContent} {offset n : Nat} :
    (c.readAt offset n).length = n ↔ n = 0 ∨ offset + n ≤ c.size := by
  rw [length_readAt]
  omega

/-- Cutting a file where it ends, or after, changes nothing that can be read. -/
theorem readAt_truncate {c : FileContent} {size : Nat} (h : c.size ≤ size) (offset n : Nat) :
    (c.truncate size).readAt offset n = c.readAt offset n := by
  have hsize : (c.truncate size).size = c.size := Nat.min_eq_left h
  rw [readAt_eq, readAt_eq, hsize]
  refine List.map_congr_left fun k hk => ?_
  have hk := List.mem_range.1 hk
  rw [byteAt, byteAt, truncate, List.findSome?_map]
  congr 2
  funext p
  exact p.byte?_cut (by omega)

def toBytes (c : FileContent) : Bytes := c.readAt 0 c.size

@[simp]
theorem length_toBytes (c : FileContent) : c.toBytes.length = c.size := by
  simp [toBytes]

theorem toBytes_truncate {c : FileContent} {size : Nat} (h : c.size ≤ size) :
    (c.truncate size).toBytes = c.toBytes := by
  have hsize : (c.truncate size).size = c.size := Nat.min_eq_left h
  rw [toBytes, hsize, readAt_truncate h, toBytes]

theorem readAt_eq_take_drop (c : FileContent) (offset n : Nat) :
    c.readAt offset n = (c.toBytes.drop offset).take n := by
  apply List.ext_getElem?
  intro k
  rw [List.getElem?_take, List.getElem?_drop, toBytes, readAt_eq, readAt_eq, List.getElem?_map,
    List.getElem?_map]
  by_cases hk : k < n
  · rw [if_pos hk]
    by_cases hoffset : offset + k < c.size
    · rw [List.getElem?_range (by omega), List.getElem?_range (by omega)]
      simp
    · rw [List.getElem?_eq_none (by simp; omega), List.getElem?_eq_none (by simp; omega)]
      rfl
  · rw [if_neg hk, List.getElem?_eq_none (by simp; omega)]
    rfl

/-- Asking for as much as there was gives the same, and asking for more begins with it. -/
theorem readAt_length_readAt (c : FileContent) (offset n : Nat) :
    c.readAt offset (c.readAt offset n).length = c.readAt offset n := by
  rw [length_readAt, readAt_eq, readAt_eq, Nat.min_assoc, Nat.min_self]

theorem prefix_readAt (c : FileContent) (offset : Nat) {m n : Nat} (h : m ≤ n) :
    c.readAt offset m <+: c.readAt offset n := by
  rw [readAt_eq_take_drop, readAt_eq_take_drop]
  exact List.take_prefix_take_left h

/-- A file is what it should be if every byte that should be there is part of a range that is. -/
theorem toBytes_eq {c : FileContent} {file : Bytes} (hsize : c.size ≤ file.length)
    (h : ∀ k < file.length, ∃ start n, start ≤ k ∧ k < start + n ∧
      c.readAt start n = (file.drop start).take n) : c.toBytes = file := by
  apply List.ext_getElem?
  intro k
  rcases Nat.lt_or_ge k file.length with hk | hk
  · obtain ⟨start, n, hstart, hstop, hread⟩ := h k hk
    rw [readAt_eq_take_drop] at hread
    have hget := congrArg (fun bs : Bytes => bs[k - start]?) hread
    simp only [List.getElem?_take, List.getElem?_drop] at hget
    rw [if_pos (by omega), if_pos (by omega), Nat.add_sub_cancel' hstart] at hget
    exact hget
  · rw [List.getElem?_eq_none (by rw [length_toBytes]; omega), List.getElem?_eq_none hk]

theorem size_writeAt (c : FileContent) (offset : Nat) (bs : Bytes) :
    (c.writeAt offset bs).size = if bs = [] then c.size else max c.size (offset + bs.length) := by
  unfold writeAt
  cases bs with
  | nil => rfl
  | cons b bs => simp [Piece.stop]

theorem size_le_writeAt (c : FileContent) (offset : Nat) (bs : Bytes) :
    c.size ≤ (c.writeAt offset bs).size := by
  rw [size_writeAt]
  split
  · exact Nat.le_refl _
  · exact Nat.le_max_left _ _

theorem findSome?_byte?_filter (pieces : List Piece) (keep : Piece → Bool) (i : Nat)
    (h : ∀ q : Piece, keep q = false → q.byte? i = none) :
    (pieces.filter keep).findSome? (·.byte? i) = pieces.findSome? (·.byte? i) := by
  induction pieces with
  | nil => rfl
  | cons q pieces ih =>
    cases hkeep : keep q with
    | true => rw [List.filter_cons_of_pos hkeep, List.findSome?_cons, List.findSome?_cons, ih]
    | false =>
      rw [List.filter_cons_of_neg (by simp [hkeep]), ih, List.findSome?_cons, h q hkeep]

theorem byteAt_writeAt (c : FileContent) (offset : Nat) (bs : Bytes) (i : Nat) :
    (c.writeAt offset bs).byteAt i =
      ((if offset ≤ i then bs[i - offset]? else none)).getD (c.byteAt i) := by
  unfold writeAt
  by_cases hbs : bs = []
  · subst hbs
    simp
  · have hne : bs.isEmpty = false := by simpa using hbs
    have hpiece : (⟨offset, bs.toByteArray⟩ : Piece).byte? i =
        if offset ≤ i then bs[i - offset]? else none := by
      simp [Piece.byte?, List.data_toByteArray]
    simp only [hne, Bool.false_eq_true, if_false, byteAt, List.findSome?_cons, hpiece]
    cases hcovered : (if offset ≤ i then bs[i - offset]? else none) with
    | some b => rfl
    | none =>
      simp only [Option.getD_none]
      rw [findSome?_byte?_filter]
      intro q hq
      have hinside : offset ≤ q.offset ∧ q.stop ≤ offset + bs.length := by
        simpa [Piece.stop] using hq
      have houtside : i < offset ∨ offset + bs.length ≤ i := by
        by_cases hi : offset ≤ i
        · rw [if_pos hi, List.getElem?_eq_none_iff] at hcovered
          omega
        · omega
      exact Piece.byte?_eq_none (by omega)

theorem readAt_writeAt_self (c : FileContent) (offset : Nat) (bs : Bytes) :
    (c.writeAt offset bs).readAt offset bs.length = bs := by
  apply List.ext_getElem?
  intro k
  rw [readAt_eq, List.getElem?_map, size_writeAt]
  by_cases hk : k < bs.length
  · have hne : bs ≠ [] := List.ne_nil_of_length_pos (by omega)
    rw [if_neg hne, List.getElem?_range (by omega)]
    simp [byteAt_writeAt, List.getElem?_eq_getElem hk]
  · rw [List.getElem?_eq_none (by simp; omega), List.getElem?_eq_none (by omega)]
    rfl

/-- A write leaves alone what can be read in full beside it. -/
theorem readAt_writeAt_of_apart {c : FileContent} {offset other n : Nat} {bs : Bytes}
    (hfull : (c.readAt other n).length = n)
    (hapart : other + n ≤ offset ∨ offset + bs.length ≤ other) :
    (c.writeAt offset bs).readAt other n = c.readAt other n := by
  have hsize := size_le_writeAt c offset bs
  have hlength := length_readAt_eq_iff.1 hfull
  rw [readAt_eq, readAt_eq]
  have hcount : min n ((c.writeAt offset bs).size - other) = min n (c.size - other) := by omega
  rw [hcount]
  refine List.map_congr_left fun k hk => ?_
  have hk : k < n := by
    have hlt := List.mem_range.1 hk
    omega
  rw [byteAt_writeAt]
  split
  · rw [List.getElem?_eq_none (by omega)]
    rfl
  · rfl

/-- A file that was written as a whole holds just what was written. -/
theorem toByteArray_ofByteArray (bs : ByteArray) : (ofByteArray bs).toByteArray = bs := by
  apply ByteArray.ext
  apply Array.ext_getElem?
  intro k
  rw [toByteArray, window, getElem?_layers]
  by_cases hk : k < bs.size
  · simp [ofByteArray, Piece.byte?, hk]
  · rw [if_neg (by simpa [ofByteArray] using hk), Array.getElem?_eq_none (Nat.le_of_not_lt hk)]

end FileContent

end ContentTree

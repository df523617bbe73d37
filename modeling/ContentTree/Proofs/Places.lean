import Mathlib.Algebra.Order.Ring.Nat
import Mathlib.Tactic.Ring
import ContentTree.Shape

/-!
# Places in the tree over a file

A place is a level together with the first byte that a node of that level covers. The children of a
place tile what it covers, and the blocks of one level lie one after the other in the file of that
level, none over another.
-/

namespace ContentTree

/-- Bytes that a full node of a level covers, without the limit of 64 bits. -/
def span (level : Nat) : Nat := leafCapacity * fanout ^ level

theorem span_pos (level : Nat) : 0 < span level :=
  Nat.mul_pos (by decide) (Nat.pow_pos (by decide))

@[simp]
theorem span_zero : span 0 = leafCapacity := rfl

theorem span_succ (level : Nat) : span (level + 1) = fanout * span level := by
  simp only [span, Nat.pow_succ]
  ring

theorem coverage_eq_span {level : Nat} (h : level < 12) : coverage level = span level := by
  simp [coverage, span, h]

theorem maxSize_lt_span : maxSize < span 12 := by decide

/-! ### The depth of a tree -/

theorem levelsAbove_le {size fuel covered levels : Nat} (h : size ≤ covered * fanout ^ levels) :
    levelsAbove size fuel covered ≤ levels := by
  induction fuel generalizing covered levels with
  | zero => simp [levelsAbove]
  | succ fuel ih =>
    unfold levelsAbove
    split
    · rename_i hsmall
      cases levels with
      | zero => simp at h; omega
      | succ levels =>
        have hnext : size ≤ fanout * covered * fanout ^ levels := by
          refine h.trans (le_of_eq ?_)
          rw [Nat.pow_succ]
          ring
        exact Nat.succ_le_succ (ih hnext)
    · exact Nat.zero_le _

theorem le_levelsAbove {size fuel covered : Nat} (h : size ≤ covered * fanout ^ fuel) :
    size ≤ covered * fanout ^ levelsAbove size fuel covered := by
  induction fuel generalizing covered with
  | zero => simpa [levelsAbove] using h
  | succ fuel ih =>
    unfold levelsAbove
    split
    · have hnext : size ≤ fanout * covered * fanout ^ fuel := by
        refine h.trans (le_of_eq ?_)
        rw [Nat.pow_succ]
        ring
      refine (ih hnext).trans (le_of_eq ?_)
      rw [Nat.pow_succ]
      ring
    · rename_i hlarge
      simp only [Nat.pow_zero, Nat.mul_one]
      omega

theorem treeDepth_le {size levels : Nat} (h : size ≤ span levels) : treeDepth size ≤ levels :=
  levelsAbove_le h

theorem treeDepth_le_twelve {size : Nat} (h : size ≤ maxSize) : treeDepth size ≤ 12 :=
  treeDepth_le (h.trans maxSize_lt_span.le)

theorem le_span_treeDepth (size : Nat) : size ≤ span (treeDepth size) := by
  refine le_levelsAbove ?_
  have hpow : size < fanout ^ size := Nat.lt_pow_self (by decide)
  calc
    size ≤ 1 * fanout ^ size := by omega
    _ ≤ leafCapacity * fanout ^ size := Nat.mul_le_mul_right _ (by decide)

theorem treeDepth_eq_zero {size : Nat} : treeDepth size = 0 ↔ size ≤ leafCapacity := by
  refine ⟨fun hzero => ?_, fun hle => Nat.le_zero.1 (treeDepth_le (span_zero ▸ hle))⟩
  have hspan := le_span_treeDepth size
  rwa [hzero, span_zero] at hspan

theorem leafCapacity_lt_of_treeDepth_pos {size : Nat} (h : 0 < treeDepth size) :
    leafCapacity < size :=
  Nat.lt_of_not_le fun hle => h.ne' (treeDepth_eq_zero.2 hle)

/-! ### Children -/

/-- A node has a child in slot `i` just if there are `i + 1` slots and bytes of the file in it. -/
theorem lt_childCount_iff {size position level i : Nat} (hsize : size ≤ maxSize) (hlevel : level < 12) :
    i < childCount size position (level + 1) ↔ i < fanout ∧ position + i * span level < size := by
  have hpos := span_pos level
  have hlimit : min (size - position) (min (fanout * span level) maxSize) =
      min (size - position) (fanout * span level) := by
    rcases Nat.le_total (fanout * span level) maxSize with h | h
    · rw [Nat.min_eq_left h]
    · rw [Nat.min_eq_right h]
      omega
  have hdiv : i < childCount size position (level + 1) ↔
      i * span level < min (size - position) (fanout * span level) := by
    simp only [childCount, Nat.add_sub_cancel, coverage_eq_span hlevel, hlimit]
    rw [Nat.lt_div_iff_mul_lt hpos]
    omega
  rw [hdiv, Nat.lt_min, Nat.mul_lt_mul_right hpos]
  omega

theorem childCount_le {size position level : Nat} (hsize : size ≤ maxSize) (hlevel : level < 12) :
    childCount size position (level + 1) ≤ fanout := by
  by_contra hlt
  have h := (lt_childCount_iff hsize hlevel).1 (Nat.lt_of_not_le hlt)
  exact absurd h.1 (Nat.lt_irrefl _)

/-- The tree over a file of `size` bytes has a node of this level that starts at this byte. -/
structure Place (size level position : Nat) : Prop where
  level_le : level ≤ treeDepth size
  dvd : span level ∣ position
  start : position < size ∨ position = 0

theorem place_root (size : Nat) : Place size (treeDepth size) 0 :=
  ⟨le_rfl, dvd_zero _, Or.inr rfl⟩

namespace Place

variable {size level position : Nat}

theorem level_lt (hsize : size ≤ maxSize) (h : Place size (level + 1) position) : level < 12 := by
  have hdepth := treeDepth_le_twelve hsize
  have hle := h.level_le
  omega

theorem size_pos (h : Place size (level + 1) position) : 0 < size := by
  have hle := h.level_le
  have hlarge := @leafCapacity_lt_of_treeDepth_pos size (by omega)
  omega

theorem lt_size (h : Place size (level + 1) position) : position < size := by
  rcases h.start with hlt | rfl
  · exact hlt
  · exact h.size_pos

theorem child {i : Nat} (hsize : size ≤ maxSize) (h : Place size (level + 1) position)
    (hi : i < childCount size position (level + 1)) : Place size level (position + i * span level) where
  level_le := (Nat.le_succ level).trans h.level_le
  dvd := by
    have hdvd : span level ∣ position :=
      (Dvd.intro_left fanout (span_succ level).symm).trans h.dvd
    exact Nat.dvd_add hdvd (Dvd.intro_left i rfl)
  start := Or.inl ((lt_childCount_iff hsize (h.level_lt hsize)).1 hi).2

end Place

/-- The place at `level` and `position` covers the one at `below` and `start`. -/
structure Covers (level position below start : Nat) : Prop where
  below_le : below ≤ level
  le_start : position ≤ start
  start_lt : start < position + span level

theorem covers_self (level position : Nat) : Covers level position level position :=
  ⟨le_rfl, le_rfl, Nat.lt_add_of_pos_right (span_pos level)⟩

theorem ne_of_not_covers {level position below start : Nat}
    (h : ¬ Covers level position below start) : (below, start) ≠ (level, position) := by
  intro heq
  obtain ⟨rfl, rfl⟩ := Prod.mk.inj heq
  exact h (covers_self _ _)

theorem covers_root {size level position : Nat} (h : Place size level position) :
    Covers (treeDepth size) 0 level position where
  below_le := h.level_le
  le_start := Nat.zero_le _
  start_lt := by
    have hspan := le_span_treeDepth size
    have hpos := span_pos (treeDepth size)
    rcases h.start with hlt | rfl <;> omega

namespace Covers

variable {size level position below start : Nat}

theorem child (hsize : size ≤ maxSize) (hplace : Place size (level + 1) position)
    (hstart : Place size below start) (h : Covers (level + 1) position below start)
    (hbelow : below ≤ level) :
    ∃ i < childCount size position (level + 1), Covers level (position + i * span level) below start := by
  have hpos := span_pos level
  have hle := h.le_start
  have hlt := h.start_lt
  rw [span_succ] at hlt
  obtain ⟨offset, rfl⟩ := Nat.exists_eq_add_of_le hle
  -- The child is the one into whose span the offset falls.
  have hdivlt : offset / span level < fanout := Nat.div_lt_of_lt_mul (by
    rw [Nat.mul_comm]
    omega)
  have hfloor : offset / span level * span level ≤ offset := Nat.div_mul_le_self offset _
  have hceil : offset < offset / span level * span level + span level := by
    have hmod := Nat.mod_lt offset hpos
    have heq := Nat.div_add_mod' offset (span level)
    omega
  refine ⟨offset / span level, ?_, ⟨hbelow, by omega, by omega⟩⟩
  refine (lt_childCount_iff hsize (hplace.level_lt hsize)).2 ⟨hdivlt, ?_⟩
  have hlt_size := hplace.lt_size
  rcases hstart.start with hs | hs <;> omega

theorem of_child {i : Nat} (hi : i < fanout)
    (h : Covers level (position + i * span level) below start) :
    Covers (level + 1) position below start where
  below_le := h.below_le.trans (Nat.le_succ level)
  le_start := (Nat.le_add_right _ _).trans h.le_start
  start_lt := by
    have hlt := h.start_lt
    have hslots : i * span level + span level ≤ fanout * span level := by
      rw [← Nat.succ_mul]
      exact Nat.mul_le_mul_right _ hi
    rw [span_succ]
    omega

theorem trans {mid middle : Nat} (hdvd : span level ∣ position) (hmid : span mid ∣ middle)
    (h : Covers level position mid middle) (h' : Covers mid middle below start) :
    Covers level position below start where
  below_le := h'.below_le.trans h.below_le
  le_start := h.le_start.trans h'.le_start
  start_lt := by
    -- Both bounds are multiples of the span in the middle, so that fits in as a whole.
    have hspan : span mid ∣ span level :=
      Nat.mul_dvd_mul_left leafCapacity (pow_dvd_pow fanout h.below_le)
    obtain ⟨a, rfl⟩ := hmid
    obtain ⟨b, hb⟩ := Nat.dvd_add (hspan.trans hdvd) hspan
    have hlt := h.start_lt
    rw [hb] at hlt ⊢
    have hslots : span mid * (a + 1) ≤ span mid * b :=
      Nat.mul_le_mul_left _ (Nat.lt_of_mul_lt_mul_left hlt)
    rw [Nat.mul_add, Nat.mul_one] at hslots
    exact h'.start_lt.trans_le hslots

theorem unique {other : Nat} (hdvd : span level ∣ position) (hother : span level ∣ other)
    (h : Covers level position below start) (h' : Covers level other below start) :
    position = other := by
  obtain ⟨a, rfl⟩ := hdvd
  obtain ⟨b, rfl⟩ := hother
  have hpos := span_pos level
  have hab : a < b + 1 := by
    refine Nat.lt_of_mul_lt_mul_left (a := span level) ?_
    rw [Nat.mul_add, Nat.mul_one]
    exact h.le_start.trans_lt h'.start_lt
  have hba : b < a + 1 := by
    refine Nat.lt_of_mul_lt_mul_left (a := span level) ?_
    rw [Nat.mul_add, Nat.mul_one]
    exact h'.le_start.trans_lt h.start_lt
  rw [show a = b by omega]

theorem eq_of_level (hdvd : span level ∣ position) (hstart : span level ∣ start)
    (h : Covers level position level start) : position = start :=
  unique hdvd hstart h (covers_self level start)

end Covers

/-- A place is the child of one place only, in one slot. -/
theorem Place.child_inj {size level position other i j : Nat} (hsize : size ≤ maxSize)
    (h : Place size (level + 1) position) (h' : Place size (level + 1) other)
    (hi : i < childCount size position (level + 1)) (hj : j < childCount size other (level + 1))
    (heq : position + i * span level = other + j * span level) : position = other ∧ i = j := by
  have hlevel := h.level_lt hsize
  have hcovers : Covers (level + 1) position level (position + i * span level) :=
    (covers_self level _).of_child ((lt_childCount_iff hsize hlevel).1 hi).1
  have hcovers' : Covers (level + 1) other level (position + i * span level) :=
    heq ▸ (covers_self level _).of_child ((lt_childCount_iff hsize hlevel).1 hj).1
  obtain rfl := Covers.unique h.dvd h'.dvd hcovers hcovers'
  exact ⟨rfl, Nat.eq_of_mul_eq_mul_right (span_pos level) (Nat.add_left_cancel heq)⟩

/-! ### Blocks in the file of a level -/

/-- Meaningful bytes of the block at a place. -/
def nodeLength (size level position : Nat) : Nat :=
  if level = 0 then leafLength size position else innerLength (childCount size position level)

theorem nodeLength_le {size level position : Nat} (hsize : size ≤ maxSize)
    (h : Place size level position) : nodeLength size level position ≤ leafCapacity := by
  cases level with
  | zero => exact Nat.min_le_right _ _
  | succ level =>
    have hcount := @childCount_le size position level hsize (h.level_lt hsize)
    have hfanout : innerHeaderSize + 40 * fanout ≤ leafCapacity := by decide
    simp only [nodeLength, Nat.add_one_ne_zero, if_false, innerLength]
    omega

/-- The blocks of a level are numbered, and each has room for a full block. -/
theorem levelOffset_eq {level position : Nat} (h : span level ∣ position) :
    levelOffset level position = leafCapacity * (position / span level) := by
  obtain ⟨number, rfl⟩ := h
  have hpow : 0 < fanout ^ level := Nat.pow_pos (by decide)
  rw [Nat.mul_div_cancel_left _ (span_pos level)]
  change leafCapacity * fanout ^ level * number / fanout ^ level = leafCapacity * number
  have hswap : leafCapacity * fanout ^ level * number = leafCapacity * number * fanout ^ level := by
    ring
  rw [hswap, Nat.mul_div_cancel _ hpow]

theorem levelOffset_zero (position : Nat) : levelOffset 0 position = position := by
  simp [levelOffset]

theorem levelOffset_apart {level position other : Nat} (h : span level ∣ position)
    (h' : span level ∣ other) (hne : position ≠ other) :
    levelOffset level position + leafCapacity ≤ levelOffset level other ∨
      levelOffset level other + leafCapacity ≤ levelOffset level position := by
  rw [levelOffset_eq h, levelOffset_eq h']
  have hnumbers : position / span level ≠ other / span level := by
    intro heq
    exact hne ((Nat.div_left_inj h h').1 heq)
  rcases Nat.lt_or_gt_of_ne hnumbers with hlt | hlt
  · left
    exact Nat.mul_le_mul_left leafCapacity hlt
  · right
    exact Nat.mul_le_mul_left leafCapacity hlt

/-- Above the leaves every block starts where a file can be read and written. -/
theorem levelOffset_lt {level position : Nat} (h : position ≤ maxSize) :
    levelOffset (level + 1) position < 2 ^ 63 := by
  have hpow : fanout ≤ fanout ^ (level + 1) := Nat.le_self_pow (by omega) fanout
  calc
    levelOffset (level + 1) position ≤ position / fanout :=
      Nat.div_le_div_left hpow (by decide)
    _ ≤ maxSize / fanout := Nat.div_le_div_right h
    _ < 2 ^ 63 := by decide

end ContentTree

import Mathlib.Order.Bounds.Basic
import ContentTree.Proofs.Node

/-!
# The shape of a tree in machine words

The sizes, positions and numbers of a tree are words of 64 bits. Here its shape is worked out with
the operations that words have. An operation that may run over gives nothing when it does; one that
saturates stops at the largest word. They agree with the unbounded numbers of `Shape`.
-/

namespace ContentTree

namespace Word

def largest : UInt64 := UInt64.ofNat maxSize

/-- The word for a number, unless the number is too large for one. -/
def ofNat? (n : Nat) : Option UInt64 :=
  if n ≤ maxSize then some (UInt64.ofNat n) else none

def add? (a b : UInt64) : Option UInt64 := ofNat? (a.toNat + b.toNat)

def mul? (a b : UInt64) : Option UInt64 := ofNat? (a.toNat * b.toNat)

def pow? (a : UInt64) (n : Nat) : Option UInt64 := ofNat? (Nat.pow a.toNat n)

def mulSat (a b : UInt64) : UInt64 := (mul? a b).getD largest

def subSat (a b : UInt64) : UInt64 := if b ≤ a then a - b else 0

def divCeil? (a b : UInt64) : Option UInt64 := if 0 < a % b then add? (a / b) 1 else some (a / b)

/-- Rounds of the loop that looks for the depth, with the bytes covered so far. -/
def levelsAbove (size : UInt64) : Nat → UInt64 → Nat
  | 0, _ => 0
  | n + 1, covered => if covered < size then levelsAbove size n (mulSat covered 25) + 1 else 0

def treeDepth (size : UInt64) : Nat := levelsAbove size size.toNat 1024

def coverage (depth : Nat) : UInt64 := ((pow? 25 depth).bind fun n => mul? n 1024).getD largest

def leafLength (size position : UInt64) : UInt64 := min (subSat size position) 1024

def childCount? (size position : UInt64) (depth : Nat) : Option UInt64 :=
  divCeil? (min (subSat size position) (mulSat (coverage (depth - 1)) 25)) (coverage (depth - 1))

def innerLength? (children : UInt64) : Option UInt64 := do add? 24 (← mul? children 40)

/-- Length of the block of a new node. -/
def nodeLength? (size position : UInt64) (depth : Nat) : Option UInt64 :=
  if depth = 0 then some (leafLength size position)
  else do innerLength? (← childCount? size position depth)

/-- Where the child in a slot starts. -/
def childStart? (position : UInt64) (depth : Nat) (slot : UInt64) : Option UInt64 := do
  add? position (← mul? slot (coverage (depth - 1)))

/-! ### Words stand for numbers -/

/-- The operation does not run over and gives this number. -/
def Gives (w : Option UInt64) (n : Nat) : Prop := w.map UInt64.toNat = some n

variable {a b : UInt64} {n : Nat}

theorem toNat_le (a : UInt64) : a.toNat ≤ maxSize := Nat.le_pred_of_lt a.toNat_lt

theorem toNat_ofNat (h : n ≤ maxSize) : (UInt64.ofNat n).toNat = n :=
  UInt64.toNat_ofNat_of_lt' (Nat.lt_of_le_pred (by decide) h)

@[simp]
theorem toNat_largest : largest.toNat = maxSize := toNat_ofNat le_rfl

theorem gives_some (a : UInt64) : Gives (some a) a.toNat := rfl

theorem gives_ofNat? (h : n ≤ maxSize) : Gives (ofNat? n) n := by
  rw [Gives, ofNat?, if_pos h, Option.map_some, toNat_ofNat h]

theorem Gives.exists_eq_some {w : Option UInt64} (h : Gives w n) : ∃ a, w = some a ∧ a.toNat = n :=
  Option.map_eq_some_iff.1 h

theorem Gives.bind {w : Option UInt64} {f : UInt64 → Option UInt64} {m : Nat} (h : Gives w n)
    (hf : ∀ a : UInt64, a.toNat = n → Gives (f a) m) : Gives (w.bind f) m := by
  obtain ⟨a, rfl, ha⟩ := h.exists_eq_some
  exact hf a ha

theorem gives_add? (h : a.toNat + b.toNat ≤ maxSize) : Gives (add? a b) (a.toNat + b.toNat) :=
  gives_ofNat? h

theorem gives_mul? (h : a.toNat * b.toNat ≤ maxSize) : Gives (mul? a b) (a.toNat * b.toNat) :=
  gives_ofNat? h

theorem toNat_getD_ofNat? (n : Nat) : ((ofNat? n).getD largest).toNat = min n maxSize := by
  unfold ofNat?
  split
  · rename_i hle
    rw [Option.getD_some, toNat_ofNat hle, Nat.min_eq_left hle]
  · rename_i hlt
    rw [Option.getD_none, toNat_largest, Nat.min_eq_right (Nat.le_of_not_le hlt)]

theorem toNat_mulSat (a b : UInt64) : (mulSat a b).toNat = min (a.toNat * b.toNat) maxSize :=
  toNat_getD_ofNat? _

theorem toNat_subSat (a b : UInt64) : (subSat a b).toNat = a.toNat - b.toNat := by
  unfold subSat
  split
  · rename_i hle
    exact UInt64.toNat_sub_of_le _ _ hle
  · rename_i hlt
    rw [UInt64.le_iff_toNat_le] at hlt
    simp only [UInt64.toNat_zero]
    omega

theorem toNat_min (a b : UInt64) : (min a b).toNat = min a.toNat b.toNat := by
  change (if a ≤ b then a else b).toNat = min a.toNat b.toNat
  split
  · rename_i h
    rw [Nat.min_eq_left (UInt64.le_iff_toNat_le.1 h)]
  · rename_i h
    rw [UInt64.le_iff_toNat_le] at h
    rw [Nat.min_eq_right (Nat.le_of_not_le h)]

theorem gives_divCeil? (hb : 0 < b.toNat) :
    Gives (divCeil? a b) ((a.toNat + b.toNat - 1) / b.toNat) := by
  have hdivmod := Nat.div_add_mod' a.toNat b.toNat
  have hmod := Nat.mod_lt a.toNat hb
  have hmax := toNat_le a
  unfold divCeil?
  split
  · rename_i hrest
    rw [UInt64.lt_iff_toNat_lt, UInt64.toNat_mod, UInt64.toNat_zero] at hrest
    have hquot : a.toNat / b.toNat ≤ a.toNat / b.toNat * b.toNat := Nat.le_mul_of_pos_right _ hb
    have hceil : (a.toNat + b.toNat - 1) / b.toNat = (a / b).toNat + (1 : UInt64).toNat := by
      rw [UInt64.toNat_div, UInt64.toNat_one]
      refine Nat.div_eq_of_lt_le ?_ ?_
      · rw [Nat.add_mul]
        omega
      · rw [Nat.add_mul, Nat.add_mul]
        omega
    rw [hceil]
    refine gives_add? ?_
    rw [UInt64.toNat_div, UInt64.toNat_one]
    omega
  · rename_i hrest
    rw [UInt64.lt_iff_toNat_lt, UInt64.toNat_mod, UInt64.toNat_zero] at hrest
    have hceil : (a.toNat + b.toNat - 1) / b.toNat = (a / b).toNat := by
      rw [UInt64.toNat_div]
      refine Nat.div_eq_of_lt_le ?_ ?_
      · omega
      · rw [Nat.add_mul]
        omega
    rw [hceil]
    exact gives_some _

/-! ### The shape is that of unbounded numbers -/

theorem levelsAbove_of_le {size covered : Nat} (h : size ≤ covered) (fuel : Nat) :
    ContentTree.levelsAbove size fuel covered = 0 := by
  cases fuel with
  | zero => rfl
  | succ fuel => rw [ContentTree.levelsAbove, if_neg (Nat.not_lt.2 h)]

/-- The loop may stop at the largest word, for that covers every file. -/
theorem levelsAbove_eq (size covered : UInt64) (fuel : Nat) :
    levelsAbove size fuel covered = ContentTree.levelsAbove size.toNat fuel covered.toNat := by
  induction fuel generalizing covered with
  | zero => rfl
  | succ fuel ih =>
    have hnext : levelsAbove size fuel (mulSat covered 25) =
        ContentTree.levelsAbove size.toNat fuel (fanout * covered.toNat) := by
      have hmul : (mulSat covered 25).toNat = min (fanout * covered.toNat) maxSize := by
        rw [toNat_mulSat, Nat.mul_comm covered.toNat]
        rfl
      rw [ih, hmul]
      rcases Nat.le_total (fanout * covered.toNat) maxSize with hle | hge
      · rw [Nat.min_eq_left hle]
      · have hsize := toNat_le size
        rw [Nat.min_eq_right hge, levelsAbove_of_le hsize, levelsAbove_of_le (hsize.trans hge)]
    rw [levelsAbove, ContentTree.levelsAbove, hnext]
    simp only [UInt64.lt_iff_toNat_lt]

theorem treeDepth_eq (size : UInt64) : treeDepth size = ContentTree.treeDepth size.toNat :=
  levelsAbove_eq size 1024 size.toNat

theorem isLeast_treeDepth (size : UInt64) :
    IsLeast {d | size.toNat ≤ 1024 * 25 ^ d} (treeDepth size) := by
  rw [treeDepth_eq]
  exact ⟨le_span_treeDepth size.toNat, fun d hd => treeDepth_le hd⟩

theorem toNat_coverage (depth : Nat) : (coverage depth).toNat = ContentTree.coverage depth := by
  have hgrow : 12 ≤ depth → 25 ^ 12 ≤ 25 ^ depth := Nat.pow_le_pow_right (by decide)
  have hshrink : depth < 12 → 25 ^ depth ≤ 25 ^ 11 := fun h =>
    Nat.pow_le_pow_right (by decide) (Nat.le_of_lt_succ h)
  have hmax : 1024 * 25 ^ 11 ≤ maxSize ∧ maxSize < 1024 * 25 ^ 12 := by decide
  unfold coverage ContentTree.coverage
  by_cases hpow : 25 ^ depth ≤ maxSize
  · obtain ⟨w, hw, hvalue⟩ := (gives_ofNat? hpow).exists_eq_some
    have hrun : pow? 25 depth = some w := hw
    rw [hrun, Option.bind_some, mul?, toNat_getD_ofNat?, hvalue]
    change min (25 ^ depth * 1024) maxSize = if depth < 12 then 1024 * 25 ^ depth else maxSize
    split <;> omega
  · have hrun : pow? 25 depth = none := if_neg hpow
    have hlarge : ¬ depth < 12 := by omega
    rw [hrun, if_neg hlarge]
    exact toNat_largest

theorem toNat_leafLength (size position : UInt64) :
    (leafLength size position).toNat = ContentTree.leafLength size.toNat position.toNat := by
  rw [leafLength, toNat_min, toNat_subSat]
  rfl

theorem gives_childCount? (size position : UInt64) (depth : Nat) :
    Gives (childCount? size position depth)
      (ContentTree.childCount size.toNat position.toNat depth) := by
  have hcover := toNat_coverage (depth - 1)
  have hpos : 0 < (coverage (depth - 1)).toNat := by
    rw [hcover]
    exact coverage_pos _
  have hgives := @gives_divCeil? (min (subSat size position) (mulSat (coverage (depth - 1)) 25)) _ hpos
  rwa [toNat_min, toNat_subSat, toNat_mulSat, hcover, Nat.mul_comm (ContentTree.coverage _)] at hgives

theorem gives_innerLength? {children : UInt64} (h : children.toNat ≤ fanout) :
    Gives (innerLength? children) (innerLength children.toNat) := by
  have hfanout : 24 + fanout * 40 ≤ maxSize := by decide
  have htable : children.toNat * (40 : UInt64).toNat ≤ maxSize := by
    change children.toNat * 40 ≤ maxSize
    omega
  refine (gives_mul? htable).bind fun table heq => ?_
  change table.toNat = children.toNat * 40 at heq
  have hlength : innerLength children.toNat = (24 : UInt64).toNat + table.toNat := by
    rw [heq, Nat.mul_comm]
    rfl
  rw [hlength]
  refine gives_add? ?_
  change 24 + table.toNat ≤ maxSize
  omega

theorem gives_nodeLength? {size position : UInt64} {depth : Nat}
    (h : Place size.toNat depth position.toNat) :
    Gives (nodeLength? size position depth) (nodeLength size.toNat depth position.toNat) := by
  unfold nodeLength? nodeLength
  cases depth with
  | zero =>
    rw [if_pos rfl, if_pos rfl, ← toNat_leafLength]
    exact gives_some _
  | succ depth =>
    rw [if_neg (Nat.succ_ne_zero depth), if_neg (Nat.succ_ne_zero depth)]
    refine (gives_childCount? size position (depth + 1)).bind fun count heq => ?_
    rw [← heq]
    refine gives_innerLength? ?_
    rw [heq]
    exact childCount_le (toNat_le size) (h.level_lt (toNat_le size))

theorem gives_childStart? {position : UInt64} {depth slot : Nat}
    (h : position.toNat + slot * ContentTree.coverage (depth - 1) ≤ maxSize) :
    Gives (childStart? position depth (UInt64.ofNat slot))
      (position.toNat + slot * ContentTree.coverage (depth - 1)) := by
  have hcover := toNat_coverage (depth - 1)
  have hslot : (UInt64.ofNat slot).toNat = slot := by
    have hmul : slot ≤ slot * ContentTree.coverage (depth - 1) :=
      Nat.le_mul_of_pos_right _ (coverage_pos _)
    exact toNat_ofNat (by omega)
  have hoffset : (UInt64.ofNat slot).toNat * (coverage (depth - 1)).toNat =
      slot * ContentTree.coverage (depth - 1) := by rw [hslot, hcover]
  refine (gives_mul? (by omega)).bind fun offset heq => ?_
  rw [hoffset] at heq
  rw [← heq] at h ⊢
  exact gives_add? h

end Word

end ContentTree

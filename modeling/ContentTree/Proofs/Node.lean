import ContentTree.Node
import ContentTree.Proofs.Places

/-!
# Reading nodes
-/

namespace ContentTree

theorem coverage_pos (level : Nat) : 0 < coverage level := by
  unfold coverage
  split
  · exact Nat.mul_pos (by decide) (Nat.pow_pos (by decide))
  · decide

namespace Node

variable {n : Node}

def child? (n : Node) (i : Nat) : Option NodeId := (n.slots?.getD [])[i]?.join

theorem mem_childIds {c : NodeId} : c ∈ n.childIds ↔ ∃ i, n.child? i = some c := by
  rw [childIds, List.mem_filterMap]
  simp only [child?, id, exists_eq_right, List.mem_iff_getElem?, Option.join_eq_some_iff]

theorem childIds_of_slots?_eq_none (h : n.slots? = none) : n.childIds = [] := by
  simp [childIds, h]

theorem childIds_of_inner?_eq_none (h : n.inner? = none) : n.childIds = [] := by
  simp [childIds, slots?, h]

/-- Only inner nodes have slots. -/
theorem isInner_of_isSome_slots? (h : n.slots?.isSome) : n.isInner := by
  rw [slots?, Option.isSome_bind] at h
  exact Option.isSome_of_any h

theorem inner?_eq_some {i : Inner} : n.inner? = some i ↔ n.kind = .inner i := by
  cases hkind : n.kind <;> simp [inner?, hkind]

theorem inner?_eq_none : n.inner? = none ↔ n.kind = .leaf := by
  cases hkind : n.kind <;> simp [inner?, hkind]

theorem depth_of_inner {i : Inner} (h : n.inner? = some i) : n.depth = i.depth := by
  simp [depth, h]

theorem childCount_of_inner {i : Inner} (h : n.inner? = some i) : n.childCount = i.childCount := by
  simp [childCount, h]

theorem depth_of_leaf (h : n.inner? = none) : n.depth = 0 := by
  simp [depth, h]

/-- The slot of a child is found again by where the child starts. -/
theorem slotOf?_eq {slot : Nat} (hdepth : 0 < n.depth) (hslot : slot < n.childCount) :
    n.slotOf? (n.position + slot * coverage (n.depth - 1)) = some slot := by
  have hpos := coverage_pos (n.depth - 1)
  have hdiv : (n.position + slot * coverage (n.depth - 1) - n.position) / coverage (n.depth - 1) =
      slot := by
    rw [Nat.add_sub_cancel_left, Nat.mul_div_cancel _ hpos]
  simp only [slotOf?, hdiv, if_pos hslot]
  rw [if_neg (by omega)]

section New

variable (size position level : Nat) (parent : Option NodeId)

/-- What is in a new node above the leaves. -/
def newFields : Inner :=
  ⟨level, ContentTree.childCount size position level, none, 0, 0, none,
    List.replicate (ContentTree.childCount size position level) none⟩

@[simp]
theorem fileSize_new : (Node.new size position level parent).fileSize = size := by
  unfold Node.new newLeaf newInner
  split <;> rfl

@[simp]
theorem position_new : (Node.new size position level parent).position = position := by
  unfold Node.new newLeaf newInner
  split <;> rfl

@[simp]
theorem parent_new : (Node.new size position level parent).parent = parent := by
  unfold Node.new newLeaf newInner
  split <;> rfl

@[simp]
theorem status_new : (Node.new size position level parent).status = .created := by
  unfold Node.new newLeaf newInner
  split <;> rfl

@[simp]
theorem length_new :
    (Node.new size position level parent).length = nodeLength size level position := by
  unfold Node.new newLeaf newInner nodeLength
  split <;> rfl

theorem inner?_new : (Node.new size position level parent).inner? =
    if level = 0 then none else some (newFields size position level) := by
  unfold Node.new newLeaf newInner
  split <;> rfl

/-- Nothing is recorded in a new node. -/
theorem blank_of_new {n : Node} {i : Inner}
    (h : n.inner? = (Node.new size position level parent).inner?) (hi : n.inner? = some i) :
    i.table = none ∧ ∀ (slot : Nat) crc, i.childCrcs[slot]? ≠ some (some crc) := by
  rw [h, inner?_new, Option.ite_none_left_eq_some] at hi
  obtain rfl := Option.some.inj hi.2
  refine ⟨rfl, fun slot crc => ?_⟩
  rw [newFields, List.getElem?_replicate]
  split <;> simp

@[simp]
theorem depth_new : (Node.new size position level parent).depth = level := by
  rw [depth, inner?_new]
  split
  · simp_all
  · rfl

@[simp]
theorem slots?_new : (Node.new size position level parent).slots? = none := by
  rw [slots?, inner?_new]
  split <;> rfl

end New

end Node

end ContentTree

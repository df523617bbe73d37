import Mathlib.Data.List.Basic
import ContentTree.Tree

/-!
# Reading a tree after a change

Every change of a tree is known by what it does to the node of each number.
-/

namespace ContentTree

namespace Tree

variable {t t' : Tree} {id k : Nat} {n m : Node}

theorem lt_size_of_get? (h : t.get? id = some n) : id < t.nodes.size := by
  by_contra hle
  have hnone : t.nodes[id]? = none := Array.getElem?_eq_none (Nat.not_lt.1 hle)
  rw [get?, hnone] at h
  cases h

theorem get?_eq_none_of_size_le (h : t.nodes.size ≤ k) : t.get? k = none := by
  cases hget : t.get? k with
  | none => rfl
  | some n => exact absurd (lt_size_of_get? hget) (Nat.not_lt.2 h)

theorem get?_set (h : t.get? id = some m) (n : Node) (k : Nat) :
    (t.set id n).get? k = if k = id then some n else t.get? k := by
  have hlt := lt_size_of_get? h
  by_cases hk : k = id
  · subst hk
    simp [get?, set, hlt]
  · simp [get?, set, hk, Array.getElem?_setIfInBounds_ne (Ne.symm hk)]

theorem get?_erase (t : Tree) (id k : Nat) :
    (t.erase id).get? k = if k = id then none else t.get? k := by
  by_cases hk : k = id
  · subst hk
    by_cases hlt : k < t.nodes.size
    · simp [get?, erase, hlt]
    · have hnone : (t.nodes.setIfInBounds k none)[k]? = none :=
        Array.getElem?_eq_none (by simpa using Nat.not_lt.1 hlt)
      simp [get?, erase, hnone]
  · simp [get?, erase, hk, Array.getElem?_setIfInBounds_ne (Ne.symm hk)]

theorem get?_alloc (t : Tree) (n : Node) (k : Nat) :
    (t.alloc n).2.get? k = if k = t.nodes.size then some n else t.get? k := by
  simp only [get?, alloc, Array.getElem?_push]
  split <;> simp_all

theorem modify_eq_set (h : t.get? id = some n) (f : Node → Node) :
    t.modify id f = t.set id (f n) := by
  simp [modify, h]

theorem setStatus_eq_set (h : t.get? id = some n) (s : Status) :
    t.setStatus id s = t.set id { n with status := s } :=
  modify_eq_set h _

theorem set_set (t : Tree) (id : Nat) (n m : Node) : (t.set id n).set id m = t.set id m := by
  simp [set]

theorem set_comm {j : Nat} (h : id ≠ j) (t : Tree) (n m : Node) :
    (t.set id n).set j m = (t.set j m).set id n := by
  simp only [set, Array.setIfInBounds_comm _ _ h]

theorem set_of_get? (h : t.get? id = some n) : t.set id n = t := by
  have hlt := lt_size_of_get? h
  have hnodes : t.nodes.setIfInBounds id (some n) = t.nodes := by
    apply Array.ext_getElem?
    intro k
    by_cases hk : id = k
    · subst hk
      have hjoin : t.nodes[id]?.join = some n := h
      rw [Array.getElem?_setIfInBounds_self_of_lt hlt]
      rw [Array.getElem?_eq_getElem hlt] at hjoin ⊢
      rw [show t.nodes[id] = some n from hjoin]
    · rw [Array.getElem?_setIfInBounds_ne hk]
  cases t
  simpa [set] using hnodes

@[simp]
theorem size_set (t : Tree) (id : Nat) (n : Node) :
    (t.set id n).nodes.size = t.nodes.size := by
  simp [set]

@[simp]
theorem root_set (t : Tree) (id : Nat) (n : Node) : (t.set id n).root = t.root := rfl

@[simp]
theorem fileSize_set (t : Tree) (id : Nat) (n : Node) : (t.set id n).fileSize = t.fileSize := rfl

@[simp]
theorem size_erase (t : Tree) (id : Nat) : (t.erase id).nodes.size = t.nodes.size := by
  simp [erase]

/-- The two trees have the same nodes; numbers may have been spent in between. -/
structure Padded (t t' : Tree) : Prop where
  get? : ∀ k, t'.get? k = t.get? k
  root : t'.root = t.root
  fileSize : t'.fileSize = t.fileSize
  size_le : t.nodes.size ≤ t'.nodes.size

theorem Padded.refl (t : Tree) : Padded t t := ⟨fun _ => rfl, rfl, rfl, Nat.le_refl _⟩

theorem Padded.set (h : Padded t t') (hm : t.get? id = some m) (n : Node) :
    Padded (t.set id n) (t'.set id n) where
  get? k := by
    have hm' : t'.get? id = some m := (h.get? id).trans hm
    rw [get?_set hm, get?_set hm', h.get? k]
  root := h.root
  fileSize := h.fileSize
  size_le := by simpa using h.size_le

theorem Padded.setStatus (h : Padded (t.set id m) t') (hn : t.get? id = some n) (status : Status) :
    Padded (t.set id { m with status := status }) (t'.setStatus id status) := by
  have hm : (t.set id m).get? id = some m := by rw [get?_set hn, if_pos rfl]
  have hset := h.set hm { m with status := status }
  rwa [set_set, ← setStatus_eq_set ((h.get? id).trans hm)] at hset

/-! ### Fresh nodes -/

/-- The tree has these nodes besides those of `t`, under the numbers that `t` would hand out next. -/
theorem allocMany_spec (ns : List Node) (t : Tree) :
    (allocMany ns t).1 = List.range' t.nodes.size ns.length ∧
      (∀ k : Nat, (allocMany ns t).2.get? k =
        if t.nodes.size ≤ k then ns[k - t.nodes.size]? else t.get? k) ∧
      (allocMany ns t).2.root = t.root ∧ (allocMany ns t).2.fileSize = t.fileSize ∧
      (allocMany ns t).2.nodes.size = t.nodes.size + ns.length := by
  induction ns generalizing t with
  | nil =>
    refine ⟨rfl, fun k => ?_, rfl, rfl, rfl⟩
    simp only [allocMany, List.getElem?_nil]
    split
    · rename_i hle
      exact get?_eq_none_of_size_le hle
    · rfl
  | cons n ns ih =>
    have hsize : (t.alloc n).2.nodes.size = t.nodes.size + 1 := by simp [alloc]
    obtain ⟨hids, hget, hroot, hfile, hlength⟩ := ih (t.alloc n).2
    rw [hsize] at hids hget hlength
    refine ⟨?_, fun k => ?_, hroot, hfile, ?_⟩
    · have hcons : (allocMany (n :: ns) t).1 = t.nodes.size :: (allocMany ns (t.alloc n).2).1 := rfl
      rw [hcons, hids, List.length_cons, List.range'_succ]
    · have hcons : (allocMany (n :: ns) t).2 = (allocMany ns (t.alloc n).2).2 := rfl
      rw [hcons, hget k, get?_alloc]
      rcases Nat.lt_trichotomy k t.nodes.size with hlt | rfl | hgt
      · have hafter : ¬ t.nodes.size + 1 ≤ k := by omega
        rw [if_neg hafter, if_neg (Nat.ne_of_lt hlt), if_neg (Nat.not_le.2 hlt)]
      · have hafter : ¬ t.nodes.size + 1 ≤ t.nodes.size := by omega
        rw [if_neg hafter, if_pos rfl, if_pos (Nat.le_refl _), Nat.sub_self,
          List.getElem?_cons_zero]
      · have hindex : k - t.nodes.size = k - (t.nodes.size + 1) + 1 := by omega
        rw [if_pos (Nat.succ_le_of_lt hgt), if_pos (Nat.le_of_lt hgt), hindex,
          List.getElem?_cons_succ]
    · have hcons : (allocMany (n :: ns) t).2 = (allocMany ns (t.alloc n).2).2 := rfl
      rw [hcons, hlength, List.length_cons]
      omega

/-- An inner node whose children now exist. -/
def withChildren (n : Node) (i : Inner) (base : Nat) : Node :=
  n.setInner { i with
    children := some ((List.range' base i.childCount).map some)
    live := i.childCount }

theorem allocateChildren_spec {i : Inner} (h : t.get? id = some n) (hinner : n.inner? = some i)
    (hnone : i.children = none) :
    ∃ t', t.allocateChildren id = (some (List.range' t.nodes.size i.childCount), t') ∧
      (∀ k : Nat, t'.get? k =
        if k = id then some (withChildren n i t.nodes.size)
        else if t.nodes.size ≤ k ∧ k < t.nodes.size + i.childCount then
          some (newChild id n i (k - t.nodes.size))
        else t.get? k) ∧
      t'.root = t.root ∧ t'.fileSize = t.fileSize ∧
      t'.nodes.size = t.nodes.size + i.childCount := by
  have hlt := lt_size_of_get? h
  obtain ⟨hids, hget, hroot, hfile, hsize⟩ :=
    allocMany_spec ((List.range i.childCount).map (newChild id n i)) t
  rw [List.length_map, List.length_range] at hids hsize
  rcases hmade : allocMany ((List.range i.childCount).map (newChild id n i)) t with ⟨ids, made⟩
  rw [hmade] at hids hget hroot hfile hsize
  simp only at hids hget hroot hfile hsize
  subst hids
  have hself : made.get? id = some n := by rw [hget, if_neg (by omega), h]
  have hmodify : n.modifyInner (fun inner : Inner => { inner with
      children := some ((List.range' t.nodes.size i.childCount).map some)
      live := (List.range' t.nodes.size i.childCount).length }) =
        withChildren n i t.nodes.size := by
    cases hkind : n.kind with
    | leaf => simp [Node.inner?, hkind] at hinner
    | inner j =>
      obtain rfl : j = i := by simpa [Node.inner?, hkind] using hinner
      simp [Node.modifyInner, withChildren, Node.setInner, hkind]
  refine ⟨made.set id (withChildren n i t.nodes.size), ?_, fun k => ?_, hroot, hfile, ?_⟩
  · simp only [allocateChildren, h, hinner, hnone, Option.isSome_none, Bool.false_eq_true, if_false,
      hmade, modify_eq_set hself, hmodify]
  · rw [get?_set hself]
    by_cases hk : k = id
    · rw [if_pos hk, if_pos hk]
    rw [if_neg hk, if_neg hk, hget]
    by_cases hle : t.nodes.size ≤ k
    · by_cases hbound : k < t.nodes.size + i.childCount
      · have hindex : k - t.nodes.size < i.childCount := by omega
        rw [if_pos hle, if_pos ⟨hle, hbound⟩]
        simp [hindex]
      · rw [if_pos hle, if_neg (by omega), get?_eq_none_of_size_le hle]
        exact List.getElem?_eq_none (by simp; omega)
    · rw [if_neg hle, if_neg (by omega)]
  · rw [size_set, hsize]

end Tree

end ContentTree

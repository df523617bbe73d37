import ContentTree.Proofs.Tree.Sound

/-!
# Changes that keep a tree sound

New values in the nodes, new children below a node, and the end of a node, alone or with what hangs
below it.
-/

namespace ContentTree

namespace Tree

variable {t t' : Tree} {id : Nat} {n m : Node}

/-- The two trees have nodes under the same numbers, with the same places and links. -/
structure Like (t t' : Tree) : Prop where
  root : t'.root = t.root
  fileSize : t'.fileSize = t.fileSize
  back : ∀ {k : Nat} {m}, t'.get? k = some m → ∃ n, t.get? k = some n ∧ n.Like m
  forth : ∀ {k : Nat} {n}, t.get? k = some n → ∃ m, t'.get? k = some m ∧ n.Like m

theorem Padded.like (h : Padded t t') : Like t t' where
  root := h.root
  fileSize := h.fileSize
  back {k m} hm := ⟨m, (h.get? k).symm.trans hm, .refl m⟩
  forth {k n} hn := ⟨n, (h.get? k).trans hn, .refl n⟩

theorem like_set (hn : t.get? id = some n) (h : n.Like m) : Like t (t.set id m) where
  root := rfl
  fileSize := rfl
  back {k b} hb := by
    rw [get?_set hn] at hb
    split at hb
    · rename_i hk
      subst hk
      obtain rfl := Option.some.inj hb
      exact ⟨n, hn, h⟩
    · exact ⟨b, hb, .refl b⟩
  forth {k b} hb := by
    by_cases hk : k = id
    · subst hk
      obtain rfl := Option.some.inj (hn.symm.trans hb)
      exact ⟨m, by rw [get?_set hn, if_pos rfl], h⟩
    · exact ⟨b, by rw [get?_set hn, if_neg hk, hb], .refl b⟩

theorem Sound.of_like (h : t.Sound) (hlike : Like t t') : t'.Sound where
  fileSize_le := hlike.fileSize ▸ h.fileSize_le
  shaped hm := by
    obtain ⟨n, hn, hnm⟩ := hlike.back hm
    rw [hlike.fileSize]
    exact hnm.shaped (h.shaped hn)
  down {id m i c} hm hc := by
    obtain ⟨n, hn, hnm⟩ := hlike.back hm
    rw [hnm.child?] at hc
    obtain ⟨b, hb, hparent, hdepth, hposition⟩ := h.down hn hc
    obtain ⟨b', hb', hbb⟩ := hlike.forth hb
    refine ⟨b', hb', hbb.parent.trans hparent, ?_, ?_⟩
    · rw [hbb.depth, hnm.depth, hdepth]
    · rw [hbb.position, hnm.position, hbb.depth, hposition]
  up {id m p} hm hp := by
    obtain ⟨n, hn, hnm⟩ := hlike.back hm
    obtain ⟨q, i, hq, hi⟩ := h.up hn (hnm.parent.symm.trans hp)
    obtain ⟨q', hq', hqq⟩ := hlike.forth hq
    exact ⟨q', i, hq', (hqq.child? i).trans hi⟩
  root_iff hm := by
    obtain ⟨n, hn, hnm⟩ := hlike.back hm
    rw [hnm.parent, hlike.root]
    exact h.root_iff hn
  rooted {id} hroot := by
    rw [hlike.root] at hroot
    obtain ⟨n, hn, hdepth, hposition⟩ := h.rooted hroot
    obtain ⟨m, hm, hnm⟩ := hlike.forth hn
    exact ⟨m, hm, by rw [hnm.depth, hdepth, hlike.fileSize], hnm.position.trans hposition⟩

/-! ### New children -/

theorem depth_withChildren {i : Inner} (hi : n.inner? = some i) (base : Nat) :
    (withChildren n i base).depth = n.depth := by
  rw [Node.depth_of_inner hi]
  rfl

/-- The tree has children below `id` that it had not before. -/
structure Unfolded (t : Tree) (id : Nat) (n n' : Node) (i : Inner) (child : Nat → Node) (t' : Tree) :
    Prop where
  get? : ∀ k : Nat, t'.get? k =
    if k = id then some n'
    else if t.nodes.size ≤ k ∧ k < t.nodes.size + i.childCount then some (child (k - t.nodes.size))
    else t.get? k
  root : t'.root = t.root
  fileSize : t'.fileSize = t.fileSize
  size : t'.nodes.size = t.nodes.size + i.childCount
  slots : n'.slots? = some ((List.range' t.nodes.size i.childCount).map some)
  shaped : n'.Shaped t.fileSize
  parent : n'.parent = n.parent
  position : n'.position = n.position
  depth : n'.depth = n.depth
  child_like : ∀ j < i.childCount, Node.Like
    (Node.new t.fileSize (n.position + j * coverage (n.depth - 1)) (n.depth - 1) (some id)) (child j)

section Unfolded

variable {n' : Node} {i : Inner} {child : Nat → Node} {k j : Nat} {b : Node}

theorem Unfolded.child? (h : Unfolded t id n n' i child t') {c : Nat} :
    n'.child? j = some c ↔ j < i.childCount ∧ c = t.nodes.size + j := by
  rw [Node.child?, h.slots, Option.getD_some, List.getElem?_map]
  by_cases hj : j < i.childCount
  · rw [List.getElem?_eq_getElem (by simpa using hj)]
    simp [hj, eq_comm]
  · rw [List.getElem?_eq_none (by simpa using hj)]
    simp [hj]

theorem Unfolded.get?_self (h : Unfolded t id n n' i child t') : t'.get? id = some n' := by
  rw [h.get?, if_pos rfl]

theorem Unfolded.get?_of_old (h : Unfolded t id n n' i child t') (hb : t.get? k = some b)
    (hne : k ≠ id) : t'.get? k = some b := by
  have hlt := lt_size_of_get? hb
  rw [h.get?, if_neg hne, if_neg (by omega), hb]

theorem Unfolded.get?_child (h : Unfolded t id n n' i child t') (hn : t.get? id = some n)
    (hj : j < i.childCount) : t'.get? (t.nodes.size + j) = some (child j) := by
  have hlt := lt_size_of_get? hn
  have hbounds : t.nodes.size ≤ t.nodes.size + j ∧
      t.nodes.size + j < t.nodes.size + i.childCount := by omega
  rw [h.get?, if_neg (by omega), if_pos hbounds, Nat.add_sub_cancel_left]

/-- A node of the new tree is the unfolded one, one of its children, or an old one. -/
theorem Unfolded.back (h : Unfolded t id n n' i child t') (hb : t'.get? k = some b) :
    (k = id ∧ b = n') ∨ (∃ j < i.childCount, k = t.nodes.size + j ∧ b = child j) ∨
      (k ≠ id ∧ t.get? k = some b) := by
  rw [h.get?] at hb
  split at hb
  · rename_i hk
    exact Or.inl ⟨hk, (Option.some.inj hb).symm⟩
  · rename_i hk
    split at hb
    · rename_i hbounds
      exact Or.inr (Or.inl ⟨k - t.nodes.size, by omega, by omega, (Option.some.inj hb).symm⟩)
    · exact Or.inr (Or.inr ⟨hk, hb⟩)

/-- An old node stays where it is. -/
theorem Unfolded.forth (h : Unfolded t id n n' i child t') (hn : t.get? id = some n)
    (hb : t.get? k = some b) : ∃ b', t'.get? k = some b' ∧ b'.parent = b.parent ∧
      b'.depth = b.depth ∧ b'.position = b.position := by
  by_cases hk : k = id
  · subst hk
    obtain rfl := Option.some.inj (hn.symm.trans hb)
    exact ⟨n', h.get?_self, h.parent, h.depth, h.position⟩
  · exact ⟨b, h.get?_of_old hb hk, rfl, rfl, rfl⟩

theorem Unfolded.parent_child (h : Unfolded t id n n' i child t') (hj : j < i.childCount) :
    (child j).parent = some id := by
  rw [(h.child_like j hj).parent, Node.parent_new]

theorem Unfolded.depth_child (h : Unfolded t id n n' i child t') (hj : j < i.childCount) :
    (child j).depth = n.depth - 1 := by
  rw [(h.child_like j hj).depth, Node.depth_new]

theorem Unfolded.position_child (h : Unfolded t id n n' i child t') (hj : j < i.childCount) :
    (child j).position = n.position + j * coverage (n.depth - 1) := by
  rw [(h.child_like j hj).position, Node.position_new]

theorem Unfolded.shaped_child (h : Unfolded t id n n' i child t') (hsize : t.fileSize ≤ maxSize)
    (hshape : n.Shaped t.fileSize) (hi : n.inner? = some i) (hj : j < i.childCount) :
    (child j).Shaped t.fileSize := by
  obtain ⟨hpos, hcount, -⟩ := hshape.inner i hi
  have hplace := hshape.place
  rw [← Node.depth_of_inner hi] at hpos hcount
  obtain ⟨level, hlevel⟩ : ∃ level, n.depth = level + 1 := ⟨n.depth - 1, by omega⟩
  rw [hlevel] at hcount hplace
  refine (h.child_like j hj).shaped (Node.shaped_new ?_)
  rw [hlevel, Nat.add_sub_cancel, coverage_eq_span (hplace.level_lt hsize)]
  exact hplace.child hsize (hcount ▸ hj)

theorem Sound.unfolded (h : t.Sound) (hn : t.get? id = some n) (hi : n.inner? = some i)
    (hnone : i.children = none) (hunfold : Unfolded t id n n' i child t') : t'.Sound := by
  have hpos : 0 < n.depth := (h.shaped hn).isSome_inner?.1 (by rw [hi]; rfl)
  constructor
  case fileSize_le => exact hunfold.fileSize ▸ h.fileSize_le
  case shaped =>
    intro k b hb
    rw [hunfold.fileSize]
    rcases hunfold.back hb with ⟨rfl, rfl⟩ | ⟨j, hj, rfl, rfl⟩ | ⟨-, hb⟩
    · exact hunfold.shaped
    · exact hunfold.shaped_child h.fileSize_le (h.shaped hn) hi hj
    · exact h.shaped hb
  case down =>
    intro k b j c hb hc
    rcases hunfold.back hb with ⟨rfl, rfl⟩ | ⟨j', hj', rfl, rfl⟩ | ⟨-, hb⟩
    · obtain ⟨hj, rfl⟩ := hunfold.child?.1 hc
      have hdepth := hunfold.depth_child hj
      refine ⟨child j, hunfold.get?_child hn hj, hunfold.parent_child hj, ?_, ?_⟩
      · rw [hdepth, hunfold.depth]
        omega
      · rw [hunfold.position_child hj, hunfold.position, hdepth]
    · -- The new children have none of their own.
      rw [(hunfold.child_like j' hj').child?, Node.child?, Node.slots?_new] at hc
      simp at hc
    · obtain ⟨x, hx, hxparent, hxdepth, hxposition⟩ := h.down hb hc
      obtain ⟨x', hx', hparent, hdepth, hposition⟩ := hunfold.forth hn hx
      refine ⟨x', hx', hparent.trans hxparent, ?_, ?_⟩
      · rw [hdepth, hxdepth]
      · rw [hposition, hdepth, hxposition]
  case up =>
    intro k b p hb hp
    -- Slots of old nodes stay, since the unfolded one had none.
    have hkeep : ∀ q (x : Node), t.get? q = some x → ∀ j, x.child? j = some k →
        ∃ m i, t'.get? q = some m ∧ m.child? i = some k := by
      intro q x hx j hj
      have hne : q ≠ id := by
        rintro rfl
        obtain rfl := Option.some.inj (hn.symm.trans hx)
        simp [Node.child?, Node.slots?, hi, hnone] at hj
      exact ⟨x, j, hunfold.get?_of_old hx hne, hj⟩
    rcases hunfold.back hb with ⟨rfl, rfl⟩ | ⟨j, hj, rfl, rfl⟩ | ⟨-, hb⟩
    · obtain ⟨x, j, hx, hj⟩ := h.up hn (hunfold.parent.symm.trans hp)
      exact hkeep p x hx j hj
    · rw [hunfold.parent_child hj] at hp
      obtain rfl := Option.some.inj hp
      exact ⟨n', j, hunfold.get?_self, hunfold.child?.2 ⟨hj, rfl⟩⟩
    · obtain ⟨x, j, hx, hj⟩ := h.up hb hp
      exact hkeep p x hx j hj
  case root_iff =>
    intro k b hb
    rw [hunfold.root]
    rcases hunfold.back hb with ⟨rfl, rfl⟩ | ⟨j, hj, rfl, rfl⟩ | ⟨-, hb⟩
    · rw [hunfold.parent]
      exact h.root_iff hn
    · rw [hunfold.parent_child hj]
      refine ⟨fun hnone => absurd hnone (Option.some_ne_none _), fun heq => ?_⟩
      have hlt := h.root_lt _ heq
      omega
    · exact h.root_iff hb
  case rooted =>
    intro r hr
    rw [hunfold.root] at hr
    obtain ⟨b, hb, hbdepth, hbposition⟩ := h.rooted hr
    obtain ⟨b', hb', -, hdepth, hposition⟩ := hunfold.forth hn hb
    rw [hunfold.fileSize]
    exact ⟨b', hb', hdepth.trans hbdepth, hposition.trans hbposition⟩

end Unfolded

/-! ### The end of a node -/

section WithoutChild

variable {size i : Nat} {c : NodeId}

theorem inner?_withoutChild (m : Node) (i : Nat) :
    (withoutChild m i).inner? = m.inner?.map fun x =>
      { x with children := x.children.map (·.set i none), live := x.live - 1 } := by
  cases hkind : m.kind <;> simp [withoutChild, Node.modifyInner, Node.inner?, hkind]

theorem slots?_withoutChild (m : Node) (i : Nat) :
    (withoutChild m i).slots? = m.slots?.map (·.set i none) := by
  rw [Node.slots?, Node.slots?, inner?_withoutChild]
  cases m.inner? <;> rfl

theorem child?_withoutChild (m : Node) (i j : Nat) :
    (withoutChild m i).child? j = if j = i then none else m.child? j := by
  rw [Node.child?, Node.child?, slots?_withoutChild]
  cases m.slots? with
  | none => simp
  | some slots =>
    simp only [Option.map_some, Option.getD_some, List.getElem?_set]
    by_cases hj : j = i
    · subst hj
      by_cases hlt : j < slots.length <;> simp [hlt]
    · simp [hj, Ne.symm hj]

@[simp]
theorem depth_withoutChild (m : Node) (i : Nat) : (withoutChild m i).depth = m.depth := by
  cases hkind : m.kind <;> simp [withoutChild, Node.modifyInner, Node.depth, Node.inner?, hkind]

@[simp]
theorem parent_withoutChild (m : Node) (i : Nat) : (withoutChild m i).parent = m.parent := by
  cases hkind : m.kind <;> simp [withoutChild, Node.modifyInner, hkind]

@[simp]
theorem position_withoutChild (m : Node) (i : Nat) : (withoutChild m i).position = m.position := by
  cases hkind : m.kind <;> simp [withoutChild, Node.modifyInner, hkind]

@[simp]
theorem status_withoutChild (m : Node) (i : Nat) : (withoutChild m i).status = m.status := by
  cases hkind : m.kind <;> simp [withoutChild, Node.modifyInner, hkind]

@[simp]
theorem chk_withoutChild (m : Node) (i : Nat) : (withoutChild m i).chk = m.chk := by
  cases hkind : m.kind <;> simp [withoutChild, Node.modifyInner, hkind]

theorem shaped_withoutChild (h : m.Shaped size) (hc : m.child? i = some c) :
    (withoutChild m i).Shaped size := by
  have hdepth := depth_withoutChild m i
  have hposition := position_withoutChild m i
  have hkeep : (withoutChild m i).fileSize = m.fileSize ∧ (withoutChild m i).length = m.length := by
    cases hkind : m.kind <;> simp [withoutChild, Node.modifyInner, hkind]
  refine ⟨hkeep.1.trans h.fileSize, ?_, ?_, ?_⟩
  · rw [hdepth, hposition]
    exact h.place
  · rw [hkeep.2, hdepth, hposition]
    exact h.length
  · intro inner hinner
    obtain ⟨x, hx, rfl⟩ := Option.map_eq_some_iff.1 (inner?_withoutChild m i ▸ hinner)
    obtain ⟨hpos, hcount, hcrcs, hlive, hslots⟩ := h.inner x hx
    rw [hposition]
    refine ⟨hpos, hcount, hcrcs, ?_, fun slots hsome => ?_⟩
    · cases hold : x.children with
      | none => simp [Node.child?, Node.slots?, hx, hold] at hc
      | some old =>
        have hjoin : old[i]?.join = some c := by
          simpa [Node.child?, Node.slots?, hx, hold] using hc
        rw [Option.join_eq_some_iff, List.getElem?_eq_some_iff] at hjoin
        obtain ⟨hlt, hget⟩ := hjoin
        simp only [Option.map_some, Option.getD_some]
        rw [List.countP_set hlt, hget, hlive, hold]
        simp
    · obtain ⟨old, hold, rfl⟩ := Option.map_eq_some_iff.1 hsome
      rw [List.length_set, hslots old hold]

end WithoutChild

def pruned (t : Tree) (id : NodeId) (n : Node) : Tree :=
  match n.parent with
  | none => t.cleared id
  | some p => ((t.cleared id).detach p n.position).2

/-- What a parent is told of a node that has gone, in a tree that has the parent still. -/
theorem Sound.detach_of_kept {u : Tree} {p i : Nat} (h : t.Sound) (hn : t.get? id = some n)
    (hm : t.get? p = some m) (hi : m.child? i = some id) (hkept : u.get? p = some m) :
    u.detach p n.position = (decide ((withoutChild m i).childIds = [] ∧ m.status ≠ .persistent),
      u.set p (withoutChild m i)) := by
  have hshape := h.shaped hm
  obtain ⟨inner, hinner⟩ : ∃ inner, m.inner? = some inner :=
    Option.isSome_iff_exists.1 (hshape.isSome_inner?.2 (hshape.lt_childCount hi).1)
  have hinner' : (withoutChild m i).inner? =
      some { inner with children := inner.children.map (·.set i none), live := inner.live - 1 } := by
    rw [inner?_withoutChild, hinner]
    rfl
  have hlive : inner.live - 1 = 0 ↔ (withoutChild m i).childIds = [] :=
    (shaped_withoutChild hshape hi).live_eq_zero hinner'
  rw [detach_eq hkept hinner (h.slotOf? hm hi hn) hi]
  simp only [hlive]

/-- How the parent of a node is found and left when the node goes away. -/
theorem Sound.detach (h : t.Sound) (hn : t.get? id = some n) {p : Nat} (hp : n.parent = some p) :
    ∃ m i, t.get? p = some m ∧ m.child? i = some id ∧ p ≠ id ∧
      t.pruned id n = (t.cleared id).set p (withoutChild m i) ∧
      (t.cleared id).get? p = some m ∧
      ((t.cleared id).detach p n.position).1 =
        decide ((withoutChild m i).childIds = [] ∧ m.status ≠ .persistent) := by
  obtain ⟨m, i, hm, hi, -⟩ := h.parent hn hp
  have hne := h.parent_ne_self hn hp
  have hkept : (t.cleared id).get? p = some m := by rw [get?_cleared, if_neg hne, hm]
  have hdetach := h.detach_of_kept hn hm hi hkept
  refine ⟨m, i, hm, hi, hne, ?_, hkept, ?_⟩
  · simp only [pruned, hp, hdetach]
  · rw [hdetach]

/-- The tree once the parent of a node, if there is one, is told that the node has gone. -/
def unlinked (t : Tree) (n : Node) : Tree :=
  match n.parent with
  | none => t
  | some p => (t.detach p n.position).2

/-- The parent has lost its slot for the node, and all else is as it was. -/
structure Unlinked (t : Tree) (id : Nat) (n : Node) (t' : Tree) : Prop where
  back : ∀ {k : Nat} {b}, t'.get? k = some b → ∃ a, t.get? k = some a ∧
    (b = a ∧ n.parent ≠ some k ∨ n.parent = some k ∧ ∃ i, a.child? i = some id ∧ b = withoutChild a i)
  forth : ∀ {k : Nat} {a}, t.get? k = some a → ∃ b, t'.get? k = some b
  root : t'.root = t.root
  fileSize : t'.fileSize = t.fileSize
  size : t'.nodes.size = t.nodes.size

theorem Sound.unlinked {u : Tree} (h : t.Sound) (hn : t.get? id = some n)
    (hkept : ∀ {p m}, n.parent = some p → t.get? p = some m → u.get? p = some m) :
    Unlinked u id n (u.unlinked n) := by
  cases hp : n.parent with
  | none =>
    have hsame : u.unlinked n = u := by simp only [Tree.unlinked, hp]
    rw [hsame]
    exact ⟨fun {k b} hb => ⟨b, hb, .inl ⟨rfl, by simp [hp]⟩⟩, fun {k a} ha => ⟨a, ha⟩, rfl, rfl, rfl⟩
  | some p =>
    obtain ⟨m, i, hm, hi, -⟩ := h.parent hn hp
    have hu := hkept hp hm
    have hset : u.unlinked n = u.set p (withoutChild m i) := by
      simp only [Tree.unlinked, hp, h.detach_of_kept hn hm hi hu]
    rw [hset]
    refine ⟨fun {k b} hb => ?_, fun {k a} ha => ?_, rfl, rfl, size_set ..⟩
    · rw [get?_set hu] at hb
      split at hb
      · rename_i hk
        subst hk
        obtain rfl := Option.some.inj hb
        exact ⟨m, hu, .inr ⟨hp, i, hi, rfl⟩⟩
      · rename_i hk
        exact ⟨b, hb, .inl ⟨rfl, by simp [hp, Ne.symm hk]⟩⟩
    · rw [get?_set hu]
      split
      · exact ⟨_, rfl⟩
      · exact ⟨a, ha⟩

/-- What is left when a node without children goes away: the others, its parent without the slot
that led to it. -/
structure Pruned (t : Tree) (id : Nat) (n : Node) (t' : Tree) : Prop where
  gone : t'.get? id = none
  back : ∀ {k : Nat} {b}, t'.get? k = some b → k ≠ id ∧ ∃ a, t.get? k = some a ∧
    (b = a ∧ n.parent ≠ some k ∨ n.parent = some k ∧ ∃ i, a.child? i = some id ∧ b = withoutChild a i)
  forth : ∀ {k : Nat} {a}, t.get? k = some a → k ≠ id → ∃ b, t'.get? k = some b
  root : t'.root = if t.root = some id then none else t.root
  fileSize : t'.fileSize = t.fileSize

theorem Sound.pruned (h : t.Sound) (hn : t.get? id = some n) : Pruned t id n (t.pruned id n) := by
  have hlink : Unlinked (t.cleared id) id n (t.pruned id n) := h.unlinked hn fun hp hm => by
    rw [get?_cleared, if_neg (h.parent_ne_self hn hp), hm]
  have hback : ∀ {k : Nat} {b}, (t.pruned id n).get? k = some b → k ≠ id ∧ ∃ a, t.get? k = some a ∧
      (b = a ∧ n.parent ≠ some k ∨
        n.parent = some k ∧ ∃ i, a.child? i = some id ∧ b = withoutChild a i) := by
    intro k b hb
    obtain ⟨a, ha, hcase⟩ := hlink.back hb
    rw [get?_cleared, Option.ite_none_left_eq_some] at ha
    exact ⟨ha.1, a, ha.2, hcase⟩
  refine ⟨?_, hback, fun {k a} ha hne => ?_, ?_, ?_⟩
  · exact Option.eq_none_iff_forall_not_mem.2 fun b hb => (hback hb).1 rfl
  · exact hlink.forth (by rw [get?_cleared, if_neg hne, ha])
  · rw [hlink.root, root_cleared]
  · rw [hlink.fileSize, fileSize_cleared]

/-- What is left when a node goes away with all that hangs below it: the others, its parent without
the slot that led to it. `gone` are the nodes that go. -/
structure Cut (t : Tree) (id : Nat) (n : Node) (gone : Nat → Prop) (t' : Tree) : Prop where
  self : gone id
  hang : ∀ {k : Nat} {a}, t.get? k = some a → k ≠ id → (gone k ↔ ∃ p, a.parent = some p ∧ gone p)
  back : ∀ {k : Nat} {b}, t'.get? k = some b → ¬ gone k ∧ ∃ a, t.get? k = some a ∧
    (b = a ∧ n.parent ≠ some k ∨ n.parent = some k ∧ ∃ i, a.child? i = some id ∧ b = withoutChild a i)
  forth : ∀ {k : Nat} {a}, t.get? k = some a → ¬ gone k → ∃ b, t'.get? k = some b
  root : t'.root = if t.root = some id then none else t.root
  fileSize : t'.fileSize = t.fileSize

/-- All that changes in a node that stays is that its slot for `id` is empty. -/
theorem Sound.back_of_cut {gone : Nat → Prop} (h : t.Sound) (hn : t.get? id = some n)
    (hcut : Cut t id n gone t') {k : Nat} {b : Node} (hb : t'.get? k = some b) :
    ¬ gone k ∧ ∃ a, t.get? k = some a ∧ b.Shaped t.fileSize ∧ b.depth = a.depth ∧
      b.position = a.position ∧ b.parent = a.parent ∧
      ∀ j c, b.child? j = some c ↔ a.child? j = some c ∧ c ≠ id := by
  obtain ⟨hk, a, ha, hcase⟩ := hcut.back hb
  refine ⟨hk, a, ha, ?_⟩
  rcases hcase with ⟨rfl, hnot⟩ | ⟨-, i, hi, rfl⟩
  · refine ⟨h.shaped ha, rfl, rfl, rfl, fun j c => ⟨fun hc => ⟨hc, ?_⟩, And.left⟩⟩
    rintro rfl
    obtain ⟨x, hx, hparent, -⟩ := h.down ha hc
    obtain rfl := Option.some.inj (hx.symm.trans hn)
    exact hnot hparent
  · refine ⟨shaped_withoutChild (h.shaped ha) hi, depth_withoutChild a i,
      position_withoutChild a i, parent_withoutChild a i, fun j c => ?_⟩
    rw [child?_withoutChild]
    by_cases hj : j = i
    · subst hj
      rw [if_pos rfl, hi]
      simp only [reduceCtorEq, Option.some.injEq, false_iff, not_and, not_not]
      exact Eq.symm
    · rw [if_neg hj]
      refine ⟨fun hc => ⟨hc, ?_⟩, And.left⟩
      rintro rfl
      exact hj (h.slot_inj ha hc hi)

theorem Sound.of_cut {gone : Nat → Prop} (h : t.Sound) (hn : t.get? id = some n)
    (hcut : Cut t id n gone t') : t'.Sound := by
  have hkept : ∀ {k : Nat}, ¬ gone k → k ≠ id := by
    rintro k hk rfl
    exact hk hcut.self
  have hparent : ∀ {k : Nat} {a : Node} {p : Nat}, t.get? k = some a → ¬ gone k →
      a.parent = some p → ¬ gone p := fun ha hk hp hgone =>
    hk ((hcut.hang ha (hkept hk)).2 ⟨_, hp, hgone⟩)
  constructor
  case fileSize_le => exact hcut.fileSize ▸ h.fileSize_le
  case shaped =>
    intro k b hb
    obtain ⟨-, a, -, hshape, -⟩ := h.back_of_cut hn hcut hb
    exact hcut.fileSize ▸ hshape
  case down =>
    intro k b j c hb hc
    obtain ⟨hk, a, ha, -, hdepth, hposition, -, hchild⟩ := h.back_of_cut hn hcut hb
    obtain ⟨hc, hne⟩ := (hchild j c).1 hc
    obtain ⟨x, hx, hxparent, hxdepth, hxposition⟩ := h.down ha hc
    have hstays : ¬ gone c := by
      rw [hcut.hang hx hne]
      rintro ⟨p, hp, hgone⟩
      obtain rfl := Option.some.inj (hp.symm.trans hxparent)
      exact hk hgone
    obtain ⟨y, hy⟩ := hcut.forth hx hstays
    obtain ⟨-, x', hx', -, hydepth, hyposition, hyparent, -⟩ := h.back_of_cut hn hcut hy
    obtain rfl := Option.some.inj (hx.symm.trans hx')
    refine ⟨y, hy, hyparent.trans hxparent, ?_, ?_⟩
    · rw [hydepth, hdepth, hxdepth]
    · rw [hyposition, hposition, hydepth, hxposition]
  case up =>
    intro k b p hb hp
    obtain ⟨hk, a, ha, -, -, -, hsameparent, -⟩ := h.back_of_cut hn hcut hb
    rw [hsameparent] at hp
    obtain ⟨q, i, hq, hi⟩ := h.up ha hp
    obtain ⟨q', hq'⟩ := hcut.forth hq (hparent ha hk hp)
    obtain ⟨-, q'', hq'', -, -, -, -, hchild⟩ := h.back_of_cut hn hcut hq'
    obtain rfl := Option.some.inj (hq.symm.trans hq'')
    exact ⟨q', i, hq', (hchild i k).2 ⟨hi, hkept hk⟩⟩
  case root_iff =>
    intro k b hb
    obtain ⟨hk, a, ha, -, -, -, hsameparent, -⟩ := h.back_of_cut hn hcut hb
    rw [hsameparent, h.root_iff ha, hcut.root]
    split
    · rename_i hroot
      rw [hroot]
      simp [Ne.symm (hkept hk)]
    · rfl
  case rooted =>
    intro r hr
    rw [hcut.root] at hr
    split at hr
    · cases hr
    · rename_i hroot
      obtain ⟨a, ha, hadepth, haposition⟩ := h.rooted hr
      have hne : r ≠ id := by
        rintro rfl
        exact hroot hr
      have hstays : ¬ gone r := by
        rw [hcut.hang ha hne]
        rintro ⟨p, hp, -⟩
        rw [(h.root_iff ha).2 hr] at hp
        cases hp
      obtain ⟨b, hb⟩ := hcut.forth ha hstays
      obtain ⟨-, a', ha', -, hdepth, hposition, -⟩ := h.back_of_cut hn hcut hb
      obtain rfl := Option.some.inj (ha.symm.trans ha')
      refine ⟨b, hb, ?_, hposition.trans haposition⟩
      rw [hdepth, hadepth, hcut.fileSize]

theorem Sound.of_pruned (h : t.Sound) (hn : t.get? id = some n) (hchildless : n.childIds = [])
    (hpruned : Pruned t id n t') : t'.Sound := by
  refine @Sound.of_cut t t' id n (· = id) h hn ⟨rfl, fun {k a} ha hne => ?_, hpruned.back, hpruned.forth,
    hpruned.root, hpruned.fileSize⟩
  refine iff_of_false hne ?_
  rintro ⟨p, hp, rfl⟩
  obtain ⟨m, i, hm, hi⟩ := h.up ha hp
  obtain rfl := Option.some.inj (hm.symm.trans hn)
  have hmem := Node.mem_childIds.2 ⟨i, hi⟩
  rw [hchildless] at hmem
  cases hmem

/-! ### The first node -/

theorem sound_new {size : Nat} (hsize : size ≤ maxSize) : (Tree.new size).Sound := by
  have honly : ∀ {k : Nat} {n : Node}, (Tree.new size).get? k = some n →
      k = 0 ∧ n = Node.new size 0 (treeDepth size) none := by
    intro k n hn
    cases k with
    | zero => exact ⟨rfl, (Option.some.inj hn).symm⟩
    | succ k => cases hn
  constructor
  case fileSize_le => exact hsize
  case shaped =>
    intro k n hn
    obtain ⟨-, rfl⟩ := honly hn
    exact Node.shaped_new (place_root size)
  case down =>
    intro k n i c hn hc
    obtain ⟨-, rfl⟩ := honly hn
    simp [Node.child?] at hc
  case up =>
    intro k n p hn hp
    obtain ⟨-, rfl⟩ := honly hn
    simp at hp
  case root_iff =>
    intro k n hn
    obtain ⟨rfl, rfl⟩ := honly hn
    simp [Tree.new]
  case rooted =>
    intro k hk
    obtain rfl : 0 = k := Option.some.inj hk
    exact ⟨_, rfl, Node.depth_new .., Node.position_new ..⟩

end Tree

end ContentTree

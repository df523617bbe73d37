import ContentTree.Proofs.Tree.Freeing

/-!
# Sound trees

In a sound tree every node has the sizes that belong to its place, slots lead to nodes one level
down that lead back, and only the root has no parent. A place has at most one node, and above a node
there is one at every level.
-/

namespace ContentTree

/-- The node has the sizes that belong to its place in a file of `size` bytes. -/
structure Node.Shaped (size : Nat) (n : Node) : Prop where
  fileSize : n.fileSize = size
  place : Place size n.depth n.position
  length : n.length = nodeLength size n.depth n.position
  inner : ∀ i, n.inner? = some i → 0 < i.depth ∧
    i.childCount = ContentTree.childCount size n.position i.depth ∧
    i.childCrcs.length = i.childCount ∧ i.live = (i.children.getD []).countP Option.isSome ∧
    ∀ slots, i.children = some slots → slots.length = i.childCount

namespace Node

variable {size : Nat} {n m : Node}

theorem shaped_new {position level : Nat} {parent : Option NodeId} (h : Place size level position) :
    (Node.new size position level parent).Shaped size where
  fileSize := fileSize_new ..
  place := by simpa using h
  length := by simp
  inner i hi := by
    rw [inner?_new] at hi
    split at hi
    · cases hi
    · obtain rfl := Option.some.inj hi
      refine ⟨?_, ?_, ?_, ?_, ?_⟩
      · simp only [newFields]
        omega
      · simp [newFields]
      · simp [newFields]
      · rfl
      · intro slots hslots
        cases hslots

theorem Shaped.isSome_inner? (h : n.Shaped size) : n.inner?.isSome ↔ 0 < n.depth := by
  cases hinner : n.inner? with
  | none => simp [depth_of_leaf hinner]
  | some i => simp [depth_of_inner hinner, (h.inner i hinner).1]

theorem Shaped.inner?_eq_none (h : n.Shaped size) : n.inner? = none ↔ n.depth = 0 := by
  have hiff := h.isSome_inner?
  cases hinner : n.inner? <;> simp [hinner] at hiff ⊢ <;> omega

theorem Shaped.childCount_eq (h : n.Shaped size) {i : Inner} (hi : n.inner? = some i) :
    n.childCount = ContentTree.childCount size n.position n.depth := by
  rw [childCount_of_inner hi, depth_of_inner hi, (h.inner i hi).2.1]

theorem Shaped.lt_childCount (h : n.Shaped size) {slot : Nat} {c : NodeId}
    (hc : n.child? slot = some c) : 0 < n.depth ∧ slot < n.childCount := by
  cases hinner : n.inner? with
  | none => simp [child?, slots?, hinner] at hc
  | some i =>
    cases hslots : i.children with
    | none => simp [child?, slots?, hinner, hslots] at hc
    | some slots =>
      obtain ⟨hdepth, -, -, -, hlength⟩ := h.inner i hinner
      have hget : slots[slot]?.join = some c := by
        simpa [child?, slots?, hinner, hslots] using hc
      rw [Option.join_eq_some_iff, List.getElem?_eq_some_iff] at hget
      obtain ⟨hlt, -⟩ := hget
      rw [hlength slots hslots] at hlt
      rw [depth_of_inner hinner, childCount_of_inner hinner]
      exact ⟨hdepth, hlt⟩

theorem filterMap_range_join {α : Type} (slots : List (Option α)) :
    (List.range slots.length).filterMap (fun i => slots[i]?.join) = slots.filterMap id := by
  induction slots with
  | nil => rfl
  | cons slot slots ih =>
    rw [List.length_cons, List.range_succ_eq_map, List.filterMap_cons, List.filterMap_map]
    cases slot <;> simp [ih]

/-- The live children, slot by slot. -/
theorem Shaped.childIds_eq (h : n.Shaped size) :
    n.childIds = (List.range n.childCount).filterMap n.child? := by
  unfold childIds child?
  cases hslots : n.slots? with
  | none => simp
  | some slots =>
    obtain ⟨i, hi, hchildren⟩ := Option.bind_eq_some_iff.1 hslots
    obtain ⟨-, -, -, -, hlength⟩ := h.inner i hi
    rw [Option.getD_some, childCount_of_inner hi, ← hlength slots hchildren]
    exact (filterMap_range_join slots).symm

/-- No slot is in use just if no child is live. -/
theorem Shaped.live_eq_zero (h : n.Shaped size) {i : Inner} (hi : n.inner? = some i) :
    i.live = 0 ↔ n.childIds = [] := by
  have hchildren : n.slots? = i.children := by simp [slots?, hi]
  rw [(h.inner i hi).2.2.2.1, ← hchildren, childIds, List.countP_eq_zero, List.filterMap_eq_nil_iff]
  refine forall₂_congr fun x _ => ?_
  cases x <;> simp

/-- The two nodes are at one place, with the same links. -/
structure Like (n m : Node) : Prop where
  fileSize : m.fileSize = n.fileSize
  position : m.position = n.position
  length : m.length = n.length
  parent : m.parent = n.parent
  inner : ∀ j, m.inner? = some j → ∃ i, n.inner? = some i ∧ j.depth = i.depth ∧
    j.childCount = i.childCount ∧ j.children = i.children ∧ j.live = i.live ∧
    j.childCrcs.length = i.childCrcs.length
  leaf : m.inner? = none → n.inner? = none

theorem Like.refl (n : Node) : n.Like n :=
  ⟨rfl, rfl, rfl, rfl, fun j hj => ⟨j, hj, rfl, rfl, rfl, rfl, rfl⟩, id⟩

theorem Like.trans {b : Node} (h : n.Like m) (h' : m.Like b) : n.Like b where
  fileSize := h'.fileSize.trans h.fileSize
  position := h'.position.trans h.position
  length := h'.length.trans h.length
  parent := h'.parent.trans h.parent
  inner j hj := by
    obtain ⟨i, hi, hdepth, hcount, hchildren, hlive, hcrcs⟩ := h'.inner j hj
    obtain ⟨k, hk, hdepth', hcount', hchildren', hlive', hcrcs'⟩ := h.inner i hi
    exact ⟨k, hk, hdepth.trans hdepth', hcount.trans hcount', hchildren.trans hchildren',
      hlive.trans hlive', hcrcs.trans hcrcs'⟩
  leaf hleaf := h.leaf (h'.leaf hleaf)

/-- What is held and known of a node is no part of its place or its links. -/
theorem Like.of_kind (hsize : m.fileSize = n.fileSize) (hposition : m.position = n.position)
    (hlength : m.length = n.length) (hparent : m.parent = n.parent) (hkind : m.kind = n.kind) :
    n.Like m := by
  have hinner : m.inner? = n.inner? := by rw [inner?, inner?, hkind]
  refine ⟨hsize, hposition, hlength, hparent, fun j hj => ?_, fun hleaf => hinner ▸ hleaf⟩
  exact ⟨j, hinner ▸ hj, rfl, rfl, rfl, rfl, rfl⟩

theorem like_data (n : Node) (data : Option Block) : n.Like { n with data := data } :=
  .of_kind rfl rfl rfl rfl rfl

theorem like_setInner {i j : Inner} (hi : n.inner? = some i) (hdepth : j.depth = i.depth)
    (hcount : j.childCount = i.childCount) (hchildren : j.children = i.children)
    (hlive : j.live = i.live) (hcrcs : j.childCrcs.length = i.childCrcs.length) :
    n.Like (n.setInner j) := by
  refine ⟨rfl, rfl, rfl, rfl, fun k hk => ?_, fun hnone => absurd hnone (Option.some_ne_none _)⟩
  obtain rfl := Option.some.inj hk
  exact ⟨i, hi, hdepth, hcount, hchildren, hlive, hcrcs⟩

theorem like_modifyInner (n : Node) {f : Inner → Inner} (hdepth : ∀ i, (f i).depth = i.depth)
    (hcount : ∀ i, (f i).childCount = i.childCount)
    (hchildren : ∀ i, (f i).children = i.children) (hlive : ∀ i, (f i).live = i.live)
    (hcrcs : ∀ i, (f i).childCrcs.length = i.childCrcs.length) : n.Like (n.modifyInner f) := by
  cases hkind : n.kind with
  | leaf =>
    simp only [modifyInner, hkind]
    exact .refl n
  | inner i =>
    simp only [modifyInner, hkind]
    exact like_setInner (inner?_eq_some.2 hkind) (hdepth i) (hcount i) (hchildren i) (hlive i)
      (hcrcs i)

theorem like_setTable (n : Node) (table : InnerBlock) : n.Like (n.setTable table) :=
  like_modifyInner n (fun _ => rfl) (fun _ => rfl) (fun _ => rfl) (fun _ => rfl) fun _ => rfl

theorem Like.depth (h : n.Like m) : m.depth = n.depth := by
  cases hm : m.inner? with
  | none => rw [depth_of_leaf hm, depth_of_leaf (h.leaf hm)]
  | some j =>
    obtain ⟨i, hi, hdepth, -⟩ := h.inner j hm
    rw [depth_of_inner hm, depth_of_inner hi, hdepth]

theorem Like.slots? (h : n.Like m) : m.slots? = n.slots? := by
  cases hm : m.inner? with
  | none => simp [Node.slots?, hm, h.leaf hm]
  | some j =>
    obtain ⟨i, hi, -, -, hchildren, -⟩ := h.inner j hm
    simp [Node.slots?, hm, hi, hchildren]

theorem Like.child? (h : n.Like m) (i : Nat) : m.child? i = n.child? i := by
  rw [Node.child?, Node.child?, h.slots?]

theorem Like.childIds (h : n.Like m) : m.childIds = n.childIds := by
  rw [Node.childIds, Node.childIds, h.slots?]

theorem Like.shaped (h : n.Like m) (hn : n.Shaped size) : m.Shaped size where
  fileSize := h.fileSize.trans hn.fileSize
  place := by
    rw [h.depth, h.position]
    exact hn.place
  length := by
    rw [h.length, h.depth, h.position]
    exact hn.length
  inner j hj := by
    obtain ⟨i, hi, hdepth, hcount, hchildren, hlive, hcrcs⟩ := h.inner j hj
    obtain ⟨hpos, hplaces, hrecorded, hslots⟩ := hn.inner i hi
    rw [hdepth, hcount, hchildren, hlive, hcrcs, h.position]
    exact ⟨hpos, hplaces, hrecorded, hslots⟩

end Node

namespace Tree

variable {t t' : Tree} {id k : Nat} {n m : Node}

structure Sound (t : Tree) : Prop where
  fileSize_le : t.fileSize ≤ maxSize
  shaped : ∀ {id : Nat} {n}, t.get? id = some n → n.Shaped t.fileSize
  down : ∀ {id : Nat} {n i c}, t.get? id = some n → n.child? i = some c →
    ∃ m, t.get? c = some m ∧ m.parent = some id ∧ m.depth + 1 = n.depth ∧
      m.position = n.position + i * coverage m.depth
  up : ∀ {id : Nat} {n} {p : Nat}, t.get? id = some n → n.parent = some p →
    ∃ m i, t.get? p = some m ∧ m.child? i = some id
  root_iff : ∀ {id : Nat} {n}, t.get? id = some n → (n.parent = none ↔ t.root = some id)
  rooted : ∀ {id : Nat}, t.root = some id →
    ∃ n, t.get? id = some n ∧ n.depth = treeDepth t.fileSize ∧ n.position = 0

theorem Sound.root_lt (h : t.Sound) : ∀ r : Nat, t.root = some r → r < t.nodes.size := by
  intro r hr
  obtain ⟨n, hn, -⟩ := h.rooted hr
  exact lt_size_of_get? hn

theorem Sound.descends (h : t.Sound) : t.Descends := by
  intro k n c m hn hc hm
  obtain ⟨i, hi⟩ := Node.mem_childIds.1 hc
  obtain ⟨m', hm', -, hdepth, -⟩ := h.down hn hi
  obtain rfl := Option.some.inj (hm.symm.trans hm')
  omega

theorem Sound.parent (h : t.Sound) (hn : t.get? id = some n) {p : Nat} (hp : n.parent = some p) :
    ∃ m i, t.get? p = some m ∧ m.child? i = some id ∧ n.depth + 1 = m.depth ∧
      n.position = m.position + i * coverage n.depth ∧ i < m.childCount := by
  obtain ⟨m, i, hm, hi⟩ := h.up hn hp
  obtain ⟨n', hn', -, hdepth, hposition⟩ := h.down hm hi
  obtain rfl := Option.some.inj (hn.symm.trans hn')
  exact ⟨m, i, hm, hi, hdepth, hposition, ((h.shaped hm).lt_childCount hi).2⟩

theorem Sound.parent_ne_self (h : t.Sound) (hn : t.get? id = some n) {p : Nat}
    (hp : n.parent = some p) : p ≠ id := by
  obtain ⟨m, -, hm, -, hdepth, -⟩ := h.parent hn hp
  rintro rfl
  obtain rfl := Option.some.inj (hm.symm.trans hn)
  omega

/-- The slot of the parent that leads to a node is found by where the node starts. -/
theorem Sound.slotOf? (h : t.Sound) (hm : t.get? id = some m) {i : Nat} {c : Nat}
    (hc : m.child? i = some c) (hn : t.get? c = some n) : m.slotOf? n.position = some i := by
  obtain ⟨n', hn', -, hdepth, hposition⟩ := h.down hm hc
  obtain rfl := Option.some.inj (hn.symm.trans hn')
  obtain ⟨hpos, hlt⟩ := (h.shaped hm).lt_childCount hc
  rw [hposition, show n.depth = m.depth - 1 by omega]
  exact Node.slotOf?_eq hpos hlt

theorem Sound.slot_inj (h : t.Sound) (hm : t.get? id = some m) {i j : Nat} {c : NodeId}
    (hi : m.child? i = some c) (hj : m.child? j = some c) : i = j := by
  obtain ⟨n, hn, -⟩ := h.down hm hi
  exact Option.some.inj ((h.slotOf? hm hi hn).symm.trans (h.slotOf? hm hj hn))

theorem Sound.covers_parent (h : t.Sound) (hn : t.get? id = some n) {p : Nat}
    (hp : n.parent = some p) (hm : t.get? p = some m) {below start : Nat}
    (hcovers : Covers n.depth n.position below start) : Covers m.depth m.position below start := by
  obtain ⟨m', i, hm', -, hdepth, hposition, hlt⟩ := h.parent hn hp
  obtain rfl := Option.some.inj (hm.symm.trans hm')
  have hplace := (h.shaped hm).place
  rw [← hdepth] at hplace ⊢
  have hlevel := hplace.level_lt h.fileSize_le
  obtain ⟨inner, hinner⟩ : ∃ inner, m.inner? = some inner :=
    Option.isSome_iff_exists.1 ((h.shaped hm).isSome_inner?.2 (by omega))
  rw [(h.shaped hm).childCount_eq hinner, ← hdepth] at hlt
  rw [hposition, coverage_eq_span hlevel] at hcovers
  exact hcovers.of_child ((lt_childCount_iff h.fileSize_le hlevel).1 hlt).1

/-- Above a node there is one at every level, with children unless it is the node itself. -/
theorem Sound.ancestor (h : t.Sound) (hn : t.get? id = some n) {level : Nat} (hlow : n.depth ≤ level)
    (hhigh : level ≤ treeDepth t.fileSize) :
    ∃ (a : Nat) (b : Node), t.get? a = some b ∧ b.depth = level ∧ (a = id ∨ b.childIds ≠ []) ∧
      ∀ below start, Covers n.depth n.position below start →
        Covers b.depth b.position below start := by
  induction hgap : level - n.depth generalizing id n with
  | zero =>
    exact ⟨id, n, hn, by omega, Or.inl rfl, fun _ _ h => h⟩
  | succ gap ih =>
    cases hparent : n.parent with
    | none =>
      obtain ⟨m, hm, hdepth, -⟩ := h.rooted ((h.root_iff hn).1 hparent)
      obtain rfl := Option.some.inj (hn.symm.trans hm)
      omega
    | some p =>
      obtain ⟨m, i, hm, hi, hdepth, -, -⟩ := h.parent hn hparent
      obtain ⟨a, b, hb, hlevel, hchildren, hcovers⟩ := ih hm (by omega) (by omega)
      refine ⟨a, b, hb, hlevel, Or.inr ?_, fun below start hbelow =>
        hcovers below start (h.covers_parent hn hparent hm hbelow)⟩
      rcases hchildren with rfl | hchildren
      · obtain rfl := Option.some.inj (hb.symm.trans hm)
        exact List.ne_nil_of_mem (Node.mem_childIds.2 ⟨i, hi⟩)
      · exact hchildren

theorem Sound.unique (h : t.Sound) (hn : t.get? id = some n) (hm : t.get? k = some m)
    (hdepth : n.depth = m.depth) (hposition : n.position = m.position) : id = k := by
  induction hgap : treeDepth t.fileSize - n.depth generalizing id k n m with
  | zero =>
    have hroot : ∀ {j : Nat} {b : Node}, t.get? j = some b → b.depth = n.depth →
        t.root = some j := by
      intro j b hb heq
      rw [← h.root_iff hb]
      by_contra hne
      obtain ⟨p, hp⟩ := Option.ne_none_iff_exists'.1 hne
      obtain ⟨q, i, hq, -, hup, -, -⟩ := h.parent hb hp
      have hle := (h.shaped hq).place.level_le
      omega
    exact Option.some.inj ((hroot hn rfl).symm.trans (hroot hm hdepth.symm))
  | succ gap ih =>
    have hparent : ∀ {j : Nat} {b : Node}, t.get? j = some b → b.depth = n.depth →
        ∃ p, b.parent = some p := by
      intro j b hb heq
      cases hnone : b.parent with
      | some p => exact ⟨p, rfl⟩
      | none =>
        obtain ⟨b', hb', hroot, -⟩ := h.rooted ((h.root_iff hb).1 hnone)
        obtain rfl := Option.some.inj (hb.symm.trans hb')
        omega
    obtain ⟨p, hp⟩ := hparent hn rfl
    obtain ⟨q, hq⟩ := hparent hm hdepth.symm
    obtain ⟨b, i, hb, hi, hbdepth, hbposition, -⟩ := h.parent hn hp
    obtain ⟨c, j, hc, hj, hcdepth, hcposition, -⟩ := h.parent hm hq
    have hbcovers := h.covers_parent hn hp hb (covers_self n.depth n.position)
    have hccovers := h.covers_parent hm hq hc (covers_self m.depth m.position)
    have hup : b.depth = c.depth := by omega
    rw [← hup, ← hdepth, ← hposition] at hccovers
    have hbdvd := (h.shaped hb).place.dvd
    have hcdvd := (h.shaped hc).place.dvd
    rw [← hup] at hcdvd
    have hsame := Covers.unique hbdvd hcdvd hbcovers hccovers
    obtain rfl := ih hb hc hup hsame (by omega)
    obtain rfl := Option.some.inj (hb.symm.trans hc)
    have hslots : i = j := by
      have hcoverage := coverage_pos n.depth
      rw [← hdepth, ← hposition, hbposition] at hcposition
      exact Nat.eq_of_mul_eq_mul_right hcoverage (Nat.add_left_cancel hcposition)
    subst hslots
    exact Option.some.inj (hi.symm.trans hj)

theorem Sound.empty (h : t.Sound) (hroot : t.root = none) (id : Nat) : t.get? id = none := by
  cases hn : t.get? id with
  | none => rfl
  | some n =>
    have hle := (h.shaped hn).place.level_le
    obtain ⟨a, b, hb, hdepth, -⟩ := h.ancestor hn hle (Nat.le_refl _)
    cases hparent : b.parent with
    | none =>
      rw [(h.root_iff hb).1 hparent] at hroot
      cases hroot
    | some p =>
      obtain ⟨m, i, hm, -, hup, -, -⟩ := h.parent hb hparent
      have hmle := (h.shaped hm).place.level_le
      omega

end Tree

end ContentTree

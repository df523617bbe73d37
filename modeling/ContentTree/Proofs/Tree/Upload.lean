import ContentTree.Proofs.Merkle
import ContentTree.Proofs.Runs
import ContentTree.Proofs.Tree.Freeing
import ContentTree.Tree.Upload

/-!
# Walks bottom up

A walk over a fresh node that ends well leaves the block, the pair and the table that belong to the
leaves on disk, has read each leaf below in full, and has sent the messages of the subtree in order.
It fails only if a leaf cannot be read or a message is not accepted, and whatever it leaves behind
then hangs below the node it started from.
-/

namespace ContentTree

/-- The leaves of a file of `size` bytes as far as they can be read. -/
def Storage.source (s : Storage) (d : Disk) (size : Nat) : Source where
  size := size
  leaf position :=
    match s.read d 0 position (leafLength size position) with
    | .ok bs => bs
    | .error _ => []

/-- A leaf can be read in full. -/
def Storage.HasLeaf (s : Storage) (d : Disk) (size position : Nat) : Prop :=
  ∃ bs, s.read d 0 position (leafLength size position) = .ok bs ∧
    bs.length = leafLength size position

theorem Storage.HasLeaf.read {s : Storage} {d : Disk} {size position : Nat}
    (h : s.HasLeaf d size position) :
    s.read d 0 position (leafLength size position) = .ok ((s.source d size).leaf position) ∧
      ((s.source d size).leaf position).length = leafLength size position := by
  obtain ⟨bs, hread, hlength⟩ := h
  have hleaf : (s.source d size).leaf position = bs := by simp [source, hread]
  rw [hleaf]
  exact ⟨hread, hlength⟩

theorem Storage.readBlock_eq_ok {s : Storage} {d : Disk} {level position n : Nat} {data : Block}
    (h : s.readBlock d level position n = .ok data) :
    ∃ bs, s.read d level position n = .ok bs ∧ bs.length = n ∧ data = fit 1024 bs := by
  unfold readBlock at h
  split at h
  · cases h
  · split at h
    · rename_i bs hread hlength
      exact ⟨bs, hread, hlength, (Except.ok.inj h).symm⟩
    · cases h

theorem Storage.read_of_readBlock {s : Storage} {d : Disk} {level position n : Nat} {data : Block}
    (h : s.readBlock d level position n = .ok data) (hn : n ≤ 1024) :
    s.read d level position n = .ok (data.toList.take n) := by
  obtain ⟨bs, hbs, rfl, rfl⟩ := readBlock_eq_ok h
  rw [hbs, take_toList_fit hn]

theorem Storage.readBlock_of_read {s : Storage} {d : Disk} {level position n : Nat} {bs : Bytes}
    (h : s.read d level position n = .ok bs) (hlength : bs.length = n) :
    s.readBlock d level position n = .ok (fit 1024 bs) := by
  unfold readBlock
  rw [h]
  exact if_pos hlength

theorem Storage.readBlock_of_hasLeaf {s : Storage} {d : Disk} {size position : Nat}
    (h : s.HasLeaf d size position) :
    s.readBlock d 0 position (leafLength size position) =
      .ok (fit 1024 ((s.source d size).leaf position)) :=
  readBlock_of_read h.read.1 h.read.2

namespace Upload

/-- What a walk leaves at a place. -/
def walked (s : Suite) (src : Source) (parent : Option NodeId) : Nat → Nat → Node
  | 0, position =>
    { Node.new src.size position 0 parent with
      data := some (src.block s 0 position)
      chk := src.chk s 0 position }
  | level + 1, position =>
    { Node.new src.size position (level + 1) parent with
      data := some (src.block s (level + 1) position)
      chk := src.chk s (level + 1) position
      status := .persistent
      kind := .inner
        { Node.newFields src.size position (level + 1) with
          children := some (List.replicate (childCount src.size position (level + 1)) none)
          crc := (src.table s level position).crc
          table := some (src.table s level position) } }

section Walked

variable (s : Suite) (src : Source) (parent : Option NodeId) (level position : Nat)

@[simp]
theorem parent_walked : (walked s src parent level position).parent = parent := by
  cases level <;> exact Node.parent_new _ _ _ _

@[simp]
theorem position_walked : (walked s src parent level position).position = position := by
  cases level <;> exact Node.position_new _ _ _ _

@[simp]
theorem chk_walked : (walked s src parent level position).chk = src.chk s level position := by
  cases level <;> rfl

@[simp]
theorem data_walked :
    (walked s src parent level position).data = some (src.block s level position) := by
  cases level <;> rfl

@[simp]
theorem depth_walked : (walked s src parent level position).depth = level := by
  cases level with
  | zero => exact Node.depth_new src.size position 0 parent
  | succ level => rfl

@[simp]
theorem childIds_walked : (walked s src parent level position).childIds = [] := by
  cases level with
  | zero => exact Node.childIds_of_slots?_eq_none (Node.slots?_new src.size position 0 parent)
  | succ level => simp [walked, Node.childIds, Node.slots?, Node.inner?]

theorem payload_walked : (walked s src parent level position).payload = src.payload s level position := by
  have hlength : (walked s src parent level position).length = nodeLength src.size level position := by
    cases level <;> exact Node.length_new _ _ _ _
  simp [Node.payload, Node.payload?, hlength, Source.payload]

end Walked

/-- What a walk that started from the node `id` may have left behind, whether it failed or not. -/
structure Grown (id depth : Nat) (parent : Option NodeId) (t t' : Tree) : Prop where
  root : t'.root = t.root
  fileSize : t'.fileSize = t.fileSize
  size_le : t.nodes.size ≤ t'.nodes.size
  old : ∀ k : Nat, k < t.nodes.size → k ≠ id → t'.get? k = t.get? k
  node : ∃ n, t'.get? id = some n ∧ n.parent = parent ∧ n.depth = depth
  /-- New nodes hang below `id`. -/
  hang : ∀ (k : Nat) m, t.nodes.size ≤ k → t'.get? k = some m → m.depth < depth ∧
    ∃ (p : Nat) (q : Node), (p = id ∨ t.nodes.size ≤ p) ∧ t'.get? p = some q ∧ k ∈ q.childIds ∧
      m.depth < q.depth
  /-- And below `id` there is nothing else. -/
  links : ∀ (p : Nat) q, (p = id ∨ t.nodes.size ≤ p) → t'.get? p = some q → ∀ c ∈ q.childIds,
    t.nodes.size ≤ c ∧ ∀ m, t'.get? c = some m → m.depth < q.depth

theorem grown_of_padded {id depth : Nat} {parent : Option NodeId} {t t' : Tree} {n m : Node}
    (hm : t.get? id = some m) (h : Tree.Padded (t.set id n) t') (hparent : n.parent = parent)
    (hdepth : n.depth = depth) (hchildless : n.childIds = []) : Grown id depth parent t t' := by
  have hget : ∀ k, t'.get? k = if k = id then some n else t.get? k := fun k => by
    rw [h.get? k, Tree.get?_set hm]
  have hnew : ∀ k : Nat, t.nodes.size ≤ k → t'.get? k = none := by
    intro k hk
    have hlt := Tree.lt_size_of_get? hm
    have hne : k ≠ id := by omega
    rw [hget, if_neg hne, Tree.get?_eq_none_of_size_le hk]
  refine ⟨h.root, h.fileSize, by simpa using h.size_le, fun k _ hne => ?_, ?_, ?_, ?_⟩
  · rw [hget, if_neg hne]
  · exact ⟨n, by rw [hget, if_pos rfl], hparent, hdepth⟩
  · intro k b hk hb
    rw [hnew k hk] at hb
    cases hb
  · intro p q hp hq c hc
    rcases hp with rfl | hp
    · rw [hget, if_pos rfl] at hq
      obtain rfl := Option.some.inj hq
      rw [hchildless] at hc
      cases hc
    · rw [hnew p hp] at hq
      cases hq

theorem Grown.of_set {id depth : Nat} {parent : Option NodeId} {t t' : Tree} {n m : Node}
    (hm : t.get? id = some m) (h : Grown id depth parent (t.set id n) t') :
    Grown id depth parent t t' := by
  have hsize := Tree.size_set t id n
  refine ⟨h.root, h.fileSize, hsize ▸ h.size_le, fun k hk hne => ?_, h.node, ?_, ?_⟩
  · rw [h.old k (by omega) hne, Tree.get?_set hm, if_neg hne]
  · simpa only [hsize] using h.hang
  · simpa only [hsize] using h.links

/-! ### The children of a node, one after the other -/

section Stage

variable (size position level : Nat) (parent : Option NodeId) (base : Nat)

/-- A fresh inner node that is being walked. -/
def openedNode : Node := { Node.new size position (level + 1) parent with status := .persistent }

/-- A node of which the first `k` children have been walked and freed. -/
def stageNode (k : Nat) : Node :=
  { Node.new size position (level + 1) parent with
    status := .persistent
    kind := .inner
      { Node.newFields size position (level + 1) with
        children := some (List.replicate k none ++
          (List.range' (base + k) (childCount size position (level + 1) - k)).map some)
        live := childCount size position (level + 1) - k } }

/-- The tree while the children of `id` are walked, with `k` of them done. -/
structure Stage (id : Nat) (t : Tree) (k : Nat) (t' : Tree) : Prop where
  get? : ∀ j : Nat, t'.get? j =
    if j = id then some (stageNode size position level parent t.nodes.size k)
    else if t.nodes.size + k ≤ j ∧ j < t.nodes.size + childCount size position (level + 1) then
      some (Node.new size (position + (j - t.nodes.size) * coverage level) level (some id))
    else t.get? j
  root : t'.root = t.root
  fileSize : t'.fileSize = t.fileSize
  size_le : t.nodes.size + childCount size position (level + 1) ≤ t'.nodes.size

variable {size position level parent base}

theorem depth_stageNode (k : Nat) :
    (stageNode size position level parent base k).depth = level + 1 := rfl

theorem mem_childIds_stageNode {k c : Nat}
    (h : k ≤ childCount size position (level + 1)) :
    c ∈ (stageNode size position level parent base k).childIds ↔
      base + k ≤ c ∧ c < base + childCount size position (level + 1) := by
  have hslots : (stageNode size position level parent base k).childIds =
      List.range' (base + k) (childCount size position (level + 1) - k) := by
    simp [stageNode, Node.childIds, Node.slots?, Node.inner?, List.filterMap_append,
      List.filterMap_map]
  rw [hslots, List.mem_range'_1]
  omega

theorem slotOf?_stageNode {k : Nat} (hk : k < childCount size position (level + 1)) :
    (stageNode size position level parent base k).slotOf? (position + k * coverage level) =
      some k := by
  have hstart : (stageNode size position level parent base k).position = position :=
    Node.position_new size position (level + 1) parent
  have hslot := Node.slotOf?_eq (n := stageNode size position level parent base k)
    (Nat.succ_pos level) hk
  rwa [hstart, depth_stageNode, Nat.add_sub_cancel] at hslot

theorem child?_stageNode {k : Nat} (hk : k < childCount size position (level + 1)) :
    (stageNode size position level parent base k).child? k = some (base + k) := by
  have hrest : 0 < childCount size position (level + 1) - k := by omega
  simp [stageNode, Node.child?, Node.slots?, Node.inner?, hrest]

theorem withoutChild_stageNode {k : Nat} (hk : k < childCount size position (level + 1)) :
    Tree.withoutChild (stageNode size position level parent base k) k =
      stageNode size position level parent base (k + 1) := by
  obtain ⟨rest, hrest⟩ : ∃ rest, childCount size position (level + 1) = k + 1 + rest :=
    Nat.exists_eq_add_of_lt hk |>.imp fun r hr => by omega
  have hleft : childCount size position (level + 1) - k = rest + 1 := by omega
  have hright : childCount size position (level + 1) - (k + 1) = rest := by omega
  have hlist : ((List.replicate k none ++
      (List.range' (base + k) (rest + 1)).map some).set k none : List (Option NodeId)) =
      List.replicate (k + 1) none ++ (List.range' (base + (k + 1)) rest).map some := by
    rw [List.range'_succ, List.map_cons, List.set_append_right _ _ (by simp), List.length_replicate,
      Nat.sub_self, List.set_cons_zero, List.replicate_succ', List.append_assoc]
    rfl
  simp only [Tree.withoutChild, stageNode, Node.modifyInner, hleft, hright, Option.map_some,
    hlist, Nat.add_sub_cancel]

theorem Stage.get?_self {id k : Nat} {t t' : Tree}
    (h : Stage size position level parent id t k t') :
    t'.get? id = some (stageNode size position level parent t.nodes.size k) := by
  rw [h.get?, if_pos rfl]

/-- The child that is walked next is still as it was made. -/
theorem Stage.get?_child {id k : Nat} {t t' : Tree} {n : Node} (hn : t.get? id = some n)
    (h : Stage size position level parent id t k t')
    (hk : k < childCount size position (level + 1)) :
    t'.get? (t.nodes.size + k) =
      some (Node.new size (position + k * coverage level) level (some id)) := by
  have hid := Tree.lt_size_of_get? hn
  have hne : t.nodes.size + k ≠ id := by omega
  have hbounds : t.nodes.size + k ≤ t.nodes.size + k ∧
      t.nodes.size + k < t.nodes.size + childCount size position (level + 1) := by omega
  rw [h.get?, if_neg hne, if_pos hbounds, Nat.add_sub_cancel_left]

/-- What the walk of a child leaves behind when it fails hangs below the parent. -/
theorem Stage.grown {id k : Nat} {t t' t'' : Tree} {n : Node} (hn : t.get? id = some n)
    (h : Stage size position level parent id t k t')
    (hk : k < childCount size position (level + 1))
    (hgrown : Grown (t.nodes.size + k) level (some id) t' t'') :
    Grown id (level + 1) parent t t'' := by
  have hid := Tree.lt_size_of_get? hn
  have hsize := h.size_le
  have hle : k ≤ childCount size position (level + 1) := Nat.le_of_lt hk
  have hself : t''.get? id = some (stageNode size position level parent t.nodes.size k) := by
    rw [hgrown.old id (by omega) (by omega), h.get?_self]
  have hwaiting : ∀ (j : Nat) m, t.nodes.size ≤ j → j < t'.nodes.size → j ≠ t.nodes.size + k →
      t''.get? j = some m → m.depth = level ∧ m.childIds = [] ∧ t.nodes.size + k ≤ j ∧
        j < t.nodes.size + childCount size position (level + 1) := by
    intro j m hj hlt hne hm
    rw [hgrown.old j hlt hne, h.get? j, if_neg (by omega)] at hm
    split at hm
    · rename_i hbounds
      obtain rfl := Option.some.inj hm
      exact ⟨Node.depth_new _ _ _ _, Node.childIds_of_slots?_eq_none (Node.slots?_new _ _ _ _),
        hbounds⟩
    · rw [Tree.get?_eq_none_of_size_le hj] at hm
      cases hm
  obtain ⟨child, hchild, -, hchilddepth⟩ := hgrown.node
  have hpending : t.nodes.size + k ∈
      (stageNode size position level parent t.nodes.size k).childIds :=
    (mem_childIds_stageNode hle).2 ⟨Nat.le_refl _, by omega⟩
  constructor
  case root => exact hgrown.root.trans h.root
  case fileSize => exact hgrown.fileSize.trans h.fileSize
  case size_le => exact Nat.le_trans (by omega) hgrown.size_le
  case old =>
    intro j hj hne
    rw [hgrown.old j (by omega) (by omega), h.get? j, if_neg hne, if_neg (by omega)]
  case node => exact ⟨_, hself, Node.parent_new _ _ _ _, rfl⟩
  case hang =>
    intro j m hj hm
    rcases Nat.lt_or_ge j t'.nodes.size with hlt | hge
    · by_cases hne : j = t.nodes.size + k
      · subst hne
        obtain rfl := Option.some.inj (hm.symm.trans hchild)
        exact ⟨by omega, id, _, Or.inl rfl, hself, hpending, by rw [depth_stageNode]; omega⟩
      · obtain ⟨hdepth, -, hbounds⟩ := hwaiting j m hj hlt hne hm
        exact ⟨by omega, id, _, Or.inl rfl, hself, (mem_childIds_stageNode hle).2 hbounds,
          by rw [depth_stageNode]; omega⟩
    · obtain ⟨hdepth, p, q, hp, hq, hmem, hlower⟩ := hgrown.hang j m hge hm
      exact ⟨by omega, p, q, Or.inr (by omega), hq, hmem, hlower⟩
  case links =>
    intro p q hp hq c hc
    by_cases hself' : p = id
    · subst hself'
      obtain rfl := Option.some.inj (hq.symm.trans hself)
      obtain ⟨hlow, hhigh⟩ := (mem_childIds_stageNode hle).1 hc
      refine ⟨by omega, fun m hm => ?_⟩
      rw [depth_stageNode]
      by_cases hne : c = t.nodes.size + k
      · subst hne
        obtain rfl := Option.some.inj (hm.symm.trans hchild)
        omega
      · have hdepth := (hwaiting c m (by omega) (by omega) hne hm).1
        omega
    · have hp := hp.resolve_left hself'
      by_cases hlt : p < t'.nodes.size ∧ p ≠ t.nodes.size + k
      · have hnone := (hwaiting p q hp hlt.1 hlt.2 hq).2.1
        rw [hnone] at hc
        cases hc
      · obtain ⟨hnew, hlower⟩ := hgrown.links p q (by omega) hq c hc
        exact ⟨by omega, hlower⟩

theorem stage_zero {id : Nat} {t : Tree}
    (hid : t.get? id = some (openedNode size position level parent)) :
    ∃ t', t.allocateChildren id =
        (some (List.range' t.nodes.size (childCount size position (level + 1))), t') ∧
      Stage size position level parent id t 0 t' := by
  have hinner : (openedNode size position level parent).inner? =
      some (Node.newFields size position (level + 1)) :=
    Node.inner?_new size position (level + 1) parent
  obtain ⟨t', hrun, hget, hroot, hfile, hsize⟩ := Tree.allocateChildren_spec hid hinner rfl
  refine ⟨t', hrun, fun j => ?_, hroot, hfile, Nat.le_of_eq hsize.symm⟩
  rw [hget j]
  congr 1

/-- What is left once all children are done. -/
theorem Stage.padded {id : Nat} {t t' : Tree} {n : Node} (hn : t.get? id = some n) (w : Node)
    (h : Stage size position level parent id t (childCount size position (level + 1)) t') :
    Tree.Padded (t.set id w) (t'.set id w) where
  get? j := by
    rw [Tree.get?_set h.get?_self, Tree.get?_set hn]
    split
    · rfl
    · rename_i hne
      rw [h.get?, if_neg hne, if_neg (by omega)]
  root := h.root
  fileSize := h.fileSize
  size_le := by
    have hsize := h.size_le
    rw [Tree.size_set, Tree.size_set]
    omega

/-- With all children done there is nothing below the node. -/
theorem Stage.grown_last {id : Nat} {t t' : Tree} {n : Node} (hn : t.get? id = some n)
    (h : Stage size position level parent id t (childCount size position (level + 1)) t') :
    Grown id (level + 1) parent t t' := by
  have hpadded := h.padded hn (stageNode size position level parent t.nodes.size
    (childCount size position (level + 1)))
  rw [Tree.set_of_get? h.get?_self] at hpadded
  refine grown_of_padded hn hpadded (Node.parent_new _ _ _ _) rfl ?_
  refine List.eq_nil_iff_forall_not_mem.2 fun c hc => ?_
  have hbounds := (mem_childIds_stageNode (Nat.le_refl _)).1 hc
  omega

theorem Stage.free {id k : Nat} {t t' t'' : Tree} {n w : Node} (hn : t.get? id = some n)
    (hroot : ∀ r : Nat, t.root = some r → r < t.nodes.size)
    (h : Stage size position level parent id t k t')
    (hk : k < childCount size position (level + 1))
    (hpadded : Tree.Padded (t'.set (t.nodes.size + k) w) t'') (hparent : w.parent = some id)
    (hposition : w.position = position + k * coverage level) (hchildless : w.childIds = []) :
    Stage size position level parent id t (k + 1) (t''.free (t.nodes.size + k)).2 := by
  have hid := Tree.lt_size_of_get? hn
  have hchild := h.get?_child hn hk
  have hget : ∀ j : Nat, t''.get? j = if j = t.nodes.size + k then some w else t'.get? j :=
    fun j => by rw [hpadded.get?, Tree.get?_set hchild]
  have hnotroot : t''.root ≠ some (t.nodes.size + k) := by
    intro heq
    have hlt := hroot _ (h.root.symm.trans (hpadded.root.symm.trans heq))
    omega
  have hclearedroot : (t''.cleared (t.nodes.size + k)).root = t.root := by
    rw [Tree.root_cleared, if_neg hnotroot, hpadded.root]
    exact h.root
  have hkept : (t''.cleared (t.nodes.size + k)).get? id =
      some (stageNode size position level parent t.nodes.size k) := by
    have hne : id ≠ t.nodes.size + k := by omega
    rw [Tree.get?_cleared, if_neg hne, hget, if_neg hne, h.get?_self]
  have hslot : (stageNode size position level parent t.nodes.size k).slotOf? w.position = some k := by
    rw [hposition]
    exact slotOf?_stageNode hk
  -- The parent is persistent while it is walked, so it stays even when its last child goes.
  have hfree : (t''.free (t.nodes.size + k)).2 = (t''.cleared (t.nodes.size + k)).set id
      (stageNode size position level parent t.nodes.size (k + 1)) := by
    have hpersistent : (stageNode size position level parent t.nodes.size k).status = .persistent := rfl
    have hself : t''.get? (t.nodes.size + k) = some w := by rw [hget, if_pos rfl]
    have hdetach := Tree.detach_eq hkept rfl hslot (child?_stageNode hk)
    rw [withoutChild_stageNode hk] at hdetach
    have hfalse : ((t''.cleared (t.nodes.size + k)).detach id w.position).1 = false := by
      simp [hdetach, hpersistent]
    rw [Tree.free, Tree.freeUp_of_kept hself hchildless hparent hfalse, hdetach]
  rw [hfree]
  refine ⟨fun j => ?_, hclearedroot, ?_, ?_⟩
  · rw [Tree.get?_set hkept, Tree.get?_cleared, hget, h.get?]
    by_cases hj : j = id
    · rw [if_pos hj, if_pos hj]
    · rw [if_neg hj, if_neg hj, if_neg hj]
      by_cases hself : j = t.nodes.size + k
      · have hdone : ¬ (t.nodes.size + (k + 1) ≤ j ∧
            j < t.nodes.size + childCount size position (level + 1)) := by omega
        have hnew : t.nodes.size ≤ j := by omega
        rw [if_pos hself, if_neg hdone, Tree.get?_eq_none_of_size_le hnew]
      · rw [if_neg hself, if_neg hself]
        congr 1
        rw [eq_iff_iff]
        omega
  · rw [Tree.fileSize_set, Tree.fileSize_cleared, hpadded.fileSize]
    exact h.fileSize
  · have hsize := hpadded.size_le
    rw [Tree.size_set] at hsize
    rw [Tree.size_set, Tree.size_cleared]
    exact Nat.le_trans h.size_le hsize

end Stage

/-! ### Messages -/

section Messages

variable {σ : Type} (env : Env σ) (src : Source)

/-- What is sent for a leaf: its block, or the entry that finds it in the shared file. -/
def leafMessage (position : Nat) : ClientMessage :=
  if env.index = 0 then env.direction.blockMessage env.priority (src.cipher env.suite 0 position)
  else env.direction.indexMessage ⟨(src.chk env.suite 0 position).query, env.priority,
    Lookup.sharedLeaf.code, env.index, UInt64.ofNat position⟩

/-- The messages of a subtree, each after those of its children. -/
def messages : Nat → Nat → List ClientMessage
  | 0, position => [leafMessage env src position]
  | level + 1, position =>
    (src.starts level position).flatMap (messages level) ++
      ((if env.index ≠ 0 then
          [env.direction.superMessage env.priority (src.table env.suite level position).superHash]
        else []) ++
      [env.direction.blockMessage env.priority (src.cipher env.suite (level + 1) position)])

/-- The messages of the subtree below a node, and the super hash of the node. -/
def earlierMessages (level position : Nat) : List ClientMessage :=
  (src.starts level position).flatMap (messages env src level) ++
    if env.index ≠ 0 then
      [env.direction.superMessage env.priority (src.table env.suite level position).superHash]
    else []

theorem messages_succ (level position : Nat) : messages env src (level + 1) position =
    earlierMessages env src level position ++
      [env.direction.blockMessage env.priority (src.cipher env.suite (level + 1) position)] :=
  (List.append_assoc _ _ _).symm

/-- The receiver once it has had some messages. -/
def delivered (x : σ) (ms : List ClientMessage) : σ :=
  ms.foldl (fun x m => (env.sink.submit m x).2) x

/-- A walk goes on after this verdict: the message was accepted, or a super hash was gone already. -/
def Passes (m : ClientMessage) (verdict : Except SinkError Unit) : Prop :=
  verdict = .ok () ∨ verdict = .error .refused ∧ ∃ priority hash, m = .unindexSuper priority hash

/-- The receiver gives no verdict on these messages that stops a walk. -/
def Accepted (x : σ) : List ClientMessage → Prop
  | [] => True
  | m :: ms => Passes m (env.sink.submit m x).1 ∧ Accepted (env.sink.submit m x).2 ms

variable {env}

theorem delivered_append (x : σ) (ms ms' : List ClientMessage) :
    delivered env x (ms ++ ms') = delivered env (delivered env x ms) ms' :=
  List.foldl_append

theorem accepted_append (x : σ) (ms ms' : List ClientMessage) :
    Accepted env x (ms ++ ms') ↔ Accepted env x ms ∧ Accepted env (delivered env x ms) ms' := by
  induction ms generalizing x with
  | nil => simp [Accepted, delivered]
  | cons m ms ih =>
    rw [List.cons_append, Accepted, ih, Accepted, and_assoc]
    rfl

theorem accepted_singleton (x : σ) (m : ClientMessage) :
    Accepted env x [m] ↔ Passes m (env.sink.submit m x).1 := by
  simp [Accepted]

variable {src} in
/-- Where contents are sent, every block of a subtree is. -/
theorem blockMessage_mem_messages (hindex : env.index = 0) (hsize : src.size ≤ maxSize)
    {level position below start : Nat} (hplace : Place src.size level position)
    (hstart : Place src.size below start) (hcovers : Covers level position below start) :
    env.direction.blockMessage env.priority (src.cipher env.suite below start) ∈
      messages env src level position := by
  induction level generalizing position with
  | zero =>
    obtain rfl := Nat.le_zero.1 hcovers.below_le
    obtain rfl := hcovers.eq_of_level hplace.dvd hstart.dvd
    simp [messages, leafMessage, hindex]
  | succ level ih =>
    rw [messages, List.mem_append]
    rcases Nat.lt_or_ge level below with hlt | hle
    · obtain rfl : below = level + 1 := Nat.le_antisymm hcovers.below_le hlt
      obtain rfl := hcovers.eq_of_level hplace.dvd hstart.dvd
      exact .inr (List.mem_append_right _ (List.mem_singleton_self _))
    · obtain ⟨i, hi, hchild⟩ := hcovers.child hsize hplace hstart hle
      have hmem : position + i * coverage level ∈ src.starts level position :=
        List.mem_map.2 ⟨i, List.mem_range.2 hi, rfl⟩
      rw [coverage_eq_span (hplace.level_lt hsize)] at hmem
      exact .inl (List.mem_flatMap.2 ⟨_, hmem, ih (hplace.child hsize hi) hchild⟩)

theorem accepted_discard {env : Env Unit} (hsink : env.sink = Sink.discard) (x : Unit)
    (ms : List ClientMessage) : Accepted env x ms := by
  induction ms generalizing x with
  | nil => trivial
  | cons m ms ih => exact ⟨.inl (by rw [hsink]; rfl), ih _⟩

theorem ends_onTree (f : Tree → Tree) (st : State σ) {ok : Unit → State σ → Prop}
    {fail : TreeError → State σ → Prop} :
    Ends (onTree f) st ok fail ↔ ok () { st with tree := f st.tree } := Iff.rfl

theorem ends_node {id : NodeId} {n : Node} {st : State σ} {ok : Node → State σ → Prop}
    {fail : TreeError → State σ → Prop} (h : st.tree.get? id = some n) (hok : ok n st) :
    Ends (node id) st ok fail := by
  unfold node
  rw [ends_bind, ends_get, h]
  exact hok

theorem ends_send {m : ClientMessage} {st : State σ} {ok : Unit → State σ → Prop}
    {fail : TreeError → State σ → Prop} (hm : ∀ priority hash, m ≠ .unindexSuper priority hash)
    (hok : Accepted env st.sink [m] → ok () { st with sink := delivered env st.sink [m] })
    (hfail : ¬ Accepted env st.sink [m] →
      ∀ e, fail e { st with sink := delivered env st.sink [m] }) :
    Ends (send env m) st ok fail := by
  rw [accepted_singleton] at hok hfail
  unfold send submit
  rw [ends_bind, ends_modifyGet]
  simp only
  split
  · rename_i hverdict
    exact hok (.inl hverdict)
  · rename_i e hverdict
    refine hfail ?_ _
    rintro (hpass | ⟨-, priority, hash, heq⟩)
    · rw [hpass] at hverdict
      cases hverdict
    · exact hm priority hash heq

theorem blockMessage_ne (direction : Upload) (priority : UInt32) (cipher : Block) :
    ∀ p hash, direction.blockMessage priority cipher ≠ .unindexSuper p hash := by
  intro p hash
  cases direction <;> simp [blockMessage]

theorem leafMessage_ne (position : Nat) :
    ∀ p hash, leafMessage env src position ≠ .unindexSuper p hash := by
  intro p hash
  unfold leafMessage
  split
  · exact blockMessage_ne _ _ _ p hash
  · cases env.direction <;> simp [indexMessage]

theorem ends_sendSuper {hash : Digest} {st : State σ} {ok : Unit → State σ → Prop}
    {fail : TreeError → State σ → Prop}
    (hok : Accepted env st.sink [env.direction.superMessage env.priority hash] → ok () { st with
      sink := delivered env st.sink [env.direction.superMessage env.priority hash] })
    (hfail : ¬ Accepted env st.sink [env.direction.superMessage env.priority hash] →
      ∀ e, fail e { st with
        sink := delivered env st.sink [env.direction.superMessage env.priority hash] }) :
    Ends (sendSuper env hash) st ok fail := by
  rw [accepted_singleton] at hok hfail
  unfold sendSuper submit
  rw [ends_bind, ends_modifyGet]
  simp only
  split
  · rename_i hverdict
    exact hok (.inl hverdict)
  · rename_i e hverdict
    split
    · rename_i hgone
      obtain ⟨hdirection, rfl⟩ := hgone
      exact hok (.inr ⟨hverdict, env.priority, hash, by rw [hdirection]; rfl⟩)
    · rename_i hstops
      refine hfail ?_ _
      rintro (hpass | ⟨hrefused, priority, gone, heq⟩)
      · rw [hpass] at hverdict
        cases hverdict
      · refine hstops ⟨?_, Except.error.inj (hverdict.symm.trans hrefused)⟩
        cases hdirection : env.direction with
        | insert => simp [superMessage, hdirection] at heq
        | delete => rfl

end Messages

/-! ### Walks -/

section Walks

variable {σ : Type} {env : Env σ} {src : Source}

/-- All leaves of a place can be read. -/
def LeavesHeld (env : Env σ) (src : Source) (level position : Nat) : Prop :=
  ∀ start, Place src.size 0 start → Covers level position 0 start →
    env.storage.HasLeaf env.disk src.size start

theorem leavesHeld_succ {level position : Nat} (hsize : src.size ≤ maxSize)
    (hplace : Place src.size (level + 1) position) : LeavesHeld env src (level + 1) position ↔
      ∀ start ∈ src.starts level position, LeavesHeld env src level start := by
  have hcoverage := coverage_eq_span (hplace.level_lt hsize)
  constructor
  · intro hheld start hmem leaf hleaf hcovers
    obtain ⟨i, hi, rfl⟩ := List.mem_map.1 hmem
    rw [List.mem_range, lt_childCount_iff hsize (hplace.level_lt hsize)] at hi
    rw [hcoverage] at hcovers
    exact hheld leaf hleaf (hcovers.of_child hi.1)
  · intro hheld leaf hleaf hcovers
    obtain ⟨i, hi, hchild⟩ := hcovers.child hsize hplace hleaf (Nat.zero_le _)
    rw [← hcoverage] at hchild
    exact hheld _ (List.mem_map.2 ⟨i, List.mem_range.2 hi, rfl⟩) leaf hleaf hchild

/-- How a walk over a fresh node ends. -/
def Walks (env : Env σ) (src : Source) (level : Nat) (walk : NodeId → Walk σ Unit) : Prop :=
  ∀ (st : State σ) (id position : Nat) (parent : Option NodeId), Place src.size level position →
    st.tree.get? id = some (Node.new src.size position level parent) →
    (∀ r : Nat, st.tree.root = some r → r < st.tree.nodes.size) →
    Ends (walk id) st
      (fun _ st' =>
        Tree.Padded (st.tree.set id (walked env.suite src parent level position)) st'.tree ∧
          st'.sink = delivered env st.sink (messages env src level position) ∧
          LeavesHeld env src level position ∧
          Accepted env st.sink (messages env src level position))
      (fun _ st' => Grown id level parent st.tree st'.tree ∧
        ¬ (LeavesHeld env src level position ∧
          Accepted env st.sink (messages env src level position)))

theorem walks_leaf (hsrc : src = env.storage.source env.disk src.size) :
    Walks env src 0 (leaf env) := by
  intro st id position parent hplace hid _
  have hunchanged : Grown id 0 parent st.tree st.tree :=
    grown_of_padded hid (by rw [Tree.set_of_get? hid]; exact Tree.Padded.refl _)
      (Node.parent_new _ _ _ _) (Node.depth_new _ _ _ _)
      (Node.childIds_of_slots?_eq_none (Node.slots?_new _ _ _ _))
  unfold leaf
  rw [ends_bind]
  refine ends_node hid ?_
  rw [ends_bind, ends_liftM]
  refine ⟨fun data hdata => ?_, fun e he => ⟨hunchanged, fun hboth => ?_⟩⟩
  swap
  · rw [Node.position_new, Node.length_new] at he
    have hread := Storage.readBlock_of_hasLeaf (hboth.1 position hplace (covers_self 0 position))
    exact absurd (he.symm.trans hread) (by simp)
  rw [Node.position_new, Node.length_new] at hdata
  obtain ⟨bs, hread, hlength, rfl⟩ := Storage.readBlock_eq_ok hdata
  have hheld : env.storage.HasLeaf env.disk src.size position := ⟨bs, hread, hlength⟩
  have hleaf : fit 1024 bs = src.block env.suite 0 position := by
    have hbytes := Except.ok.inj (hread.symm.trans hheld.read.1)
    rw [Source.block_zero, hsrc, hbytes]
  have hsealed : Node.sealed env.suite
      { Node.new src.size position 0 parent with data := some (fit 1024 bs) } =
        (walked env.suite src parent 0 position, src.cipher env.suite 0 position) := by
    rw [Node.sealed_eq _ _ (fit 1024 bs) rfl, hleaf]
    rfl
  simp only [hsealed]
  have hpadded := Tree.Padded.refl
    (st.tree.set id (walked env.suite src parent 0 position))
  rw [ends_bind, ends_modify]
  have hleaves : LeavesHeld env src 0 position := by
    intro start hstart hcovers
    exact hcovers.eq_of_level hplace.dvd hstart.dvd ▸ hheld
  refine ends_send (leafMessage_ne src position) (fun haccepted => ⟨hpadded, rfl, hleaves, haccepted⟩)
    fun hrefused _ => ⟨?_, fun hboth => hrefused hboth.2⟩
  exact grown_of_padded hid hpadded (parent_walked _ _ _ _ _) (depth_walked _ _ _ _ _)
    (childIds_walked _ _ _ _ _)

theorem ends_children {level position id k : Nat} {parent : Option NodeId} {t : Tree} {n : Node}
    {walk : NodeId → Walk σ Unit} (hsize : src.size ≤ maxSize) (hwalk : Walks env src level walk)
    (hplace : Place src.size (level + 1) position) (hn : t.get? id = some n)
    (hroot : ∀ r : Nat, t.root = some r → r < t.nodes.size) (rest : Nat)
    (hk : k + rest = childCount src.size position (level + 1)) (st : State σ)
    (hstage : Stage src.size position level parent id t k st.tree) :
    Ends (children env walk (List.range' (t.nodes.size + k) rest)) st
      (fun results st' =>
        results = ((src.starts level position).drop k).map
          (fun start => (src.checksum env.suite level start, src.chk env.suite level start)) ∧
        Stage src.size position level parent id t (k + rest) st'.tree ∧
        st'.sink = delivered env st.sink
          (((src.starts level position).drop k).flatMap (messages env src level)) ∧
        (∀ start ∈ (src.starts level position).drop k, LeavesHeld env src level start) ∧
        Accepted env st.sink
          (((src.starts level position).drop k).flatMap (messages env src level)))
      (fun _ st' => Grown id (level + 1) parent t st'.tree ∧
        ¬ ((∀ start ∈ (src.starts level position).drop k, LeavesHeld env src level start) ∧
          Accepted env st.sink
            (((src.starts level position).drop k).flatMap (messages env src level)))) := by
  have hid := Tree.lt_size_of_get? hn
  -- Each child is walked and freed before the next, which takes the tree from stage to stage.
  induction rest generalizing k st with
  | zero =>
    have hdone : (src.starts level position).drop k = [] :=
      List.drop_eq_nil_of_le (by simp; omega)
    rw [hdone]
    exact ⟨rfl, hstage, rfl, by simp, trivial⟩
  | succ rest ih =>
    have hlt : k < childCount src.size position (level + 1) := by omega
    have hbounds : k < (src.starts level position).length := by simpa using hlt
    have hstart : (src.starts level position)[k] = position + k * coverage level :=
      Option.some.inj ((List.getElem?_eq_getElem hbounds).symm.trans (Source.getElem?_starts hlt))
    have hdrop : (src.starts level position).drop k =
        (position + k * coverage level) :: (src.starts level position).drop (k + 1) := by
      rw [List.drop_eq_getElem_cons hbounds, hstart]
    have hchildplace : Place src.size level (position + k * coverage level) := by
      rw [coverage_eq_span (hplace.level_lt hsize)]
      exact hplace.child hsize hlt
    have hchild := hstage.get?_child hn hlt
    have hstroot : ∀ r : Nat, st.tree.root = some r → r < st.tree.nodes.size := by
      intro r hr
      have hlow := hroot r (hstage.root.symm.trans hr)
      have hsize := hstage.size_le
      omega
    rw [hdrop, List.flatMap_cons, accepted_append, List.forall_mem_cons]
    rw [List.range'_succ, children, ends_bind]
    refine (hwalk st _ _ (some id) hchildplace hchild hstroot).mono ?_ ?_
    swap
    · rintro _ _ ⟨hgrown, hstopped⟩
      exact ⟨hstage.grown hn hlt hgrown, fun hall => hstopped ⟨hall.1.1, hall.2.1⟩⟩
    rintro _ walkedState ⟨hpadded, hsink, hheld, haccepted⟩
    have hself : walkedState.tree.get? (t.nodes.size + k) =
        some (walked env.suite src (some id) level (position + k * coverage level)) := by
      rw [hpadded.get?, Tree.get?_set hchild, if_pos rfl]
    rw [ends_bind]
    refine ends_node hself ?_
    rw [ends_bind, ends_onTree, ends_bind]
    have hnext := hstage.free hn hroot hlt hpadded (parent_walked _ _ _ _ _)
      (position_walked _ _ _ _ _) (childIds_walked _ _ _ _ _)
    rw [Nat.add_assoc]
    refine (ih (by omega) { walkedState with
      tree := (walkedState.tree.free (t.nodes.size + k)).2 } hnext).mono ?_ ?_
    · rintro results last ⟨hresults, hlast, hsent, hothers, hrest⟩
      rw [ends_pure]
      refine ⟨?_, ?_, ?_, ⟨hheld, hothers⟩, haccepted, hsink ▸ hrest⟩
      · rw [hresults, payload_walked, chk_walked]
        rfl
      · rwa [show k + 1 + rest = k + (rest + 1) by omega] at hlast
      · rw [hsent, delivered_append, ← hsink]
    · rintro _ _ ⟨hgrown, hstopped⟩
      exact ⟨hgrown, fun hall => hstopped ⟨hall.1.2, hsink ▸ hall.2.2⟩⟩

theorem sealed_stageNode {level position base : Nat} {parent : Option NodeId} :
    Node.sealed env.suite (Node.setTable
        { stageNode src.size position level parent base (childCount src.size position (level + 1)) with
          data := some (src.table env.suite level position).encode }
        (src.table env.suite level position)) =
      (walked env.suite src parent (level + 1) position,
        src.cipher env.suite (level + 1) position) := by
  rw [← Source.block_succ, Node.sealed_eq _ _ (src.block env.suite (level + 1) position) rfl]
  have hlength : (Node.new src.size position (level + 1) parent).length =
      nodeLength src.size (level + 1) position := Node.length_new _ _ _ _
  have hslots : List.replicate (childCount src.size position (level + 1)) none ++
      (List.range' (base + childCount src.size position (level + 1)) 0).map some =
        List.replicate (childCount src.size position (level + 1)) (none : Option NodeId) := by simp
  simp only [Node.setTable, Node.modifyInner, stageNode, Nat.sub_self, hslots]
  exact Prod.ext (by rw [hlength]; rfl) (by rw [hlength]; rfl)

/-- The node's own block goes last, whether a super hash has been sent before it or not. -/
theorem ends_seal {level position id : Nat} {parent : Option NodeId} {t : Tree} {x : σ}
    {st : State σ} (hid : t.get? id = some (Node.new src.size position (level + 1) parent))
    (hlast : Stage src.size position level parent id
      (t.set id (openedNode src.size position level parent))
      (childCount src.size position (level + 1)) st.tree)
    (hheld : LeavesHeld env src (level + 1) position)
    (hsent : st.sink = delivered env x (earlierMessages env src level position))
    (haccepted : Accepted env x (earlierMessages env src level position)) :
    Ends (do
      let n ← node id
      let result := Node.sealed env.suite (Node.setTable
        { n with data := some (src.table env.suite level position).encode }
        (src.table env.suite level position))
      onTree (·.set id result.1)
      send env (env.direction.blockMessage env.priority result.2)) st
      (fun _ st' =>
        Tree.Padded (t.set id (walked env.suite src parent (level + 1) position)) st'.tree ∧
          st'.sink = delivered env x (messages env src (level + 1) position) ∧
          LeavesHeld env src (level + 1) position ∧
          Accepted env x (messages env src (level + 1) position))
      (fun _ st' => Grown id (level + 1) parent t st'.tree ∧
        ¬ (LeavesHeld env src (level + 1) position ∧
          Accepted env x (messages env src (level + 1) position))) := by
  have hopened : (t.set id (openedNode src.size position level parent)).get? id =
      some (openedNode src.size position level parent) := by
    rw [Tree.get?_set hid, if_pos rfl]
  have hpadded := hlast.padded hopened (walked env.suite src parent (level + 1) position)
  rw [Tree.set_set] at hpadded
  rw [ends_bind]
  refine ends_node hlast.get?_self ?_
  simp only [sealed_stageNode]
  rw [ends_bind, ends_onTree, messages_succ, delivered_append, accepted_append, ← hsent]
  refine ends_send (blockMessage_ne _ _ _)
    (fun hpassed => ⟨hpadded, rfl, hheld, haccepted, hpassed⟩)
    fun hrefused _ => ⟨?_, fun hboth => hrefused hboth.2.2⟩
  exact grown_of_padded hid hpadded (parent_walked _ _ _ _ _) (depth_walked _ _ _ _ _)
    (childIds_walked _ _ _ _ _)

theorem walks_inner {level : Nat} {walk : NodeId → Walk σ Unit} (hsize : src.size ≤ maxSize)
    (hwalk : Walks env src level walk) : Walks env src (level + 1) (inner env walk) := by
  intro st id position parent hplace hid hroot
  have hopened : (st.tree.set id (openedNode src.size position level parent)).get? id =
      some (openedNode src.size position level parent) := by
    rw [Tree.get?_set hid, if_pos rfl]
  have hstatus : st.tree.setStatus id .persistent =
      st.tree.set id (openedNode src.size position level parent) :=
    Tree.setStatus_eq_set hid .persistent
  obtain ⟨t, hrun, hstage⟩ := stage_zero hopened
  unfold inner
  rw [ends_bind, ends_onTree, hstatus, ends_bind, ends_modifyGet]
  simp only [hrun, Option.getD_some]
  rw [ends_bind]
  have hchildren := ends_children hsize hwalk hplace hopened (by simpa using hroot)
    (childCount src.size position (level + 1)) (Nat.zero_add _) { st with tree := t } hstage
  have hleaves := @leavesHeld_succ σ env src level position hsize hplace
  refine hchildren.mono ?_ ?_
  swap
  · rintro _ _ ⟨hgrown, hstopped⟩
    rw [List.drop_zero] at hstopped
    rw [hleaves, messages_succ, accepted_append, earlierMessages, accepted_append]
    exact ⟨hgrown.of_set hid, fun hall => hstopped ⟨hall.1, hall.2.1.1⟩⟩
  rintro results st' ⟨hresults, hlast, hsink, hheld, haccepted⟩
  rw [Nat.zero_add] at hlast
  rw [List.drop_zero] at hresults hsink hheld haccepted
  have hblock : InnerBlock.ofChildren env.suite (results.map Prod.snd)
      (env.suite.chain (results.map Prod.fst)) = src.table env.suite level position := by
    rw [hresults]
    simp [Source.table, Function.comp_def]
  simp only [hblock]
  split
  · rename_i hindex
    have hearlier : earlierMessages env src level position =
        (src.starts level position).flatMap (messages env src level) ++
          [env.direction.superMessage env.priority (src.table env.suite level position).superHash] := by
      rw [earlierMessages, if_pos hindex]
    rw [ends_bind]
    refine ends_sendSuper (fun hpassed => ?_) fun hrefused _ => ⟨?_, fun hboth => ?_⟩
    · refine ends_seal hid hlast (hleaves.2 hheld) ?_ ?_
      · rw [hearlier, delivered_append, ← hsink]
      · rw [hearlier, accepted_append, ← hsink]
        exact ⟨haccepted, hpassed⟩
    · exact (hlast.grown_last hopened).of_set hid
    · rw [messages_succ, accepted_append, hearlier, accepted_append, ← hsink] at hboth
      exact hrefused hboth.2.1.2
  · rename_i hindex
    have hearlier : earlierMessages env src level position =
        (src.starts level position).flatMap (messages env src level) := by
      rw [earlierMessages, if_neg hindex, List.append_nil]
    refine ends_seal hid hlast (hleaves.2 hheld) ?_ ?_
    · rw [hearlier, hsink]
    · rw [hearlier]
      exact haccepted

theorem walks_subtree (hsize : src.size ≤ maxSize)
    (hsrc : src = env.storage.source env.disk src.size) (level : Nat) :
    Walks env src level (subtree env level) := by
  induction level with
  | zero =>
    intro st id position parent hplace hid hroot
    unfold subtree
    rw [ends_bind]
    refine ends_node hid ?_
    have hleaf : (Node.new src.size position 0 parent).isInner = false := by
      simp [Node.isInner, Node.inner?_new]
    simp only [hleaf, Bool.false_eq_true, if_false]
    exact walks_leaf hsrc st id position parent hplace hid hroot
  | succ level ih =>
    intro st id position parent hplace hid hroot
    unfold subtree
    rw [ends_bind]
    refine ends_node hid ?_
    have hinner : (Node.new src.size position (level + 1) parent).isInner = true := by
      simp [Node.isInner, Node.inner?_new]
    simp only [hinner, if_true]
    exact walks_inner hsize ih st id position parent hplace hid hroot

theorem walks_run (hsize : src.size ≤ maxSize)
    (hsrc : src = env.storage.source env.disk src.size) (level : Nat) :
    Walks env src level (run env) := by
  intro st id position parent hplace hid hroot
  unfold run
  rw [ends_bind]
  refine ends_node hid ?_
  rw [Node.depth_new]
  exact walks_subtree hsize hsrc level st id position parent hplace hid hroot

end Walks

end Upload

end ContentTree

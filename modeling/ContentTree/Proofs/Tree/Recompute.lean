import ContentTree.Proofs.Tree.Staged

/-!
# Rebuilding a block from its leaves

The copy of a subtree that is inserted to rebuild a block goes away without a trace, whether the
insertion succeeds or not. The block is found just if the leaves below can be read and give the
node's own pair.
-/

namespace ContentTree

namespace Upload

/-! ### Freeing what a walk has left behind -/

section Grown

variable {depth : Nat} {t t' : Tree} {n : Node}

theorem Grown.get?_of_lt (h : Grown t.nodes.size depth none (t.alloc n).2 t') {k : Nat}
    (hk : k < t.nodes.size) : t'.get? k = t.get? k := by
  have hsize : (t.alloc n).2.nodes.size = t.nodes.size + 1 := by simp [Tree.alloc]
  rw [h.old k (by omega) (by omega), Tree.get?_alloc, if_neg (by omega)]

theorem Grown.le_of_mem (h : Grown t.nodes.size depth none (t.alloc n).2 t') {k c : Nat} {b : Node}
    (hk : t.nodes.size ≤ k) (hb : t'.get? k = some b) (hc : c ∈ b.childIds) :
    t.nodes.size ≤ c ∧ ∀ m, t'.get? c = some m → m.depth < b.depth := by
  have hsize : (t.alloc n).2.nodes.size = t.nodes.size + 1 := by simp [Tree.alloc]
  obtain ⟨hnew, hlower⟩ := h.links k b (by omega) hb c hc
  exact ⟨by omega, hlower⟩

theorem Grown.descends (h : Grown t.nodes.size depth none (t.alloc n).2 t') (ht : t.Sound) :
    t'.Descends := by
  intro k b c m hb hc hm
  rcases Nat.lt_or_ge k t.nodes.size with hk | hk
  · rw [h.get?_of_lt hk] at hb
    obtain ⟨i, hi⟩ := Node.mem_childIds.1 hc
    obtain ⟨x, hx, -⟩ := ht.down hb hi
    rw [h.get?_of_lt (Tree.lt_size_of_get? hx)] at hm
    exact ht.descends k b c m hb hc hm
  · exact (h.le_of_mem hk hb hc).2 m hm

theorem Grown.not_mem_freeBelow (h : Grown t.nodes.size depth none (t.alloc n).2 t') {k : Nat}
    (hk : k < t.nodes.size) (levels : Nat) :
    k ∉ (Tree.freeBelow levels t' t.nodes.size).1 := fun hmem =>
  have hnew := Tree.freeBelow_subset (fun _ _ _ hk hb hc => (h.le_of_mem hk hb hc).1) levels
    (Nat.le_refl _) k hmem
  absurd hk (Nat.not_lt.2 hnew)

/-- From the node down, level by level, nothing is left. -/
theorem Grown.gone (h : Grown t.nodes.size depth none (t.alloc n).2 t') (ht : t.Sound) {copy m : Node}
    (hcopy : t'.get? t.nodes.size = some copy) {k : Nat} (hm : t'.get? k = some m)
    (hk : t.nodes.size ≤ k) :
    (Tree.freeBelow copy.depth t' t.nodes.size).2.get? k = none := by
  have hsize : (t.alloc n).2.nodes.size = t.nodes.size + 1 := by simp [Tree.alloc]
  have hself : (Tree.freeBelow copy.depth t' t.nodes.size).2.get? t.nodes.size = none := by
    rw [(Tree.freed_freeBelow copy.depth t' t.nodes.size).get?,
      if_pos (Tree.mem_freeBelow_self hcopy copy.depth)]
  -- The parent of a node is freed before it, and is higher by a level at least.
  induction hgap : depth - m.depth using Nat.strong_induction_on generalizing k m with
  | _ gap ih =>
    rcases Nat.eq_or_lt_of_le hk with rfl | hlt
    · exact hself
    · obtain ⟨hlower, p, q, hp, hq, hmem, hbelow⟩ := h.hang k m (by omega) hm
      have hup := ih (depth - q.depth) (by omega) hq (by omega) rfl
      exact Tree.freeBelow_closed (h.descends ht) hcopy (Nat.le_refl _) hq hup hmem

/-- Freeing the node from which a walk started takes away all that the walk has left behind. -/
theorem Grown.free (h : Grown t.nodes.size depth none (t.alloc n).2 t') (ht : t.Sound) :
    Tree.Padded t (t'.free t.nodes.size).2 := by
  obtain ⟨copy, hcopy, hparent, -⟩ := h.node
  have hfreed := Tree.freed_freeBelow copy.depth t' t.nodes.size
  have hfree : (t'.free t.nodes.size).2 = (Tree.freeBelow copy.depth t' t.nodes.size).2 := by
    have hnotroot : (Tree.freeBelow copy.depth t' t.nodes.size).2.root ≠ some t.nodes.size := by
      rw [hfreed.root, h.root]
      exact fun heq => absurd (ht.root_lt _ heq) (Nat.lt_irrefl _)
    rw [Tree.free, Tree.freeUp.eq_def]
    simp only [hcopy, hparent]
    rw [if_neg hnotroot]
  have hsize : (t.alloc n).2.nodes.size = t.nodes.size + 1 := by simp [Tree.alloc]
  rw [hfree]
  refine ⟨fun k => ?_, hfreed.root.trans h.root, hfreed.fileSize.trans h.fileSize, ?_⟩
  · rcases Nat.lt_or_ge k t.nodes.size with hk | hk
    · rw [hfreed.get?, if_neg (h.not_mem_freeBelow hk _), h.get?_of_lt hk]
    · rw [Tree.get?_eq_none_of_size_le hk]
      cases hm : t'.get? k with
      | none => rw [hfreed.get?, hm, ite_self]
      | some m => exact h.gone ht hcopy hm hk
  · rw [hfreed.size]
    exact Nat.le_trans (by omega) h.size_le

end Grown

end Upload

namespace Download

theorem ends_onTree (f : Tree → Tree) (st : State) {ok : Unit → State → Prop}
    {fail : TreeError → State → Prop} :
    Ends (onTree f) st ok fail ↔ ok () { st with tree := f st.tree } := Iff.rfl

theorem ends_call (c : SchedulerCall) (st : State) {ok : Unit → State → Prop}
    {fail : TreeError → State → Prop} :
    Ends (call c) st ok fail ↔ ok () { st with calls := st.calls.push c } := Iff.rfl

theorem ends_find? (id : NodeId) (st : State) {ok : Option Node → State → Prop}
    {fail : TreeError → State → Prop} :
    Ends (find? id) st ok fail ↔ ok (st.tree.get? id) st := Iff.rfl

theorem ends_node {id : NodeId} {n : Node} {st : State} {ok : Node → State → Prop}
    {fail : TreeError → State → Prop} (h : st.tree.get? id = some n) (hok : ok n st) :
    Ends (node id) st ok fail := by
  unfold node
  rw [ends_bind, ends_find?, h]
  exact hok

/-- The node with the block, and the table, that the leaves below it give. -/
def rebuiltNode (s : Suite) (src : Source) (n : Node) : Node :=
  match n.depth with
  | 0 => n
  | level + 1 =>
    { n with data := some (src.block s (level + 1) n.position) }.setTable
      (src.table s level n.position)

theorem like_rebuiltNode (s : Suite) (src : Source) (n : Node) : n.Like (rebuiltNode s src n) := by
  unfold rebuiltNode
  split
  · exact Node.Like.refl n
  · exact (Node.like_data n _).trans (Node.like_setTable _ _)

@[simp]
theorem status_rebuiltNode (s : Suite) (src : Source) (n : Node) :
    (rebuiltNode s src n).status = n.status := by
  unfold rebuiltNode
  split
  · rfl
  · cases n.kind <;> rfl

/-- A walked copy goes away without a trace also if another node has changed in the meantime. -/
theorem padded_free_set {t after : Tree} {id : Nat} {n m copy w : Node} (h : t.Sound)
    (hn : t.get? id = some n) (hlike : n.Like m)
    (hpadded : Tree.Padded ((t.alloc copy).2.set t.nodes.size w) after) (hparent : w.parent = none)
    (hchildless : w.childIds = []) :
    Tree.Padded (t.set id m) ((after.set id m).free t.nodes.size).2 := by
  have hne : id ≠ t.nodes.size := Nat.ne_of_lt (Tree.lt_size_of_get? hn)
  have hcopy : (t.alloc copy).2.get? t.nodes.size = some copy := by rw [Tree.get?_alloc, if_pos rfl]
  have hafter : after.get? id = some n := by
    rw [hpadded.get?, Tree.get?_set hcopy, if_neg hne, Tree.get?_alloc, if_neg hne, hn]
  have hsize := Tree.size_set t id m
  -- It is as if the copy had been made in the tree that has changed already.
  have hlater : ∀ k : Nat, ((t.set id m).alloc copy).2.get? k =
      if k = t.nodes.size then some copy else (t.set id m).get? k := fun k => by
    rw [← hsize]
    exact Tree.get?_alloc _ _ k
  have hlatercopy : ((t.set id m).alloc copy).2.get? t.nodes.size = some copy := by
    rw [hlater, if_pos rfl]
  have hlaterpadded :
      Tree.Padded (((t.set id m).alloc copy).2.set t.nodes.size w) (after.set id m) := by
    refine ⟨fun k => ?_, hpadded.root, hpadded.fileSize, ?_⟩
    · rw [Tree.get?_set hafter, Tree.get?_set hlatercopy, hpadded.get?, Tree.get?_set hcopy, hlater,
        Tree.get?_alloc, Tree.get?_set hn]
      by_cases hk : k = id
      · have hk' : k ≠ t.nodes.size := fun heq => hne (hk.symm.trans heq)
        rw [if_pos hk, if_neg hk', if_neg hk', if_pos hk]
      · rw [if_neg hk, if_neg hk]
    · have hle := hpadded.size_le
      simp only [Tree.size_set, Tree.alloc, Array.size_push] at hle ⊢
      exact hle
  have hgrown := Upload.grown_of_padded hlatercopy hlaterpadded hparent rfl hchildless
  rw [← hsize] at hgrown ⊢
  exact hgrown.free (h.of_like (Tree.like_set hn hlike))

/-- The insertion that a block is rebuilt by: its messages go nowhere. -/
def rebuilding (env : Env) (disk : Disk) : Upload.Env Unit :=
  { suite := env.suite, disk := disk, storage := env.storage, direction := .insert,
    priority := 0, index := 0, sink := Sink.discard }

/-- A copy of a node is walked as any new node is, and fails only if a leaf cannot be read. -/
theorem ends_rebuilding {env : Env} {t : Tree} {id : Nat} {n : Node} (h : t.Sound)
    (hn : t.get? id = some n) (disk : Disk) (meter : Meter) :
    Ends (Upload.run (rebuilding env disk) t.nodes.size)
      ⟨(t.alloc (Node.new n.fileSize n.position n.depth none)).2, meter, ()⟩
      (fun _ after => (∀ start, Place n.fileSize 0 start → Covers n.depth n.position 0 start →
          env.storage.HasLeaf disk n.fileSize start) ∧
        Tree.Padded ((t.alloc (Node.new n.fileSize n.position n.depth none)).2.set t.nodes.size
          (Upload.walked env.suite (env.storage.source disk n.fileSize) none n.depth n.position))
          after.tree)
      (fun _ after => (¬ ∀ start, Place n.fileSize 0 start → Covers n.depth n.position 0 start →
          env.storage.HasLeaf disk n.fileSize start) ∧
        Tree.Padded t (after.tree.free t.nodes.size).2) := by
  have hshape := h.shaped hn
  have hplace := hshape.place
  rw [← hshape.fileSize] at hplace
  have hsize : n.fileSize ≤ maxSize := hshape.fileSize ▸ h.fileSize_le
  have hcopy : (t.alloc (Node.new n.fileSize n.position n.depth none)).2.get? t.nodes.size =
      some (Node.new n.fileSize n.position n.depth none) := by rw [Tree.get?_alloc, if_pos rfl]
  have hwalks : Upload.Walks (rebuilding env disk) (env.storage.source disk n.fileSize) n.depth
      (Upload.run (rebuilding env disk)) := Upload.walks_run hsize rfl n.depth
  refine (hwalks ⟨_, meter, ()⟩ t.nodes.size n.position none hplace hcopy fun r hr => ?_).mono
    (fun _ _ hdone => ⟨hdone.2.2.1, hdone.1⟩)
    fun _ _ hfailed => ⟨fun hheld => hfailed.2 ⟨hheld, Upload.accepted_discard rfl _ _⟩,
      hfailed.1.free h⟩
  have hlt := h.root_lt r hr
  simp only [Tree.alloc, Array.size_push]
  omega

/-- Once a copy has been walked, its block and table can be given to the node. -/
theorem padded_adopted {s : Suite} {src : Source} {t after : Tree} {id level : Nat} {n : Node}
    (h : t.Sound) (hn : t.get? id = some n) (hlevel : n.depth = level + 1)
    (hpadded : Tree.Padded ((t.alloc (Node.new n.fileSize n.position n.depth none)).2.set t.nodes.size
      (Upload.walked s src none n.depth n.position)) after) :
    Tree.Padded (t.set id (rebuiltNode s src n))
      ((after.modify id fun b =>
        { b with data := (Upload.walked s src none n.depth n.position).data }.setTable
          (src.table s level n.position)).free t.nodes.size).2 := by
  have hid := Tree.lt_size_of_get? hn
  have hne : id ≠ t.nodes.size := by omega
  have hcopy : (t.alloc (Node.new n.fileSize n.position n.depth none)).2.get? t.nodes.size =
      some (Node.new n.fileSize n.position n.depth none) := by rw [Tree.get?_alloc, if_pos rfl]
  have hafter : after.get? id = some n := by
    rw [hpadded.get?, Tree.get?_set hcopy, if_neg hne, Tree.get?_alloc, if_neg hne, hn]
  have hmodify : after.modify id (fun b =>
      { b with data := (Upload.walked s src none n.depth n.position).data }.setTable
        (src.table s level n.position)) = after.set id (rebuiltNode s src n) := by
    rw [Tree.modify_eq_set hafter, rebuiltNode, hlevel, Upload.data_walked]
  rw [hmodify]
  exact padded_free_set h hn (like_rebuiltNode _ _ n) hpadded (Upload.parent_walked _ _ _ _ _)
    (Upload.childIds_walked _ _ _ _ _)

theorem ends_recompute {env : Env} {id : Nat} {n : Node} {st : State} {ok : Bool → State → Prop}
    {fail : TreeError → State → Prop} (h : st.tree.Sound) (hn : st.tree.get? id = some n)
    (hinner : n.isInner)
    (hlost : ∀ t, Tree.Padded st.tree t →
      ¬ ((∀ start, Place n.fileSize 0 start → Covers n.depth n.position 0 start →
          env.storage.HasLeaf st.disk n.fileSize start) ∧
        (env.storage.source st.disk n.fileSize).chk env.suite n.depth n.position = n.chk) →
      ok false { st with tree := t })
    (hfound : ∀ t, (∀ start, Place n.fileSize 0 start → Covers n.depth n.position 0 start →
        env.storage.HasLeaf st.disk n.fileSize start) →
      (env.storage.source st.disk n.fileSize).chk env.suite n.depth n.position = n.chk →
      Tree.Padded (st.tree.set id
        (rebuiltNode env.suite (env.storage.source st.disk n.fileSize) n)) t →
      ok true { st with tree := t }) : Ends (recompute env id) st ok fail := by
  obtain ⟨level, hlevel⟩ : ∃ level, n.depth = level + 1 := by
    have hpos := (h.shaped hn).isSome_inner?.1 hinner
    exact ⟨n.depth - 1, by omega⟩
  have hnew : Node.newInner n.fileSize n.position n.depth none =
      Node.new n.fileSize n.position n.depth none := by
    rw [Node.new, if_neg (by omega)]
  let src := env.storage.source st.disk n.fileSize
  let walked := Upload.walked env.suite src none n.depth n.position
  have hcopy : (st.tree.alloc (Node.new n.fileSize n.position n.depth none)).2.get?
      st.tree.nodes.size = some (Node.new n.fileSize n.position n.depth none) := by
    rw [Tree.get?_alloc, if_pos rfl]
  have hchk : walked.chk = src.chk env.suite n.depth n.position := Upload.chk_walked _ _ _ _ _
  have hwalk := @ends_rebuilding env st.tree id n h hn st.disk (Meter.new env.storage.size)
  unfold recompute
  rw [ends_bind]
  refine ends_node hn ?_
  rw [ends_bind, ends_get]
  simp only [hnew]
  rcases hrun : (Upload.run (rebuilding env st.disk) st.tree.nodes.size).run
    ⟨(st.tree.alloc (Node.new n.fileSize n.position n.depth none)).2, Meter.new env.storage.size, ()⟩
    with ⟨result, after⟩
  have hrun' : (Upload.run
      { suite := env.suite, disk := st.disk, storage := env.storage, direction := .insert,
        priority := 0, index := 0, sink := Sink.discard }
      (st.tree.alloc (Node.new n.fileSize n.position n.depth none)).1).run
      ⟨(st.tree.alloc (Node.new n.fileSize n.position n.depth none)).2,
        Meter.new env.storage.size, ()⟩ = (result, after) := hrun
  rw [hrun']
  cases result with
  | error e =>
    obtain ⟨hmissing, hpadded⟩ := hwalk.of_error hrun
    exact hlost _ hpadded fun hboth => hmissing hboth.1
  | ok u =>
    obtain ⟨hheld, hpadded⟩ := hwalk.of_ok hrun
    have hself : after.tree.get? (st.tree.alloc (Node.new n.fileSize n.position n.depth none)).1 =
        some walked := by
      change after.tree.get? st.tree.nodes.size = _
      rw [hpadded.get?, Tree.get?_set hcopy, if_pos rfl]
    by_cases hsame : src.chk env.suite n.depth n.position = n.chk
    · have hsome : Option.filter (fun c : Node => c.chk == n.chk) (some walked) = some walked := by
        simp [Option.filter, hchk, hsame]
      have htable : walked.inner?.bind Inner.table = some (src.table env.suite level n.position) := by
        simp only [walked, hlevel]
        rfl
      simp only [Except.toOption, Option.bind_some, hself, hsome, htable, Option.isSome_some]
      exact hfound _ hheld hsame (padded_adopted h hn hlevel hpadded)
    · have hnone : Option.filter (fun c : Node => c.chk == n.chk) (some walked) = none := by
        simp [Option.filter, hchk, hsame]
      simp only [Except.toOption, Option.bind_some, hself, hnone]
      refine hlost _ ?_ fun hboth => hsame hboth.2
      exact (Upload.grown_of_padded hcopy hpadded (Upload.parent_walked _ _ _ _ _)
        (Upload.depth_walked _ _ _ _ _) (Upload.childIds_walked _ _ _ _ _)).free h

end Download

end ContentTree

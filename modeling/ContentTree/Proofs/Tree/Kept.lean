import ContentTree.Proofs.Tree.Onward
import ContentTree.Proofs.Tree.Operations

/-!
# What the operations on a tree keep

Insertion, deletion and download take a sound tree onward from any state, whatever the node, the
receiver of messages and the disk, and whether they succeed or fail. A download leaves a node pending
only if its block is neither stored nor can be rebuilt.
-/

namespace ContentTree

/-! ### Walks bottom up -/

namespace Upload

variable {σ α : Type} {env : Env σ} {st : State σ} {id : NodeId}

def Kept (st st' : State σ) : Prop := st.tree.Sound → Tree.Onward Tree.anything st.tree st'.tree

instance : IsPreorder (State σ) Kept where
  refl _ h := h.onward
  trans _ _ _ h h' hsound := (h hsound).trans (h' (h hsound).sound)

theorem kept_of_tree_eq {st' : State σ} (h : st'.tree = st.tree) : Kept st st' :=
  fun hsound => by
    rw [h]
    exact hsound.onward

theorem kept_node {f : Node → Walk σ α} (hf : ∀ st n, st.tree.get? id = some n →
    Ends (f n) st (fun _ => Kept st) (fun _ => Kept st)) : Carries Kept (node id >>= f) := by
  intro st
  rw [ends_bind]
  unfold node
  rw [ends_bind, ends_get]
  split
  · rename_i n hn
    exact hf st n hn
  · exact refl_of Kept st

theorem kept_onTree {f : Tree → Tree} (hf : ∀ t, t.Sound → Tree.Onward Tree.anything t (f t)) :
    Carries Kept (onTree f : Walk σ Unit) := carries_modify fun st => hf st.tree

theorem kept_submit (m : ClientMessage) : Carries Kept (submit env m) :=
  carries_modifyGet fun _ => kept_of_tree_eq rfl

theorem kept_send (m : ClientMessage) : Carries Kept (send env m) := by
  refine (kept_submit m).bind fun verdict => ?_
  cases verdict with
  | ok => exact carries_pure _
  | error e => exact carries_throw _

theorem kept_sendSuper (hash : Digest) : Carries Kept (sendSuper env hash) := by
  refine (kept_submit _).bind fun verdict => ?_
  cases verdict with
  | ok => exact carries_pure _
  | error e =>
    simp only
    split
    · exact carries_pure _
    · exact carries_throw _

theorem like_sealed (s : Suite) {n m : Node} (h : n.Like m) : n.Like (Node.sealed s m).1 :=
  h.trans (.of_kind rfl rfl rfl rfl rfl)

theorem kept_leaf (id : NodeId) : Carries Kept (leaf env id) := by
  refine kept_node fun st n hn => ?_
  rw [ends_bind, ends_liftM]
  refine ⟨fun data _ => ?_, fun _ _ => refl_of Kept st⟩
  rw [ends_bind, ends_modify]
  exact (kept_send _).after fun h =>
    h.onward_set hn (like_sealed env.suite (Node.like_data n _)) fun _ => .inr trivial

theorem kept_children {walk : NodeId → Walk σ Unit} (hwalk : ∀ id, Carries Kept (walk id))
    (ids : List NodeId) : Carries Kept (children env walk ids) := by
  induction ids with
  | nil => exact carries_pure _
  | cons id ids ih =>
    refine (hwalk id).bind fun _ => kept_node fun st n _ => ?_
    have hrest : Carries Kept (do
        onTree fun t => (t.free id).2
        return (env.suite.checksum n.payload, n.chk) :: (← children env walk ids)) :=
      (kept_onTree fun t ht => ht.onward_free id).bind fun _ => ih.bind fun _ => carries_pure _
    exact hrest st

theorem kept_inner {walk : NodeId → Walk σ Unit} (hwalk : ∀ id, Carries Kept (walk id))
    (id : NodeId) : Carries Kept (inner env walk id) := by
  refine (kept_onTree fun t ht => ht.onward_setStatus id (by decide)).bind fun _ => ?_
  refine Carries.bind (carries_modifyGet fun st hsound => hsound.onward_allocateChildren id)
    fun ids => (kept_children hwalk ids).bind fun results => ?_
  have hlast : ∀ block : InnerBlock, Carries Kept (do
      let n ← node id
      let result := Node.sealed env.suite (Node.setTable { n with data := some block.encode } block)
      onTree (·.set id result.1)
      send env (env.direction.blockMessage env.priority result.2)) := by
    refine fun block => kept_node fun st n hn => ?_
    rw [ends_bind, ends_onTree]
    exact (kept_send _).after fun h => h.onward_set hn
      (like_sealed env.suite ((Node.like_data n _).trans (Node.like_setTable _ block))) fun _ => .inr trivial
  simp only
  split
  · exact (kept_sendSuper _).bind fun _ => hlast _
  · exact hlast _

theorem kept_subtree (levels : Nat) (id : NodeId) : Carries Kept (subtree env levels id) := by
  induction levels generalizing id with
  | zero =>
    refine kept_node fun st n _ => ?_
    split
    · exact refl_of Kept st
    · exact kept_leaf id st
  | succ levels ih =>
    refine kept_node fun st n _ => ?_
    split
    · exact kept_inner ih id st
    · exact kept_leaf id st

theorem kept_run (id : NodeId) : Carries Kept (run env id) :=
  kept_node fun st n _ => kept_subtree n.depth id st

end Upload

/-! ### Downloads -/

namespace Download

variable {α : Type} {env : Env} {st st' : State} {id : NodeId} {n : Node}

/-- The block at a place is not stored, and not all leaves of the place can be read with the pair as
their result. -/
structure Lost (env : Env) (disk : Disk) (size level position : Nat) (chk : Chk) : Prop where
  stored : ∀ data, env.storage.readBlock disk level position (nodeLength size level position) =
    .ok data → env.suite.hash (data.toList.take (nodeLength size level position)) ≠ chk.key
  rebuilt : 0 < level → ¬ ((∀ start, Place size 0 start → Covers level position 0 start →
      env.storage.HasLeaf disk size start) ∧
    (env.storage.source disk size).chk env.suite level position = chk)

structure Keeps (env : Env) (st st' : State) : Prop where
  disk : st'.disk = st.disk
  onward : Tree.Onward (Lost env st.disk st.tree.fileSize) st.tree st'.tree

def Kept (env : Env) (st st' : State) : Prop := st.tree.Sound → Keeps env st st'

instance : IsPreorder State (Kept env) where
  refl _ h := ⟨rfl, h.onward⟩
  trans a b c h h' hsound := by
    obtain ⟨hdisk, honward⟩ := h hsound
    obtain ⟨hdisk', honward'⟩ := h' honward.sound
    rw [hdisk, honward.fileSize] at honward'
    exact ⟨hdisk'.trans hdisk, honward.trans honward'⟩

theorem kept_of_onward (hdisk : st'.disk = st.disk)
    (h : ∀ lost, st.tree.Sound → Tree.Onward lost st.tree st'.tree) : Kept env st st' :=
  fun hsound => ⟨hdisk, h _ hsound⟩

theorem kept_onTree {f : Tree → Tree} (hf : ∀ lost t, t.Sound → Tree.Onward lost t (f t)) :
    Carries (Kept env) (onTree f) :=
  carries_modify fun st => kept_of_onward rfl fun lost => hf lost st.tree

theorem kept_setStatus (id : NodeId) (status : Status) (h : status ≠ .pending) :
    Carries (Kept env) (onTree (·.setStatus id status)) :=
  kept_onTree fun _ _ ht => ht.onward_setStatus id h

theorem kept_call (c : SchedulerCall) : Carries (Kept env) (call c) :=
  carries_modify fun _ => kept_of_onward rfl fun _ hsound => hsound.onward

theorem kept_node {f : Node → Step α} (hf : ∀ st n, st.tree.get? id = some n →
    Ends (f n) st (fun _ => Kept env st) (fun _ => Kept env st)) :
    Carries (Kept env) (node id >>= f) := by
  intro st
  rw [ends_bind]
  unfold node
  rw [ends_bind, ends_find?]
  split
  · rename_i n hn
    exact hf st n hn
  · exact refl_of (Kept env) st

theorem kept_free (id : NodeId) : Carries (Kept env) (free id) :=
  carries_modify fun _ => kept_of_onward rfl fun _ hsound => hsound.onward_free id

theorem kept_recordChild (parent child : NodeId) :
    Carries (Kept env) (recordChild env parent child) := by
  refine kept_node fun st c _ => kept_node (fun st p hp => ?_) st
  split
  · rename_i slot inner hslot hinner
    let next := p.setInner { inner with childCrcs := Node.crcsWith env.suite inner slot c }
    have hcrcs : p.Like next :=
      Node.like_setInner hinner rfl rfl rfl rfl (length_crcsWith env.suite inner slot c)
    have hkept : ∀ data, Kept env st { st with tree := st.tree.set parent { next with data := data } } :=
      fun data => kept_of_onward rfl fun _ hsound => hsound.onward_set hp
        (hcrcs.trans (Node.like_data next data)) fun hs => .inl ⟨hs, rfl⟩
    simp only
    rw [ends_bind, ends_onTree]
    split
    · split
      · rw [ends_bind, ends_throw]
        exact hkept p.data
      · rw [ends_onTree, Tree.set_set]
        exact hkept none
    · exact hkept p.data
  · exact carries_pure _ st

theorem kept_allocateChildren (id : NodeId) : Carries (Kept env) (modifyGet fun st : State =>
    ((st.tree.allocateChildren id).1.getD [],
      { st with tree := (st.tree.allocateChildren id).2 }) : Step (List NodeId)) :=
  carries_modifyGet fun _ => kept_of_onward rfl fun _ hsound => hsound.onward_allocateChildren id

theorem persists_kept (env : Env) : Persists env (Kept env) where
  setStatus := kept_setStatus
  call c _ := kept_call c
  free := kept_free
  allocate := kept_allocateChildren
  record := kept_recordChild

/-! ### Looking for a block on disk -/

theorem lost_of_not_found (hshape : n.Shaped st.tree.fileSize)
    (hstored : ∀ data, env.storage.readBlock st.disk n.depth n.position n.length = .ok data →
      env.suite.hash (data.toList.take n.length) ≠ n.chk.key)
    (hrebuilt : n.isInner → ¬ ((∀ start, Place n.fileSize 0 start →
        Covers n.depth n.position 0 start → env.storage.HasLeaf st.disk n.fileSize start) ∧
      (env.storage.source st.disk n.fileSize).chk env.suite n.depth n.position = n.chk)) :
    Lost env st.disk st.tree.fileSize n.depth n.position n.chk := by
  rw [hshape.length] at hstored
  rw [hshape.fileSize] at hrebuilt
  exact ⟨hstored, fun hpos => hrebuilt (hshape.isSome_inner?.2 hpos)⟩

/-- A node is left pending only if it is lost. -/
theorem ends_defer_kept {t : Tree} (hsound : st.tree.Sound) (hn : st.tree.get? id = some n)
    (hpadded : Tree.Padded (st.tree.set id { n with status := .notPresent }) t)
    (hlost : Lost env st.disk st.tree.fileSize n.depth n.position n.chk) :
    Ends (do
      onTree (·.setStatus id .pending)
      if n.parent.isNone then call (.request id .own (Query.new [n.chk.query])))
      { st with tree := t } (fun _ => Kept env st) (fun _ => Kept env st) := by
  have hkept : Kept env st { st with tree := t.setStatus id .pending } := fun _ =>
    ⟨rfl, hsound.onward_set_padded hn (like_status n .pending) (fun _ => .inr hlost)
      (hpadded.setStatus hn .pending)⟩
  rw [ends_bind, ends_onTree]
  split
  · exact (kept_call _).after hkept
  · exact hkept

theorem kept_found {data : Block} {b : Node} {meter : Meter} (hn : st.tree.get? id = some n)
    (hb : { b with status := .present } = n.admitted data)
    (hstatus : b.status = .present ∨ b.status = n.status) :
    Kept env st { st with tree := st.tree.set id b, meter := meter } := by
  have hchk : b.chk = n.chk := by
    rw [← chk_admitted data n, ← hb]
  refine fun hsound => ⟨rfl, hsound.onward_set hn (like_of_admitted hb) fun hs => .inl ⟨?_, hchk⟩⟩
  rcases hstatus with hstatus | hstatus
  · rw [hs] at hstatus
    cases hstatus
  · exact hstatus.symm.trans hs

theorem kept_isPresent (id : NodeId) : Carries (Kept env) (isPresent env id) := by
  intro st
  cases hn : st.tree.get? id with
  | none =>
    unfold isPresent
    rw [ends_bind, ends_find?, hn]
    exact refl_of (Kept env) st
  | some n =>
    refine ends_isPresent hn (fun _ => ?_) fun data b _ _ hb hstatus => kept_found hn hb hstatus
    exact kept_of_onward rfl fun _ hsound =>
      hsound.onward_set hn (like_status n .notPresent) fun hs => by cases hs

/-- A node that is not found on disk by its own block, nor by its leaves if it has children, is
lost. -/
theorem kept_visit {start : NodeId → Step Unit} (hstart : ∀ id, Carries (Kept env) (start id))
    (id : NodeId) : Carries (Kept env) (visit env start id) := by
  intro st
  -- Of a tree that is not sound nothing is claimed.
  by_cases hsound : st.tree.Sound
  swap
  · exact ends_of_forall (fun _ _ h => absurd h hsound) fun _ _ h => absurd h hsound
  have harrive := (persists_kept env).arrive hstart id
  cases hn : st.tree.get? id with
  | none =>
    unfold visit node
    rw [ends_bind, ends_bind, ends_find?, hn]
    exact refl_of (Kept env) st
  | some n =>
    refine ends_visit hsound hn (fun t hpadded hstored hrebuilt => ?_) (fun t _ _ _ hpadded => ?_)
      fun data b _ _ hb hstatus => harrive.after (kept_found hn hb hstatus)
    · exact ends_defer_kept hsound hn hpadded
        (lost_of_not_found (hsound.shaped hn) hstored hrebuilt)
    · have hlike := like_status n .notPresent
      refine harrive.after fun _ => ⟨rfl, ?_⟩
      refine hsound.onward_set_padded hn (hlike.trans (like_rebuiltNode _ _ _)) (fun hs => ?_) hpadded
      rw [status_rebuiltNode] at hs
      cases hs

theorem kept_below (levels : Nat) (id : NodeId) : Carries (Kept env) (below env levels id) := by
  induction levels generalizing id with
  | zero => exact carries_pure _
  | succ levels ih => exact kept_visit ih id

theorem kept_start (id : NodeId) : Carries (Kept env) (start env id) :=
  kept_node fun st n _ => kept_visit (kept_below n.depth) id st

/-! ### Taking a reply -/

def Advanced (st st' : State) : Prop := st.tree.Sound → Tree.Onward Tree.anything st.tree st'.tree

instance : IsPreorder State Advanced where
  refl _ h := h.onward
  trans _ _ _ h h' hsound := (h hsound).trans (h' (h hsound).sound)

theorem Kept.advanced (h : Kept env st st') : Advanced st st' := fun hsound => (h hsound).onward.weaken

theorem advanced_of_kept {x : Step α} (h : Carries (Kept env) x) : Carries Advanced x :=
  fun st => (h st).mono (fun _ _ h => h.advanced) fun _ _ h => h.advanced

theorem advanced_receiveOwn (id : NodeId) (reply : Block) :
    Carries Advanced (receiveOwn env id reply) := by
  intro st
  refine ends_receiveOwn_of (fun _ => refl_of Advanced st) (fun _ _ _ _ _ => refl_of Advanced st)
    fun n b disk hn _ _ hb => ?_
  have harrive := advanced_of_kept ((persists_kept env).arrive (@kept_below env n.depth) id)
  exact harrive.after fun hsound => hsound.onward_set hn (like_of_admitted hb) fun _ => .inr trivial

theorem advanced_receive (id : NodeId) (handler : ReplyHandler) (query : Digest) (reply : Block) :
    Carries Advanced (receive env id handler query reply) := by
  intro st
  unfold receive
  split
  · exact advanced_receiveOwn id reply st
  · rw [ends_bind, ends_get]
    split
    · exact advanced_receiveOwn _ reply st
    · exact carries_pure _ st

end Download

end ContentTree

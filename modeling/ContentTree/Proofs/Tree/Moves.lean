import Mathlib.Logic.Relation
import ContentTree.Proofs.Tree.Changes
import ContentTree.Proofs.Tree.Upload
import ContentTree.Tree.Download

/-!
# The moves of a download

Whatever a download does to its tree is a sequence of moves: a new node is found stored locally or
rebuilt from its leaves, or it becomes pending; a reply admits a pending node; an admitted inner
node gets children; once they have all been started, a query for the pending ones goes out; and a
node that has no children and is not waited for goes away.
-/

namespace ContentTree

namespace Node

/-- The node once its block is known. -/
def admitted (n : Node) (data : Block) : Node :=
  match n.inner? with
  | none => { n with data := some data, status := .present }
  | some i =>
    { n.setTable (InnerBlock.decode data i.childCount) with data := some data, status := .present }

/-- The checksums of its children that a node has once that of the child in `slot` is there. -/
def crcsWith (s : Suite) (i : Inner) (slot : Nat) (child : Node) : List (Option UInt32) :=
  i.childCrcs.set slot (some ((i.childCrcs[slot]?.join).getD (s.checksum child.payload)))

/-- The node once the checksum of the child in `slot` is there. -/
def recorded (s : Suite) (p : Node) (slot : Nat) (child : Node) : Node :=
  match p.inner? with
  | none => p
  | some i =>
    { p.setInner { i with childCrcs := crcsWith s i slot child } with
      data := if (crcsWith s i slot child).all Option.isSome then none else p.data }

/-- With this child the checksums of the children, if complete, are those that the node names. -/
def Agrees (s : Suite) (p : Node) (slot : Nat) (child : Node) : Prop :=
  ∀ i, p.inner? = some i → (crcsWith s i slot child).all Option.isSome →
    s.chain ((crcsWith s i slot child).filterMap id) = i.crc

/-- What a pending node asks for. -/
def wanted? (n : Node) : Option Digest := if n.status = .pending then some n.chk.query else none

/-- The second node is at the place of the first, and all that the first had recorded is in it. -/
structure Retains (n m : Node) : Prop where
  depth : m.depth = n.depth
  position : m.position = n.position
  chk : m.chk = n.chk
  inner : ∀ j, m.inner? = some j → ∃ i, n.inner? = some i ∧ j.childCount = i.childCount ∧
    j.table = i.table ∧ j.crc = i.crc ∧ j.childCrcs = i.childCrcs

def superHash (n : Node) : Digest :=
  ((n.inner?.bind Inner.table).map InnerBlock.superHash).getD zeroDigest

end Node

namespace Download

/-- The query of a node for its pending children. -/
def superQuery (t : Tree) (n : Node) : Query := Query.new (n.superHash :: pendingQueries t n)

/-- Why the block of the node `id` is known, and the disk once it is. `heard` is the reply at hand
and the node it is for, if there is one. -/
inductive Evidence (env : Env) (heard : Option (Nat × Block)) (st : State) (id : Nat) (n : Node) :
    Block → Disk → Prop
  | stored {data : Block} (hstatus : n.status = .created)
      (hread : env.storage.readBlock st.disk n.depth n.position n.length = .ok data)
      (hkey : env.suite.hash (data.toList.take n.length) = n.chk.key) :
      Evidence env heard st id n data st.disk
  | rebuilt (hstatus : n.status = .created) (hinner : n.isInner)
      (hleaves : ∀ start, Place n.fileSize 0 start → Covers n.depth n.position 0 start →
        env.storage.HasLeaf st.disk n.fileSize start)
      (hchk : (env.storage.source st.disk n.fileSize).chk env.suite n.depth n.position = n.chk) :
      Evidence env heard st id n
        ((env.storage.source st.disk n.fileSize).block env.suite n.depth n.position) st.disk
  | reply {reply : Block} {disk : Disk} (hheard : heard = some (id, reply))
      (hstatus : n.status = .pending)
      (hkey : env.suite.hash ((env.suite.decrypt n.chk.key reply).toList.take n.length) = n.chk.key)
      (hwrite : env.storage.write st.disk n.depth n.position
        ((env.suite.decrypt n.chk.key reply).toList.take n.length) = .ok disk) :
      Evidence env heard st id n (env.suite.decrypt n.chk.key reply) disk

/-- Leaves count as progress. -/
def metered (m : Meter) (n : Node) : Meter := if n.isInner then m else m.add n.length

/-- The last leaves of a download are asked for with more haste. -/
def haste (m : Meter) (n : Node) : List SchedulerCall :=
  if n.status = .pending ∧ n.inner? = none ∧
      crossesThreshold m.stats.progress (m.stats.progress + n.length) m.stats.fileSize then
    [.endgame]
  else []

/-- What the parent `p`, which is `m` by now, says once one of its children is no longer pending. -/
def told (t : Tree) (p : NodeId) (m : Node) : Tree × List SchedulerCall :=
  if m.status = .persistent then (t.set p m, [])
  else if pendingQueries (t.set p m) m = [] then
    (t.set p { m with status := .childrenPresent }, [.update p none])
  else (t.set p m, [.update p (some (superQuery (t.set p m) m))])

/-- A node whose children have all been started. -/
def settled (t : Tree) (id : NodeId) (n : Node) : Tree × List SchedulerCall :=
  if pendingQueries t n = [] then (t.set id { n with status := .childrenPresent }, [])
  else
    (t.set id { n with status := .superqueryPending }, [.request id .children (superQuery t n)])

def State.said (st : State) (calls : List SchedulerCall) : State :=
  { st with calls := st.calls ++ calls.toArray }

inductive Move (env : Env) (heard : Option (Nat × Block)) (st : State) : State → Prop
  | pad {t : Tree} (h : Tree.Padded st.tree t) : Move env heard st { st with tree := t }
  /-- A node that is not found locally waits for a reply. Only the root asks itself. -/
  | defer {id : Nat} {n : Node} (hn : st.tree.get? id = some n) (hstatus : n.status = .created) :
      Move env heard st <| State.said { st with tree := st.tree.set id { n with status := .pending } }
        (if n.parent.isNone then [.request id .own (Query.new [n.chk.query])] else [])
  | crown {id : Nat} {n : Node} {data : Block} {disk : Disk} (hn : st.tree.get? id = some n)
      (hparent : n.parent = none) (hknown : Evidence env heard st id n data disk)
      (htop : ∀ crc, env.topCrc = some crc → env.suite.checksum (n.admitted data).payload = crc) :
      Move env heard st <| State.said
        { st with
          tree := st.tree.set id (n.admitted data)
          disk := disk
          meter := metered st.meter n }
        (haste st.meter n ++ [.update id none])
  | adopt {id p slot : Nat} {n m : Node} {data : Block} {disk : Disk}
      (hn : st.tree.get? id = some n) (hparent : n.parent = some p)
      (hm : st.tree.get? p = some m) (hslot : m.child? slot = some id)
      (hknown : Evidence env heard st id n data disk)
      (hagrees : m.Agrees env.suite slot (n.admitted data)) :
      Move env heard st <| State.said
        { st with
          tree := (told (st.tree.set id (n.admitted data)) p
            (m.recorded env.suite slot (n.admitted data))).1
          disk := disk
          meter := metered st.meter n }
        (haste st.meter n ++ (told (st.tree.set id (n.admitted data)) p
          (m.recorded env.suite slot (n.admitted data))).2)
  | unfold {id : Nat} {n : Node} {ids : List NodeId} {t : Tree} (hn : st.tree.get? id = some n)
      (hstatus : n.status = .present) (hinner : n.isInner)
      (hchildren : (st.tree.set id { n with status := .persistent }).allocateChildren id =
        (some ids, t)) : Move env heard st { st with tree := t }
  | settle {id : Nat} {n : Node} (hn : st.tree.get? id = some n) (hstatus : n.status = .persistent)
      (hstarted : ∀ c ∈ n.childIds, ∀ b, st.tree.get? c = some b → b.status ≠ .created) :
      Move env heard st <| State.said { st with tree := (settled st.tree id n).1 }
        (settled st.tree id n).2
  | prune {id : Nat} {n : Node} (hn : st.tree.get? id = some n) (hchildless : n.childIds = [])
      (hstatus : n.status = .present ∧ n.inner? = none ∨ n.status = .childrenPresent) :
      Move env heard st <| State.said { st with tree := st.tree.pruned id n } [.release id]

/-- Any number of moves without a reply, one after the other. -/
abbrev Moves (env : Env) : State → State → Prop := Relation.ReflTransGen (Move env none)

/-- A checksum stands against a block that is otherwise known. -/
inductive Rejected (env : Env) (heard : Option (Nat × Block)) (st : State) : TreeError → Prop
  | top {id : Nat} {n : Node} {data : Block} {disk : Disk} {crc : UInt32}
      (hn : st.tree.get? id = some n) (hparent : n.parent = none)
      (hknown : Evidence env heard st id n data disk) (htop : env.topCrc = some crc)
      (hcrc : env.suite.checksum (n.admitted data).payload ≠ crc) :
      Rejected env heard st (.corrupted n.depth n.position .fileChecksum)
  | children {id p slot : Nat} {n m : Node} {data : Block} {disk : Disk}
      (hn : st.tree.get? id = some n) (hparent : n.parent = some p)
      (hm : st.tree.get? p = some m) (hslot : m.child? slot = some id)
      (hknown : Evidence env heard st id n data disk)
      (hcrcs : ¬ m.Agrees env.suite slot (n.admitted data)) :
      Rejected env heard st (.corrupted m.depth m.position .childChecksums)

/-! ### What admitting changes in a node -/

section Node

variable {n m : Node} (data : Block)

theorem like_admitted (n : Node) : n.Like (n.admitted data) := by
  unfold Node.admitted
  split
  · exact .of_kind rfl rfl rfl rfl rfl
  · exact (Node.like_setTable n _).trans (.of_kind rfl rfl rfl rfl rfl)

@[simp]
theorem status_admitted (n : Node) : (n.admitted data).status = .present := by
  unfold Node.admitted
  split <;> rfl

@[simp]
theorem data_admitted (n : Node) : (n.admitted data).data = some data := by
  unfold Node.admitted
  split <;> rfl

@[simp]
theorem chk_admitted (n : Node) : (n.admitted data).chk = n.chk := by
  cases hkind : n.kind <;>
    simp [Node.admitted, Node.inner?, hkind, Node.setTable, Node.modifyInner]

theorem payload_admitted (n : Node) : (n.admitted data).payload = data.toList.take n.length := by
  rw [Node.payload, Node.payload?, data_admitted, (like_admitted data n).length]
  rfl

theorem inner?_admitted {i : Inner} (h : n.inner? = some i) :
    (n.admitted data).inner? = some { i with
      crc := (InnerBlock.decode data i.childCount).crc
      table := some (InnerBlock.decode data i.childCount) } := by
  have hkind := Node.inner?_eq_some.1 h
  simp [Node.admitted, Node.inner?, hkind, Node.setTable, Node.modifyInner]

theorem length_crcsWith (s : Suite) (i : Inner) (slot : Nat) (child : Node) :
    (Node.crcsWith s i slot child).length = i.childCrcs.length := by
  simp [Node.crcsWith]

theorem like_recorded (s : Suite) (slot : Nat) (child : Node) : m.Like (m.recorded s slot child) := by
  unfold Node.recorded
  split
  · exact .refl m
  · rename_i i hinner
    have hinner' : m.Like (m.setInner { i with childCrcs := Node.crcsWith s i slot child }) :=
      Node.like_setInner hinner rfl rfl rfl rfl (length_crcsWith s i slot child)
    exact hinner'.trans (Node.like_data _ _)

@[simp]
theorem status_recorded (s : Suite) (slot : Nat) (child : Node) :
    (m.recorded s slot child).status = m.status := by
  unfold Node.recorded
  split <;> rfl

@[simp]
theorem chk_recorded (s : Suite) (slot : Nat) (child : Node) :
    (m.recorded s slot child).chk = m.chk := by
  unfold Node.recorded
  split <;> rfl

theorem inner?_recorded (s : Suite) (slot : Nat) (child : Node) {i : Inner} (h : m.inner? = some i) :
    (m.recorded s slot child).inner? =
      some { i with childCrcs := Node.crcsWith s i slot child } := by
  simp only [Node.recorded, h]
  rfl

end Node

theorem like_status (n : Node) (status : Status) : n.Like { n with status := status } :=
  .of_kind rfl rfl rfl rfl rfl

theorem retains_status (n : Node) (status : Status) : n.Retains { n with status := status } :=
  ⟨rfl, rfl, rfl, fun j hj => ⟨j, hj, rfl, rfl, rfl, rfl⟩⟩

theorem retains_withChildren {n : Node} {i : Inner} (h : n.inner? = some i) (status : Status)
    (base : Nat) : n.Retains (Tree.withChildren { n with status := status } i base) where
  depth := Tree.depth_withChildren (n := { n with status := status }) h base
  position := rfl
  chk := rfl
  inner j hj := by
    obtain rfl := Option.some.inj hj
    exact ⟨i, h, rfl, rfl, rfl, rfl⟩

theorem retains_withoutChild (m : Node) (slot : Nat) : m.Retains (Tree.withoutChild m slot) where
  depth := Tree.depth_withoutChild m slot
  position := Tree.position_withoutChild m slot
  chk := Tree.chk_withoutChild m slot
  inner j hj := by
    obtain ⟨i, hi, rfl⟩ := Option.map_eq_some_iff.1 (Tree.inner?_withoutChild m slot ▸ hj)
    exact ⟨i, hi, rfl, rfl, rfl, rfl⟩

end Download

end ContentTree

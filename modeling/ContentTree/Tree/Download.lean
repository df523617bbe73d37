import ContentTree.Scheduler
import ContentTree.Tree.Upload

/-!
A download walks a tree top down. Blocks that are already stored locally count as present; the rest
is asked for through calls to a scheduler, the root by its own query and other nodes by a query of
their parent for all its pending children. Replies come back through `receive`.
-/

namespace ContentTree.Download

structure Env where
  suite : Suite
  storage : Storage
  /-- The checksum that the root's plaintext must have. -/
  topCrc : Option UInt32

structure State where
  tree : Tree
  disk : Disk
  meter : Meter
  calls : Array SchedulerCall

/-- An operation keeps what it has done when it fails. -/
abbrev Step := ExceptT TreeError (StateM State)

def onTree (f : Tree → Tree) : Step Unit :=
  modify fun st => { st with tree := f st.tree }

def call (c : SchedulerCall) : Step Unit :=
  modify fun st => { st with calls := st.calls.push c }

def find? (id : NodeId) : Step (Option Node) := return (← get).tree.get? id

def node (id : NodeId) : Step Node := do
  match ← find? id with
  | some n => return n
  | none => throw (.unknownNode id)

/-- Frees a node and tells the scheduler of each node freed. -/
def free (id : NodeId) : Step Unit :=
  modify fun st =>
    let (freed, t) := st.tree.free id
    { st with tree := t, calls := st.calls ++ (freed.map SchedulerCall.release).toArray }

/-- Whether the node's own block is stored locally, judged by the node's key. A leaf found becomes
present and counts as progress; an inner node takes over its table. -/
def isPresent (env : Env) (id : NodeId) : Step Bool := do
  match ← find? id with
  | none => return false
  | some n =>
    match env.storage.readBlock (← get).disk n.depth n.position n.length with
    | .error _ =>
      onTree (·.setStatus id .notPresent)
      return false
    | .ok data =>
      if env.suite.hash (data.toList.take n.length) ≠ n.chk.key then
        onTree (·.setStatus id .notPresent)
        return false
      else
        match n.inner? with
        | none =>
          modify fun st =>
            { st with
              tree := st.tree.set id { n with data := some data, status := .present }
              meter := st.meter.add n.length }
        | some inner =>
          let table := InnerBlock.decode data inner.childCount
          onTree (·.set id (Node.setTable { n with data := some data } table))
        return true

/-- Inserts the part of the file below an inner node once more, as a tree apart that sends nothing.
If this gives the node's own pair, the node takes over the block found. -/
def recompute (env : Env) (id : NodeId) : Step Bool := do
  let n ← node id
  let st ← get
  let (copy, tree) := st.tree.alloc (Node.newInner n.fileSize n.position n.depth none)
  let walk : Upload.Env Unit :=
    { suite := env.suite
      disk := st.disk
      storage := env.storage
      direction := .insert
      priority := 0
      index := 0
      sink := Sink.discard }
  let (result, after) :=
    (Upload.run walk copy).run ⟨tree, Meter.new env.storage.size, ()⟩
  let found := result.toOption.bind fun _ =>
    (after.tree.get? copy).filter fun c => c.chk == n.chk
  let tree :=
    match found with
    | none => after.tree
    | some c =>
      after.tree.modify id fun n =>
        let n := { n with data := c.data }
        match c.inner?.bind Inner.table with
        | some table => n.setTable table
        | none => n.modifyInner fun i => { i with table := none }
  set { st with tree := (tree.free copy).2 }
  return found.isSome

/-- The root must match the checksum of the file. -/
def checkTop (env : Env) (id : NodeId) : Step Unit := do
  let st ← get
  match env.topCrc with
  | none => return
  | some expected =>
    if st.tree.root = some id then
      let n ← node id
      if env.suite.checksum n.payload ≠ expected then
        throw (.corrupted n.depth n.position .fileChecksum)

/-- Records the checksum of a present child. Once those of all children are known they must match
the parent's, and the parent's block is dropped. -/
def recordChild (env : Env) (parent child : NodeId) : Step Unit := do
  let c ← node child
  let p ← node parent
  match p.slotOf? c.position, p.inner? with
  | some slot, some inner =>
    let crc := (inner.childCrcs[slot]?.join).getD (env.suite.checksum c.payload)
    let crcs := inner.childCrcs.set slot (some crc)
    let p := p.setInner { inner with childCrcs := crcs }
    onTree (·.set parent p)
    if crcs.all Option.isSome then
      if env.suite.chain (crcs.filterMap id) ≠ inner.crc then
        throw (.corrupted p.depth p.position .childChecksums)
      onTree (·.set parent { p with data := none })
  | _, _ => return

/-- Query hashes of the pending children in slot order. -/
def pendingQueries (t : Tree) (n : Node) : List Digest :=
  (n.childIds.filterMap t.get?).filterMap fun c =>
    if c.status = .pending then some c.chk.query else none

/-- Asks for the pending children, replaces the query that does, or drops it when none is left. A
node whose children are still being started waits. -/
def refresh (id : NodeId) : Step Unit := do
  match ← find? id with
  | none => return
  | some n =>
    match n.inner? with
    | none => return
    | some inner =>
      if n.status = .persistent then return
      let pending := pendingQueries (← get).tree n
      let asked := n.status = .superqueryPending
      if pending.isEmpty then
        onTree (·.setStatus id .childrenPresent)
        if asked then call (.update id none)
      else
        let super := (inner.table.map InnerBlock.superHash).getD zeroDigest
        let query := Query.new (super :: pending)
        if asked then call (.update id (some query))
        else
          onTree (·.setStatus id .superqueryPending)
          call (.request id .children query)

/-- Frees an inner node that has no live child left. -/
def finish (id : NodeId) : Step Unit := do
  match ← find? id with
  | none => return
  | some n =>
    match n.inner? with
    | none => return
    | some inner =>
      if n.status ≠ .persistent ∧ inner.live = 0 then
        onTree (·.setStatus id .done)
        free id

/-- Starts the children of a present inner node, each by `start`. -/
def expand (start : NodeId → Step Unit) (id : NodeId) : Step Unit := do
  let _ ← node id
  onTree (·.setStatus id .persistent)
  let ids ← modifyGet fun st =>
    let (ids, t) := st.tree.allocateChildren id
    (ids.getD [], { st with tree := t })
  ids.forM fun child => do
    if (← find? child).isSome then start child
  let _ ← node id
  onTree (·.setStatus id .childrenPresent)
  refresh id
  finish id

/-- What follows once a node's block is verified and held in memory. -/
def arrive (env : Env) (start : NodeId → Step Unit) (id : NodeId) : Step Unit := do
  checkTop env id
  let n ← node id
  onTree (·.setStatus id .present)
  match n.parent with
  | some parent =>
    recordChild env parent id
    refresh parent
  | none => call (.update id none)
  if n.isInner then expand start id
  else
    onTree (·.setStatus id .done)
    free id

/-- Finds the node's block locally or leaves the node pending. `start` is for its children. -/
def visit (env : Env) (start : NodeId → Step Unit) (id : NodeId) : Step Unit := do
  let n ← node id
  let stored ← isPresent env id
  let present ← if stored then pure true
    else if n.isInner then recompute env id
    else pure false
  if present then arrive env start id
  else
    onTree (·.setStatus id .pending)
    if n.parent.isNone then call (.request id .own (Query.new [n.chk.query]))

/-- Visits a child of a node at depth `levels`, and what is below it. -/
def below (env : Env) : Nat → NodeId → Step Unit
  | 0, _ => return
  | levels + 1, id => visit env (below env levels) id

/-- Starts downloading the subtree at `id`. -/
def start (env : Env) (id : NodeId) : Step Unit := do
  let n ← node id
  visit env (below env n.depth) id

/-- Whether progress from `before` to `after` passes one of ten fractions of the file. -/
def crossesThreshold (before after fileSize : Nat) : Bool :=
  (List.range 10).any fun i =>
    let threshold := fileSize * (10000 - 1024 >>> i)
    threshold < after * 10000 ∧ before * 10000 ≤ threshold

/-- Takes a node's own block. Blocks for nodes that are not pending are ignored, and one that does
not decrypt to the content asked for changes nothing. -/
def receiveOwn (env : Env) (id : NodeId) (reply : Block) : Step Unit := do
  match ← find? id with
  | none => return
  | some n =>
    if n.status ≠ .pending then return
    let data := env.suite.decrypt n.chk.key reply
    let bytes := data.toList.take n.length
    if env.suite.hash bytes ≠ n.chk.key then
      throw (.corrupted n.depth n.position .content)
    match env.storage.write (← get).disk n.depth n.position bytes with
    | .error e => throw (.storage e)
    | .ok disk =>
      modify fun st => { st with disk := disk }
      match n.inner? with
      | some inner =>
        let table := InnerBlock.decode data inner.childCount
        onTree (·.set id (Node.setTable { n with data := some data } table))
      | none =>
        let before := (← get).meter.stats.progress
        modify fun st =>
          { st with
            tree := st.tree.set id { n with data := some data }
            meter := st.meter.add n.length }
        let stats := (← get).meter.stats
        if crossesThreshold before stats.progress stats.fileSize then call .endgame
      arrive env (below env n.depth) id

/-- The first pending child that asked for `query`, while the node's query for its children is
outstanding. -/
def pendingChild? (t : Tree) (id : NodeId) (query : Digest) : Option NodeId := do
  let n ← t.get? id
  if n.status ≠ .superqueryPending then none
  else n.childIds.find? fun c =>
    (t.get? c).any fun b => b.status = .pending ∧ b.chk.query = query

/-- Takes a reply that was routed to `id`. -/
def receive (env : Env) (id : NodeId) (handler : ReplyHandler) (query : Digest) (reply : Block) :
    Step Unit := do
  match handler with
  | .own => receiveOwn env id reply
  | .children =>
    match pendingChild? (← get).tree id query with
    | some child => receiveOwn env child reply
    | none => return

end ContentTree.Download

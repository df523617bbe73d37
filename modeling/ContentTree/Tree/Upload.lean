import ContentTree.Progress
import ContentTree.Tree
import ContentTree.Tree.Error

/-!
Insertion and deletion walk a subtree bottom up: they read the leaves from the file, and send each
block, or its index entry, after those of its children.
-/

namespace ContentTree

/-- Direction of a walk. -/
inductive Upload
  | insert
  | delete
  deriving DecidableEq, Repr

namespace Upload

def blockMessage : Upload → UInt32 → Block → ClientMessage
  | insert => .insert
  | delete => .delete

def indexMessage : Upload → IndexEntry → ClientMessage
  | insert => .index
  | delete => .unindex

def superMessage : Upload → UInt32 → Digest → ClientMessage
  | insert => .indexSuper
  | delete => .unindexSuper

/-- What a walk reads and where it sends. -/
structure Env (σ : Type) where
  suite : Suite
  disk : Disk
  storage : Storage
  direction : Upload
  priority : UInt32
  /-- The shared file whose leaves are indexed in place; 0 sends the content itself. -/
  index : UInt16
  sink : Sink σ

structure State (σ : Type) where
  tree : Tree
  meter : Meter
  sink : σ

/-- A walk keeps what it has done when it fails. -/
abbrev Walk (σ : Type) := ExceptT TreeError (StateM (State σ))

variable {σ : Type}

def onTree (f : Tree → Tree) : Walk σ Unit :=
  modify fun st => { st with tree := f st.tree }

def node (id : NodeId) : Walk σ Node := do
  match (← get).tree.get? id with
  | some n => return n
  | none => throw (.unknownNode id)

def submit (env : Env σ) (m : ClientMessage) : Walk σ (Except SinkError Unit) :=
  modifyGet fun st =>
    let (verdict, sink) := env.sink.submit m st.sink
    (verdict, { st with sink := sink })

def send (env : Env σ) (m : ClientMessage) : Walk σ Unit := do
  match ← submit env m with
  | .ok () => return
  | .error e => throw (.network e)

/-- Announces a super hash. An entry that was gone already does not stop a deletion. -/
def sendSuper (env : Env σ) (hash : Digest) : Walk σ Unit := do
  match ← submit env (env.direction.superMessage env.priority hash) with
  | .ok () => return
  | .error e => if env.direction = .delete ∧ e = .refused then return else throw (.network e)

end Upload

/-- The block of exactly `n` bytes at `position` on `level`. -/
def Storage.readBlock (s : Storage) (d : Disk) (level position n : Nat) : Except TreeError Block :=
  match s.read d level position n with
  | .error e => .error (.storage e)
  | .ok bs => if bs.length = n then .ok (fit 1024 bs)
    else .error (.shortRead level position bs.length n)

namespace Upload

variable {σ : Type}

def leaf (env : Env σ) (id : NodeId) : Walk σ Unit := do
  let n ← node id
  let data ← env.storage.readBlock env.disk 0 n.position n.length
  let (sealedNode, cipher) := Node.sealed env.suite { n with data := some data }
  modify fun st => { st with meter := st.meter.add n.length, tree := st.tree.set id sealedNode }
  send env <|
    if env.index = 0 then env.direction.blockMessage env.priority cipher
    else env.direction.indexMessage
      ⟨sealedNode.chk.query, env.priority, Lookup.sharedLeaf.code, env.index,
        UInt64.ofNat n.position⟩

/-- Walks each child, keeps its checksum and pair, and frees it. -/
def children (env : Env σ) (walk : NodeId → Walk σ Unit) :
    List NodeId → Walk σ (List (UInt32 × Chk))
  | [] => return []
  | id :: ids => do
    walk id
    let n ← node id
    onTree fun t => (t.free id).2
    return (env.suite.checksum n.payload, n.chk) :: (← children env walk ids)

def inner (env : Env σ) (walk : NodeId → Walk σ Unit) (id : NodeId) : Walk σ Unit := do
  onTree (·.setStatus id .persistent)
  let ids ← modifyGet fun st =>
    let (ids, t) := st.tree.allocateChildren id
    (ids.getD [], { st with tree := t })
  let results ← children env walk ids
  let block := InnerBlock.ofChildren env.suite (results.map Prod.snd)
    (env.suite.chain (results.map Prod.fst))
  if env.index ≠ 0 then sendSuper env block.superHash
  let n ← node id
  let (sealedNode, cipher) :=
    Node.sealed env.suite (Node.setTable { n with data := some block.encode } block)
  onTree (·.set id sealedNode)
  send env (env.direction.blockMessage env.priority cipher)

/-- Walks the subtree at `id`, whose depth is at most `levels`. -/
def subtree (env : Env σ) : Nat → NodeId → Walk σ Unit
  | levels, id => do
    let n ← node id
    if n.isInner then
      match levels with
      | 0 => return
      | levels + 1 => inner env (subtree env levels) id
    else leaf env id

def run (env : Env σ) (id : NodeId) : Walk σ Unit := do
  let n ← node id
  subtree env n.depth id

end Upload

end ContentTree

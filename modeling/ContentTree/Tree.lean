import ContentTree.Node

/-!
The nodes of one file's tree. A parent holds its children by number and each child holds its
parent's. Freeing a node frees its subtree and, upwards, every ancestor whose last live child it was
unless that ancestor is persistent.
-/

namespace ContentTree

structure Tree where
  /-- The node of each number handed out so far, until it is freed. -/
  nodes : Array (Option Node)
  root : Option NodeId
  fileSize : Nat

namespace Tree

def get? (t : Tree) (id : NodeId) : Option Node := t.nodes[id]?.join

def contains (t : Tree) (id : NodeId) : Bool := (t.get? id).isSome

/-- Number of live nodes. -/
def count (t : Tree) : Nat := t.nodes.countP Option.isSome

/-- The live nodes in order of their numbers. -/
def toList (t : Tree) : List (NodeId × Node) :=
  t.nodes.toList.zipIdx.filterMap fun (n, id) => n.map (id, ·)

def set (t : Tree) (id : NodeId) (n : Node) : Tree :=
  { t with nodes := t.nodes.setIfInBounds id (some n) }

def modify (t : Tree) (id : NodeId) (f : Node → Node) : Tree :=
  match t.get? id with
  | some n => t.set id (f n)
  | none => t

def erase (t : Tree) (id : NodeId) : Tree :=
  { t with nodes := t.nodes.setIfInBounds id none }

def setStatus (t : Tree) (id : NodeId) (s : Status) : Tree :=
  t.modify id fun n => { n with status := s }

/-- Adds a node under the next number. -/
def alloc (t : Tree) (n : Node) : NodeId × Tree :=
  (t.nodes.size, { t with nodes := t.nodes.push (some n) })

/-- The tree over a file of which only the root exists. -/
def new (fileSize : Nat) : Tree where
  nodes := #[some (Node.new fileSize 0 (treeDepth fileSize) none)]
  root := some 0
  fileSize := fileSize

/-- A tree whose root carries the hashes of an inserted file. -/
def forDownload (f : FileIdentifier) : Tree :=
  (new f.length.toNat).modify 0 fun n => { n with chk := f.chk }

/-- The child in slot `i` of a node: its part of the file, and its pair if the node's table is
known. -/
def newChild (id : NodeId) (n : Node) (inner : Inner) (i : Nat) : Node :=
  let child := Node.new n.fileSize (n.position + i * coverage (inner.depth - 1)) (inner.depth - 1)
    (some id)
  match inner.table.bind (·.chks[i]?) with
  | some chk => { child with chk := chk }
  | none => child

def allocMany : List Node → Tree → List NodeId × Tree
  | [], t => ([], t)
  | n :: ns, t =>
    let (id, t) := t.alloc n
    let (ids, t) := allocMany ns t
    (id :: ids, t)

/-- Creates the children of an inner node unless they have been created before. Gives the live
children in slot order, or nothing for an unknown node. -/
def allocateChildren (t : Tree) (id : NodeId) : Option (List NodeId) × Tree :=
  match t.get? id with
  | none => (none, t)
  | some n =>
    match n.inner? with
    | none => (some [], t)
    | some inner =>
      if inner.children.isSome then (some n.childIds, t)
      else
        let (ids, t) := allocMany ((List.range inner.childCount).map (newChild id n inner)) t
        let t := t.modify id fun n => n.modifyInner fun i =>
          { i with children := some (ids.map some), live := ids.length }
        (some ids, t)

/-- Applies a freeing step to each of `ids` in turn. -/
def freeEach (free : Tree → NodeId → List NodeId × Tree) (t : Tree) :
    List NodeId → List NodeId × Tree
  | [] => ([], t)
  | id :: ids =>
    let (first, t) := free t id
    let (rest, t) := freeEach free t ids
    (first ++ rest, t)

/-- Frees `id` and what is below it, down to `levels` levels. Gives the freed nodes, each before its
children. -/
def freeBelow : Nat → Tree → NodeId → List NodeId × Tree
  | levels, t, id =>
    match t.get? id with
    | none => ([], t)
    | some n =>
      let (freed, t) :=
        match levels with
        | 0 => ([], t.erase id)
        | levels + 1 => freeEach (freeBelow levels) (t.erase id) n.childIds
      (id :: freed, t)

/-- Empties the slot of `parent` that leads to `position`. The answer says whether the parent is
left without live children and may be freed. -/
def detach (t : Tree) (parent : NodeId) (position : Nat) : Bool × Tree :=
  match t.get? parent with
  | none => (false, t)
  | some n =>
    match n.inner?, n.slotOf? position with
    | some inner, some slot =>
      match inner.children with
      | none => (false, t)
      | some slots =>
        let live := if (slots[slot]?.join).isSome then inner.live - 1 else inner.live
        let inner := { inner with children := some (slots.set slot none), live := live }
        (live = 0 ∧ n.status ≠ .persistent, t.set parent (n.setInner inner))
    | _, _ => (false, t)

/-- Frees `id`, its subtree and the ancestors that this leaves empty, up to `levels` of them. -/
def freeUp : Nat → Tree → NodeId → List NodeId × Tree
  | levels, t, id =>
    match t.get? id with
    | none => ([], t)
    | some n =>
      let (freed, t) := freeBelow n.depth t id
      let t := if t.root = some id then { t with root := none } else t
      match n.parent with
      | none => (freed, t)
      | some parent =>
        let (emptied, t) := t.detach parent n.position
        match levels, emptied with
        | levels + 1, true =>
          let (above, t) := freeUp levels t parent
          (freed ++ above, t)
        | _, _ => (freed, t)

/-- Frees a node: its subtree, and each ancestor that is left without live children and is not
persistent. Gives the freed nodes in order. -/
def free (t : Tree) (id : NodeId) : List NodeId × Tree := t.freeUp (treeDepth t.fileSize) id

/-- One line for a node and one for each node below it. -/
def render : Nat → Tree → NodeId → Nat → List String
  | levels, t, id, indent =>
    match t.get? id with
    | none => []
    | some n =>
      let kind := if n.isInner then "IBlock" else "DBlock"
      let pad := String.ofList (List.replicate indent ' ')
      let line := s!"{pad}{kind} #{id} pos={n.position} len={n.length} depth={n.depth} " ++
        s!"status={n.status.name} query={n.chk.query.toHex}"
      line :: match levels with
        | 0 => []
        | levels + 1 => n.childIds.flatMap fun c => render levels t c (indent + 2)

/-- The lines of the subtree at `id`. -/
def print (t : Tree) (id : NodeId) (indent : Nat) : List String :=
  t.render (treeDepth t.fileSize) id indent

end Tree

end ContentTree

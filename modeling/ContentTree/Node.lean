import ContentTree.InnerBlock

/-!
Nodes of the tree over a file.
-/

namespace ContentTree

/-- The number of a node in its tree. Numbers are handed out in order and never again. -/
abbrev NodeId := Nat

inductive Status
  | created
  | present
  | notPresent
  | pending
  | childrenPresent
  | superqueryPending
  | done
  /-- Not freed when the last child goes away. -/
  | persistent
  deriving DecidableEq, Repr

def Status.name : Status → String
  | .created => "Created"
  | .present => "Present"
  | .notPresent => "NotPresent"
  | .pending => "Pending"
  | .childrenPresent => "ChildrenPresent"
  | .superqueryPending => "SuperqueryPending"
  | .done => "Done"
  | .persistent => "Persistent"

structure Inner where
  depth : Nat
  childCount : Nat
  /-- A slot per child once the children have been allocated, emptied when the child is freed. -/
  children : Option (List (Option NodeId))
  /-- Number of slots in use. -/
  live : Nat
  crc : UInt32
  table : Option InnerBlock
  /-- Checksum of each child's plaintext, recorded as the children become present. -/
  childCrcs : List (Option UInt32)

inductive Kind
  | leaf
  | inner (i : Inner)

structure Node where
  fileSize : Nat
  /-- First byte of the file that the node covers. -/
  position : Nat
  chk : Chk
  /-- Meaningful bytes of the block. -/
  length : Nat
  data : Option Block
  parent : Option NodeId
  status : Status
  kind : Kind

namespace Node

def newLeaf (fileSize position : Nat) (parent : Option NodeId) : Node where
  fileSize := fileSize
  position := position
  chk := .zero
  length := leafLength fileSize position
  data := none
  parent := parent
  status := .created
  kind := .leaf

def newInner (fileSize position depth : Nat) (parent : Option NodeId) : Node :=
  let count := childCount fileSize position depth
  { fileSize := fileSize
    position := position
    chk := .zero
    length := innerLength count
    data := none
    parent := parent
    status := .created
    kind := .inner ⟨depth, count, none, 0, 0, none, List.replicate count none⟩ }

/-- A fresh node: a leaf at depth 0, an inner node above. -/
def new (fileSize position depth : Nat) (parent : Option NodeId) : Node :=
  if depth = 0 then newLeaf fileSize position parent else newInner fileSize position depth parent

def inner? (n : Node) : Option Inner :=
  match n.kind with
  | .leaf => none
  | .inner i => some i

def isInner (n : Node) : Bool := n.inner?.isSome

def depth (n : Node) : Nat := (n.inner?.map Inner.depth).getD 0

def childCount (n : Node) : Nat := (n.inner?.map Inner.childCount).getD 0

def setInner (n : Node) (i : Inner) : Node := { n with kind := .inner i }

def modifyInner (n : Node) (f : Inner → Inner) : Node :=
  match n.kind with
  | .leaf => n
  | .inner i => { n with kind := .inner (f i) }

/-- The child slots, if allocated. -/
def slots? (n : Node) : Option (List (Option NodeId)) := n.inner?.bind Inner.children

/-- The live children in slot order. -/
def childIds (n : Node) : List NodeId := (n.slots?.getD []).filterMap id

/-- The plaintext held in memory. -/
def payload? (n : Node) : Option Bytes := n.data.map fun b => b.toList.take n.length

def payload (n : Node) : Bytes := n.payload?.getD []

/-- The slot that leads to the part of the file at `position`. -/
def slotOf? (n : Node) (position : Nat) : Option Nat :=
  if n.depth = 0 ∨ position < n.position then none
  else
    let slot := (position - n.position) / coverage (n.depth - 1)
    if slot < n.childCount then some slot else none

/-- Records a decoded table and its checksum. -/
def setTable (n : Node) (t : InnerBlock) : Node :=
  n.modifyInner fun i => { i with crc := t.crc, table := some t }

/-- Hashes and encrypts the plaintext, a zero block if none is held, and takes over the resulting
pair. -/
def sealed (s : Suite) (n : Node) : Node × Block :=
  let data := n.data.getD zeroBlock
  let key := s.hash (data.toList.take n.length)
  let cipher := s.encrypt key data
  ({ n with data := some data, chk := ⟨key, s.hash cipher.toList⟩ }, cipher)

end Node

end ContentTree

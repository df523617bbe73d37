import ContentTree.MemoryDaemon
import ContentTree.Random.ChaCha
import ContentTree.Replay
import Std.Data.HashMap

/-!
A workbench keeps storages, contexts, trees and identifiers under names, on one disk. It also keeps
the blocks that have passed over it, one queue, one request table with its clock, and one daemon. A
step that uses a name without a meaning fails.
-/

namespace ContentTree

structure OpenStorage where
  /-- Tells openings under one name apart. -/
  serial : Nat
  storage : Storage

/-- What operations on a tree need besides the tree. -/
structure Context where
  opened : OpenStorage
  priority : UInt32
  index : UInt16
  topCrc : Option UInt32
  meter : Meter
  /-- Number of reports that have been asked for. -/
  seen : Nat

structure Workbench where
  disk : Disk
  openings : Nat
  storages : List (String × OpenStorage)
  contexts : List (String × Context)
  trees : List (String × Tree)
  identifiers : List (String × FileIdentifier)
  sealedChks : List (String × (Chk × UInt32))
  blocks : Array Block
  /-- The same blocks by their hashes as numbers. -/
  byHash : Std.HashMap Nat Block
  queue : QueryQueue
  /-- Calls to the queue that have not been asked for yet. -/
  calls : Array SchedulerCall
  table : Option (RequestTable ChaCha)
  clock : Int
  daemon : MemoryDaemon

namespace Workbench

def new : Workbench where
  disk := .inner
  openings := 0
  storages := []
  contexts := []
  trees := []
  identifiers := []
  sealedChks := []
  blocks := #[]
  byHash := {}
  queue := []
  calls := #[]
  table := none
  clock := 0
  daemon := .new ⟨false, false, false⟩

def store (w : Workbench) : Replay.Store := fun d => w.byHash[ofBigEndian d.toList]?

/-- The pair sealed under a name, with the checksum of its plaintext. -/
def chkOf (w : Workbench) (name : String) : Chk × UInt32 :=
  (w.sealedChks.lookup name).getD (.zero, 0)

end Workbench

abbrev Work := OptionT (StateM Workbench)

namespace Work

/-- What a name means among `entries`. -/
def named {α : Type} (name : String) (entries : Workbench → List (String × α)) : Work α :=
  OptionT.mk do return (entries (← get)).lookup name

def rebind {α : Type} (name : String) (a : α) (entries : List (String × α)) : List (String × α) :=
  (name, a) :: entries.filter (·.1 ≠ name)

def keepBlock (b : Block) : Work Unit := modify fun w =>
  { w with
    blocks := w.blocks.push b
    byHash := w.byHash.insert (ofBigEndian (Suite.standard.hash b.toList).toList) b }

/-- Keeps the blocks among messages that insert some. -/
def keepInserted (sent : Array ClientMessage) : Work Unit :=
  sent.forM fun m => match m with
    | .insert _ b => keepBlock b
    | _ => return

/-- Changes the disk, if that succeeds. -/
def onDisk (f : Disk → Except IoKind Disk) : Work Bool := do
  match f (← get).disk with
  | .ok d =>
    modify fun w => { w with disk := d }
    return true
  | .error _ => return false

def openStorage (name path : String) (size : Nat) (readOnly : Bool) :
    Work (Except StorageError Storage) := do
  let w ← get
  let (result, disk) := if readOnly then (Storage.openReadable w.disk size path, w.disk)
    else Storage.openWritable w.disk size path
  set { w with disk := disk }
  match result with
  | .error e => return .error e
  | .ok s =>
    modify fun w =>
      { w with
        openings := w.openings + 1
        storages := rebind name ⟨w.openings, s⟩ w.storages }
    return .ok s

def readStorage (name : String) (level position n : Nat) : Work (Except StorageError Bytes) := do
  let s ← named name Workbench.storages
  return s.storage.read (← get).disk level position n

def writeStorage (name : String) (level position : Nat) (bs : Bytes) :
    Work (Except StorageError Unit) := do
  let s ← named name Workbench.storages
  match s.storage.write (← get).disk level position bs with
  | .error e => return .error e
  | .ok d =>
    modify fun w => { w with disk := d }
    return .ok ()

/-- Closes a storage unless some context still uses it. -/
def closeStorage (name : String) (unlink : Bool) : Work Bool := do
  let s ← named name Workbench.storages
  let w ← get
  if w.contexts.any (·.2.opened.serial = s.serial) then return false
  set { w with
    storages := w.storages.filter (·.1 ≠ name)
    disk := if unlink then s.storage.unlink w.disk else w.disk }
  return true

def putContext (name : String) (c : Context) : Work Unit :=
  modify fun w => { w with contexts := rebind name c w.contexts }

def addContext (name storage : String) (priority : UInt32) (index : UInt16)
    (topCrc : Option UInt32) : Work Progress := do
  let s ← named storage Workbench.storages
  putContext name ⟨s, priority, index, topCrc, .new s.storage.size, 0⟩
  return .new s.storage.size

/-- The reports of a context since they were last asked for. -/
def takeReports (name : String) : Work (List Nat) := do
  let c ← named name Workbench.contexts
  putContext name { c with seen := c.meter.reports.size }
  return c.meter.reports.toList.drop c.seen

def putTree (name : String) (t : Tree) : Work Unit :=
  modify fun w => { w with trees := rebind name t w.trees }

def putIdentifier (name : String) (f : FileIdentifier) : Work Unit :=
  modify fun w => { w with identifiers := rebind name f w.identifiers }

/-- Seals a block whose first `n` bytes count. -/
def sealBlock (name : String) (plain : Block) (n : Nat) : Work Chk := do
  let s := Suite.standard
  let content := plain.toList.take n
  let key := s.hash content
  let cipher := s.encrypt key plain
  let chk : Chk := ⟨key, s.hash cipher.toList⟩
  keepBlock cipher
  modify fun w => { w with sealedChks := rebind name (chk, s.checksum content) w.sealedChks }
  return chk

/-- Seals the block of an inner node over pairs that have been sealed before. -/
def sealInner (name : String) (children : List String) (crc : Option UInt32) (n : Option Nat) :
    Work Chk := do
  let parts := children.map (← get).chkOf
  let crc := crc.getD (Suite.standard.chain (parts.map Prod.snd))
  let block := InnerBlock.ofChildren Suite.standard (parts.map Prod.fst) crc
  sealBlock name block.encode (n.getD (innerLength parts.length))

end Work

end ContentTree

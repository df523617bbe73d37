import ContentTree.Settings
import ContentTree.Transport
import ContentTree.Tree.Upload

/-!
Whole files: inserting one, computing its identifier, and deleting it again.
-/

namespace ContentTree

inductive ClientError
  | tree (e : TreeError)
  | transport (e : TransportError)
  | storage (e : StorageError)
  | io (kind : IoKind)
  /-- The local file is not the one with this identifier. -/
  | mismatch (expected : FileIdentifier)
  deriving DecidableEq

namespace ClientError

def message? : ClientError → Option String
  | tree e => e.message?.map fun text => s!"Block tree error: {text}"
  | transport (.connectionFailed _) => none
  | transport e => some s!"Transport error: {e.message}"
  | storage e => e.message?.map fun text => s!"Storage error: {text}"
  | io _ => none
  | mismatch expected => some s!"Local file does not match {expected.toText}"

def isCorruption : ClientError → Bool
  | tree e => e.isCorruption
  | _ => false

end ClientError

structure InsertOptions where
  priority : UInt32
  /-- Index of the file among the daemon's shared files; 0 uploads the content. -/
  index : UInt16

/-- The file index applies only where indexing is enabled. -/
def InsertOptions.ofSettings (s : ContentSettings) (fileIndex : UInt16) : InsertOptions :=
  ⟨s.priority, if s.index then fileIndex else 0⟩

namespace Files

variable {σ : Type}

/-- The walk over the file at `path` and its initial state. Files of a single block are always
uploaded. -/
def openWalk (s : Suite) (d : Disk) (path : String) (opts : InsertOptions) (direction : Upload)
    (sink : Sink σ) (state : σ) : Except ClientError (Upload.Env σ × Upload.State σ) := do
  let size ← (d.length path).mapError .io
  let storage ← (Storage.openReadable d size path).mapError .storage
  return (
    { suite := s
      disk := d
      storage := storage
      direction := direction
      priority := opts.priority
      index := if size ≤ leafCapacity then 0 else opts.index
      sink := sink },
    ⟨Tree.new size, Meter.new size, state⟩)

/-- The identifier that a finished insertion gives. -/
def identifierOf (s : Suite) (size : Nat) (root : Node) : FileIdentifier :=
  ⟨root.chk, s.checksum root.payload, UInt64.ofNat size⟩

/-- Walks the whole tree and frees it, whether the walk succeeds or not. Gives the root as it was
before. -/
def walkAll (env : Upload.Env σ) (start : Upload.State σ) :
    Except TreeError Node × Upload.State σ :=
  let walk : Upload.Walk σ Node := do
    Upload.run env 0
    Upload.node 0
  let (result, after) := walk.run start
  (result, { after with tree := (after.tree.free 0).2 })

/-- Inserts (or indexes) the file at `path`. -/
def insert (s : Suite) (d : Disk) (path : String) (opts : InsertOptions) (sink : Sink σ)
    (state : σ) : Except ClientError FileIdentifier × σ :=
  match openWalk s d path opts .insert sink state with
  | .error e => (.error e, state)
  | .ok (env, start) =>
    let (result, after) := walkAll env start
    ((result.map (identifierOf s env.storage.size)).mapError .tree, after.sink)

/-- Computes the identifier of the file at `path` without a daemon. -/
def identify (s : Suite) (d : Disk) (path : String) (opts : InsertOptions) :
    Except ClientError FileIdentifier :=
  (insert s d path opts Sink.discard ()).1

/-- Removes the file at `path` from the daemon. With an identifier expected, nothing is deleted
unless the file still has it. -/
def delete (s : Suite) (d : Disk) (path : String) (opts : InsertOptions)
    (expected : Option FileIdentifier) (sink : Sink σ) (state : σ) : Except ClientError Unit × σ :=
  let agreed : Except ClientError Unit :=
    match expected with
    | none => .ok ()
    | some f =>
      match identify s d path opts with
      | .error e => .error e
      | .ok actual => if actual = f then .ok () else .error (.mismatch f)
  match agreed with
  | .error e => (.error e, state)
  | .ok () =>
    match openWalk s d path opts .delete sink state with
    | .error e => (.error e, state)
    | .ok (env, start) =>
      let (result, after) := walkAll env start
      ((result.map fun _ => ()).mapError .tree, after.sink)

end Files

end ContentTree

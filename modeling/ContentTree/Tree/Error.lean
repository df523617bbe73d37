import ContentTree.Sink
import ContentTree.Storage
import ContentTree.Node

/-!
How an operation on a tree fails.
-/

namespace ContentTree

inductive Corruption
  | content
  | fileChecksum
  | childChecksums
  deriving DecidableEq, Repr

def Corruption.reason : Corruption → String
  | .content => "content hash mismatch"
  | .fileChecksum => "root does not match file CRC"
  | .childChecksums => "children do not match stored CRC"

inductive TreeError
  | storage (e : StorageError)
  | shortRead (level position read expected : Nat)
  | network (e : SinkError)
  | corrupted (level position : Nat) (cause : Corruption)
  | unknownNode (id : NodeId)
  deriving DecidableEq, Repr

/-- The text of a storage error, apart from those that only name a fault of the disk. -/
def StorageError.message? : StorageError → Option String
  | .levelUnavailable level => some s!"Level {level} is not available"
  | _ => none

namespace TreeError

def message? : TreeError → Option String
  | storage e => e.message?.map fun text => s!"Storage error: {text}"
  | shortRead level position read expected =>
    some s!"Short read at level {level}, position {position}: {read} of {expected} bytes"
  | network e => some s!"Network error: {e.message}"
  | corrupted level position cause =>
    some s!"Corrupted block at level {level}, position {position}: {cause.reason}"
  | unknownNode id => some s!"Unknown node #{id}"

/-- Content failed verification. -/
def isCorruption : TreeError → Bool
  | corrupted .. => true
  | _ => false

/-- The local disk failed. -/
def isLocal : TreeError → Bool
  | storage _ | shortRead .. => true
  | _ => false

end TreeError

end ContentTree

import ContentTree.Bytes

/-!
Messages between a client and the storage daemon.
-/

namespace ContentTree

/-- A query for blocks. One hash is a plain query; of several, the first stands for the batch. -/
structure Query where
  priority : UInt32
  /-- Time to live in milliseconds. -/
  ttl : Int32
  hashes : List Digest
  deriving DecidableEq

namespace Query

def new (hashes : List Digest) : Query := ⟨1, 1, hashes⟩

def contains (q : Query) (hash : Digest) : Bool := q.hashes.contains hash

end Query

/-- What an entry of the daemon's index refers to. -/
inductive Lookup
  | block
  | sharedLeaf
  | superHash

def Lookup.code : Lookup → UInt16
  | .block => 1
  | .sharedLeaf => 2
  | .superHash => 4

/-- A block of a locally shared file. -/
structure IndexEntry where
  hash : Digest
  priority : UInt32
  lookup : UInt16
  fileIndex : UInt16
  offset : UInt64
  deriving DecidableEq

inductive ClientMessage
  | query (q : Query)
  | insert (priority : UInt32) (block : Block)
  | delete (priority : UInt32) (block : Block)
  | index (entry : IndexEntry)
  | unindex (entry : IndexEntry)
  | indexSuper (priority : UInt32) (hash : Digest)
  | unindexSuper (priority : UInt32) (hash : Digest)
  | averagePriority
  deriving DecidableEq

inductive DaemonMessage
  | returnValue (value : Int32)
  | result (block : Block)
  deriving DecidableEq

end ContentTree

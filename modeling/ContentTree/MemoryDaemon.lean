import ContentTree.Sink
import ContentTree.Suite
import ContentTree.Transport

/-!
A storage daemon in memory. It keeps inserted blocks under their hashes and answers queries from
them, and can duplicate, corrupt or withhold its answers.
-/

namespace ContentTree

structure DaemonOptions where
  /-- Send every reply twice. -/
  duplicate : Bool
  /-- Flip a byte in every reply. -/
  corrupt : Bool
  /-- Acknowledge queries but never answer them. -/
  silent : Bool
  deriving DecidableEq, Repr

structure MemoryDaemon where
  options : DaemonOptions
  blocks : List (Digest × Block)
  indexed : List (Digest × IndexEntry)
  supers : List Digest
  /-- What the client has still to receive. -/
  replies : List (Except TransportError DaemonMessage)
  closed : Bool
  /-- Queries received over the connection. -/
  queries : Nat
  resets : Nat

namespace MemoryDaemon

def new (options : DaemonOptions) : MemoryDaemon := ⟨options, [], [], [], [], false, 0, 0⟩

def put {α : Type} (key : Digest) (value : α) : List (Digest × α) → List (Digest × α)
  | [] => [(key, value)]
  | e :: es => if e.1 = key then (key, value) :: es else e :: put key value es

def erase {α : Type} (key : Digest) (es : List (Digest × α)) : List (Digest × α) :=
  es.filter (·.1 ≠ key)

def hasBlock (d : MemoryDaemon) (query : Digest) : Bool := (d.blocks.lookup query).isSome

/-- Follows a message on the store. What is not there cannot be removed. -/
def apply (s : Suite) (d : MemoryDaemon) : ClientMessage → Bool × MemoryDaemon
  | .insert _ b => (true, { d with blocks := put (s.hash b.toList) b d.blocks })
  | .delete _ b =>
    let key := s.hash b.toList
    ((d.blocks.lookup key).isSome, { d with blocks := erase key d.blocks })
  | .index e => (true, { d with indexed := put e.hash e d.indexed })
  | .unindex e => ((d.indexed.lookup e.hash).isSome, { d with indexed := erase e.hash d.indexed })
  | .indexSuper _ h => (true, if h ∈ d.supers then d else { d with supers := d.supers ++ [h] })
  | .unindexSuper _ h => (h ∈ d.supers, { d with supers := d.supers.erase h })
  | .query _ | .averagePriority => (true, d)

def flipFirst (b : Block) : Block :=
  match b.toList with
  | [] => b
  | x :: xs => fit 1024 ((x ^^^ 0xff) :: xs)

/-- The replies to a query: the blocks stored under its hashes, in their order. -/
def answers (d : MemoryDaemon) (hashes : List Digest) : List DaemonMessage :=
  (hashes.filterMap fun h => d.blocks.lookup h).flatMap fun b =>
    let b := if d.options.corrupt then flipFirst b else b
    List.replicate (if d.options.duplicate then 2 else 1) (.result b)

def submit (s : Suite) (m : ClientMessage) (d : MemoryDaemon) :
    Except SinkError Unit × MemoryDaemon :=
  if d.closed then (.error (.unreachable "loopback closed"), d)
  else
    let (ok, d) := d.apply s m
    (if ok then .ok () else .error .refused, d)

def sink (s : Suite) : Sink MemoryDaemon := ⟨submit s⟩

def enqueue (d : MemoryDaemon) (ms : List DaemonMessage) : MemoryDaemon :=
  { d with replies := d.replies ++ ms.map .ok }

/-- Takes a message over the connection: a return value first, then the answers to a query. -/
def send (s : Suite) (m : ClientMessage) (d : MemoryDaemon) :
    Except TransportError Unit × MemoryDaemon :=
  if d.closed then (.error .notConnected, d)
  else
    let (ok, d) := d.apply s m
    let value : Int32 :=
      if m = .averagePriority then 0 else if ok then 1 else -1
    let d := d.enqueue [.returnValue value]
    match m with
    | .query q =>
      let d := { d with queries := d.queries + 1 }
      (.ok (), if d.options.silent then d else d.enqueue (d.answers q.hashes))
    | _ => (.ok (), d)

def receive (d : MemoryDaemon) : Option (Except TransportError DaemonMessage) × MemoryDaemon :=
  if d.closed then (some (.error .notConnected), d)
  else
    match d.replies with
    | [] => (none, d)
    | r :: rs => (some r, { d with replies := rs })

def reset (d : MemoryDaemon) : Except TransportError Unit × MemoryDaemon :=
  (.ok (), { d with resets := d.resets + 1 })

def close (d : MemoryDaemon) : MemoryDaemon := { d with closed := true }

def connection (s : Suite) : Connection MemoryDaemon := ⟨send s, receive, reset, close⟩

end MemoryDaemon

end ContentTree

import ContentTree.Progress
import ContentTree.Random
import ContentTree.Requests.Tuning
import ContentTree.Scheduler
import ContentTree.Wire

/-!
The outstanding queries of one download, at most one per node, and the sends that wait for the
daemon's verdict. Sends are judged in the order in which they were made.
-/

namespace ContentTree

structure Request where
  node : NodeId
  handler : ReplyHandler
  query : Query
  /-- When the request counts as sent; nothing before the first send. -/
  lastSend : Option Int
  tries : Nat
  /-- Replies since the last retransmission. -/
  replies : Nat
  deriving DecidableEq

/-- When the time to live of the last send is over. -/
def Request.expires (e : Request) : Option Int := e.lastSend.map (· + e.query.ttl.toInt)

/-- What a send changed, so that it can be undone if the daemon never accepted it. -/
structure Unresolved where
  /-- Nothing once the request is gone. -/
  node : Option NodeId
  ttl : Int32
  priority : UInt32
  lastSend : Option Int
  deriving DecidableEq

structure RequestStats where
  sent : Nat
  pending : Nat
  currentRetries : Nat
  totalRetries : Nat
  currentTtl : Nat
  duplicates : Nat
  deriving DecidableEq, Repr

/-- Copies the request counters. -/
def RequestStats.applyTo (s : RequestStats) (p : Progress) : Progress :=
  { p with
    requestsSent := s.sent
    requestsPending := s.pending
    currentRetries := s.currentRetries
    totalRetries := s.totalRetries
    currentTtl := s.currentTtl
    duplicates := s.duplicates }

structure RequestTable (ρ : Type) where
  tuning : Tuning
  requests : List Request
  unresolved : List Unresolved
  window : Nat
  threshold : Nat
  /-- Running estimate of the time to live that a query needs. -/
  initialTtl : Nat
  lastCongestion : Option Int
  stats : RequestStats
  now : Int
  /-- A request was queued since the last pass. -/
  wake : Bool
  random : ρ
  policy : Policy
  /-- Average priority that the daemon sees. -/
  average : Nat

namespace RequestTable

variable {ρ : Type}

def new (tuning : Tuning) (random : ρ) (policy : Policy) (average : Nat) : RequestTable ρ where
  tuning := tuning
  requests := []
  unresolved := []
  window := tuning.initialWindow
  threshold := tuning.initialThreshold
  initialTtl := tuning.initialTtl
  lastCongestion := none
  stats := ⟨0, 0, 0, 0, 0, 0⟩
  now := 0
  wake := false
  random := random
  policy := policy
  average := average

def decrement (t : RequestTable ρ) : Int := signed64 t.tuning.ttlDecrement

def tick (t : RequestTable ρ) (now : Int) : RequestTable ρ := { t with now := now }

def contains (t : RequestTable ρ) (node : NodeId) : Bool := t.requests.any (·.node = node)

def position? (t : RequestTable ρ) (node : NodeId) : Option Nat :=
  t.requests.findIdx? (·.node = node)

def observe (t : RequestTable ρ) (average : Nat) : RequestTable ρ := { t with average := average }

def recordTraffic (t : RequestTable ρ) (kind : Option TrafficKind) (bytes peers : Nat) :
    RequestTable ρ :=
  { t with policy := t.policy.record kind bytes peers }

/-- Whether a request was queued since this was last asked. -/
def takeWake (t : RequestTable ρ) : Bool × RequestTable ρ := (t.wake, { t with wake := false })

/-- Changes the first request of `node`. -/
def modifyFirst (f : Request → Request) (node : NodeId) : List Request → List Request
  | [] => []
  | e :: es => if e.node = node then f e :: es else e :: modifyFirst f node es

/-- Removes position `j`; the last element takes its place. -/
def swapRemove (es : List Request) (j : Nat) : List Request :=
  match es.getLast? with
  | none => []
  | some last => (es.set j last).dropLast

/-- Drops the request at position `j`. Its retries no longer count, and the sends it made are
judged without effect. -/
def removeAt (t : RequestTable ρ) (j : Nat) : RequestTable ρ :=
  match t.requests[j]? with
  | none => t
  | some e =>
    { t with
      requests := swapRemove t.requests j
      stats := { t.stats with currentRetries := t.stats.currentRetries - (e.tries - 1) }
      unresolved := t.unresolved.map fun u =>
        if u.node = some e.node then { u with node := none } else u }

def remove (t : RequestTable ρ) (node : NodeId) : RequestTable ρ :=
  match t.position? node with
  | some j => t.removeAt j
  | none => t

/-- Follows a call of the tree. A query that is replaced keeps its priority and time to live, and
counts as sent a little later than now. -/
def call (t : RequestTable ρ) : SchedulerCall → RequestTable ρ
  | .request node handler query =>
    { t with requests := t.requests ++ [⟨node, handler, query, none, 0, 0⟩], wake := true }
  | .update node (some query) =>
    let refreshed (e : Request) : Request :=
      { e with
        query := ⟨e.query.priority, e.query.ttl, query.hashes⟩
        replies := e.replies + 1
        lastSend := some (t.now + 2 * t.decrement) }
    { t with requests := modifyFirst refreshed node t.requests }
  | .update node none => t.remove node
  | .endgame =>
    let halved (e : Request) : Request :=
      { e with query := { e.query with ttl := Int32.ofInt (e.query.ttl.toInt.tdiv 2) } }
    { t with requests := t.requests.map halved }
  | .release node => t.remove node

/-- Halves the window, at most once per estimated time to live. -/
def congestion (t : RequestTable ρ) : RequestTable ρ :=
  let cooling : Bool := match t.lastCongestion with
    | some last => t.now - last < signed64 t.initialTtl
    | none => false
  if cooling then t
  else
    let halved := max (t.window / 2) 2
    { t with window := halved, threshold := halved, lastCongestion := some t.now }

/-- Applies the verdict on a send: an accepted retransmission is a sign of congestion, and a send
that failed is undone. -/
def settle (t : RequestTable ρ) (u : Unresolved) (ok : Bool) : RequestTable ρ :=
  match u.node.bind fun node => t.requests.find? (·.node = node) with
  | none => t
  | some e =>
    if ok then
      if e.tries > 1 then
        let t := t.congestion
        { t with
          stats :=
            { t.stats with
              totalRetries := t.stats.totalRetries + 1
              currentRetries := t.stats.currentRetries + 1 } }
      else t
    else
      let reverted (e : Request) : Request :=
        { e with
          query := ⟨u.priority, u.ttl, e.query.hashes⟩
          lastSend := u.lastSend
          tries := e.tries - 1 }
      { t with requests := modifyFirst reverted e.node t.requests }

/-- The value by which the daemon accepts a message. -/
def returnOk : Int32 := 1

def settleOldest (t : RequestTable ρ) (ok : Bool) : RequestTable ρ :=
  match t.unresolved with
  | [] => t
  | u :: us => settle { t with unresolved := us } u ok

/-- The daemon accepted or refused the oldest unresolved send. -/
def onReturnValue (t : RequestTable ρ) (value : Int32) : RequestTable ρ :=
  t.settleOldest (value = returnOk)

/-- The oldest unresolved send never reached the daemon. -/
def onSendFailed (t : RequestTable ρ) : RequestTable ρ := t.settleOldest false

/-- The estimate after a reply to a request that was sent at `last`. A slow reply that still arrived
in time says little. -/
def nextEstimate (t : RequestTable ρ) (ttl last : Int) : Nat :=
  let initial := signed64 t.initialTtl
  let excess := max (ttl - t.decrement) 0
  let weight := signed64 <|
    if excess > 4 * initial ∧ t.now - last < initial then t.tuning.ttlWeightFast
    else t.tuning.ttlWeight
  unsigned64 ((initial * weight + excess).tdiv (weight + 1))

/-- The request that a reply answers, the latest if there are several. A reply to a request sent
before now improves the estimate and widens the window; one that nobody asked for is a duplicate. -/
def matchReply (s : Suite) (t : RequestTable ρ) (reply : Block) :
    Option (NodeId × ReplyHandler × Digest) × RequestTable ρ :=
  let query := s.hash reply.toList
  match t.requests.reverse.find? (·.query.contains query) with
  | none =>
    (none, congestion { t with stats := { t.stats with duplicates := t.stats.duplicates + 1 } })
  | some e =>
    let found := some (e.node, e.handler, query)
    match e.lastSend.filter (· < t.now) with
    | none => (found, t)
    | some last =>
      (found,
        { t with
          initialTtl := t.nextEstimate e.query.ttl.toInt last
          window := if t.window < t.threshold then t.window + 2 else t.window + 1 })

/-- Drops every request; verdicts still to come keep their sends. -/
def abortAll (t : RequestTable ρ) : RequestTable ρ :=
  { t with
    unresolved := t.unresolved.map fun u => { u with node := none }
    requests := []
    wake := false }

def clear (t : RequestTable ρ) : RequestTable ρ :=
  { t with requests := [], unresolved := [], wake := false }

def printEntry (i : Nat) (e : Request) : String :=
  let number := toString i
  let pad := String.ofList (List.replicate (4 - number.length) ' ')
  let hash := (e.query.hashes.headD zeroDigest).toHex
  s!"{pad}{number}: {hash} for node #{e.node} ({e.tries} tries)"

def print (t : RequestTable ρ) : List String :=
  s!"RM TTL {t.initialTtl} duplicates {t.stats.duplicates} window {t.window}" ::
    t.requests.zipIdx.map fun (e, i) => printEntry i e

end RequestTable

end ContentTree

/-!
Cover traffic. A policy may hold a message back until enough traffic of others has been seen to hide
it among, and the cover spent on one message is gone for the next.
-/

namespace ContentTree

inductive TrafficKind
  | query
  | chkResult
  | hashResult
  deriving DecidableEq, Repr

def saturate32 (n : Nat) : Nat := min n (UInt32.size - 1)

def saturate64 (n : Nat) : Nat := min n (UInt64.size - 1)

/-- Received traffic available as cover. -/
structure TrafficCounters where
  totalBytes : Nat
  queryBytes : Nat
  chkBytes : Nat
  hashBytes : Nat
  queryPeers : Nat
  chkPeers : Nat
  hashPeers : Nat
  deriving DecidableEq, Repr

namespace TrafficCounters

def empty : TrafficCounters := ⟨0, 0, 0, 0, 0, 0, 0⟩

def bytes (c : TrafficCounters) : TrafficKind → Nat
  | .query => c.queryBytes
  | .chkResult => c.chkBytes
  | .hashResult => c.hashBytes

def peers (c : TrafficCounters) : TrafficKind → Nat
  | .query => c.queryPeers
  | .chkResult => c.chkPeers
  | .hashResult => c.hashPeers

def setBytes (c : TrafficCounters) (n : Nat) : TrafficKind → TrafficCounters
  | .query => { c with queryBytes := n }
  | .chkResult => { c with chkBytes := n }
  | .hashResult => { c with hashBytes := n }

def setPeers (c : TrafficCounters) (n : Nat) : TrafficKind → TrafficCounters
  | .query => { c with queryPeers := n }
  | .chkResult => { c with chkPeers := n }
  | .hashResult => { c with hashPeers := n }

/-- Adds received traffic; messages of no kind count in the total alone. -/
def record (c : TrafficCounters) (kind : Option TrafficKind) (bytes peers : Nat) :
    TrafficCounters :=
  let c := { c with totalBytes := saturate64 (c.totalBytes + bytes) }
  match kind with
  | none => c
  | some k =>
    (c.setBytes (saturate64 (c.bytes k + bytes)) k).setPeers (saturate32 (c.peers k + peers)) k

end TrafficCounters

/-- What a policy value asks for: nothing if it is not positive; from 1000 on, the thousands are
bytes of the same kind per byte sent and the rest is a number of peers; below, it is bytes of any
kind per byte sent. -/
structure Demand where
  ratio : Nat
  peers : Nat
  sameKind : Bool
  deriving DecidableEq, Repr

def Demand.ofValue? (value : Int) : Option Demand :=
  if value ≤ 0 then none
  else if value < 1000 then some ⟨value.toNat, 0, false⟩
  else some ⟨value.toNat / 1000, value.toNat % 1000, true⟩

/-- Bytes of cover that a message of `size` bytes takes, a product of 64-bit words: a cost that does
not fit in a word starts again at zero. -/
def Demand.cost (d : Demand) (size : Nat) : Nat := d.ratio * size % UInt64.size

structure TrafficPolicy where
  sendPolicy : Int
  receivePolicy : Int
  counters : TrafficCounters
  deriving DecidableEq, Repr

namespace TrafficPolicy

def new (sendPolicy receivePolicy : Int) : TrafficPolicy := ⟨sendPolicy, receivePolicy, .empty⟩

/-- The policy value for a kind of message. -/
def value (p : TrafficPolicy) : TrafficKind → Int
  | .query => p.receivePolicy
  | .chkResult | .hashResult => p.sendPolicy

/-- Takes `cost` bytes of cover, all or nothing. -/
def consume (c : TrafficCounters) (kind : TrafficKind) (cost : Nat) (sameKind : Bool) :
    Bool × TrafficCounters :=
  if sameKind then
    if c.bytes kind < cost then (false, c) else (true, c.setBytes (c.bytes kind - cost) kind)
  else
    if c.totalBytes < cost then (false, c)
    else (true, { c with totalBytes := c.totalBytes - cost })

/-- Whether a message of `size` bytes may be sent now; if so its cover is spent. -/
def permits (p : TrafficPolicy) (kind : TrafficKind) (size : Nat) : Bool × TrafficPolicy :=
  match Demand.ofValue? (p.value kind) with
  | none => (true, p)
  | some demand =>
    if p.counters.peers kind < demand.peers then (false, p)
    else
      let (ok, counters) := consume p.counters kind (demand.cost size) demand.sameKind
      (ok, { p with counters := counters })

def record (p : TrafficPolicy) (kind : Option TrafficKind) (bytes peers : Nat) : TrafficPolicy :=
  { p with counters := p.counters.record kind bytes peers }

end TrafficPolicy

/-- Either no demand at all or a traffic policy. -/
inductive Policy
  | open
  | traffic (p : TrafficPolicy)
  deriving DecidableEq, Repr

namespace Policy

def permits (p : Policy) (kind : TrafficKind) (size : Nat) : Bool × Policy :=
  match p with
  | .open => (true, .open)
  | .traffic t =>
    let (ok, t) := t.permits kind size
    (ok, .traffic t)

def record (p : Policy) (kind : Option TrafficKind) (bytes peers : Nat) : Policy :=
  match p with
  | .open => .open
  | .traffic t => .traffic (t.record kind bytes peers)

end Policy

/-- Highest priority worth attaching to a single query, given the average that the daemon sees. -/
def maxPriority (average : Nat) : Nat := saturate32 (2 * saturate32 (average + 2))

end ContentTree

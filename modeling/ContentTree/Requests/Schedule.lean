import ContentTree.Requests.Table

/-!
One scheduling pass over the request table. A request is due when it was never sent, or when its
time to live and one decrement have passed. Due requests are sent while the number in flight is
within the congestion window, and with falling chance above it. The time to live grows with every
send, quickly up to the estimate and slowly beyond.
-/

namespace ContentTree

namespace RequestTable

variable {ρ : Type} [RandomSource ρ]

/-- Priorities above this are not carried over from an earlier send. -/
def priorityBound : Nat := 0xffffff

def isDue (t : RequestTable ρ) (e : Request) : Bool :=
  match e.expires with
  | none => true
  | some expiry => expiry ≤ t.now - t.decrement

/-- Sent, and with time to live left. -/
def inFlight (t : RequestTable ρ) (e : Request) : Bool :=
  match e.expires with
  | none => false
  | some expiry => t.now ≤ expiry

/-- The time to live to try next, and the one that the request keeps meanwhile, cut to the cap. -/
def grownTtl (t : RequestTable ρ) (e : Request) : (Int × Int32) × ρ :=
  let initial := signed64 t.initialTtl
  let cap := signed64 t.tuning.maxTtl
  let current := e.query.ttl.toInt
  let grown (kept : Int32) (base bound : Int) : (Int × Int32) × ρ :=
    let (extra, r) := drawBelow bound t.random
    ((base + extra, kept), r)
  if e.lastSend.isNone then ((initial, e.query.ttl), t.random)
  else if current > cap then grown (Int32.ofInt cap) cap (2 * t.decrement)
  else if current > initial then
    let steps := if initial = 0 then current else current.tdiv initial
    grown e.query.ttl current (50 + max (t.decrement.tdiv (max steps 1)) 1)
  else grown e.query.ttl current (current + 2 * t.decrement)

/-- When a request that is sent now counts as sent: two decrements later, and later still at random
after several tries. -/
def sendTime (t : RequestTable ρ) (e : Request) (r : ρ) : Int × ρ :=
  let (chance, r) := drawBelow (1 + e.tries) r
  if chance > 1 then
    let (extra, r) := drawBelow (t.decrement * (1 + e.tries)) r
    (t.now + 2 * t.decrement + extra, r)
  else (t.now + 2 * t.decrement, r)

/-- Blocks that a query asks for. The hash of a batch is not a block of its own. -/
def fanOut (q : Query) : Nat := if 2 ≤ q.hashes.length then q.hashes.length - 1 else q.hashes.length

/-- The priority to send with, raised from `base` at random and bounded by what the daemon sees. -/
def grownPriority (t : RequestTable ρ) (q : Query) (base : Int) (tries : Nat) (r : ρ) : Int × ρ :=
  let (extra, r) := drawBelow tries r
  let limit : Int := maxPriority t.average * fanOut q
  if base + extra > limit then
    let (low, r) := drawBelow (1 + limit.tdiv 2) r
    (limit.tdiv 2 + low, r)
  else (base + extra, r)

/-- What became of one due request. -/
structure Attempt (ρ : Type) where
  table : RequestTable ρ
  /-- The query handed to the sender, if the policy let it through. -/
  offered : Option Query
  accepted : Bool
  /-- The content seems unavailable on the network. -/
  unavailable : Bool

/-- Sends the request at position `j`. After replies the current time to live is waited out once
more; otherwise time to live and priority grow. A send that is not accepted is undone. -/
def attempt (accepts : Query → Bool) (t : RequestTable ρ) (j : Nat) (e : Request) : Attempt ρ :=
  let ((grown, kept), r) := t.grownTtl e
  let (sendAt, r) := t.sendTime e r
  let held : Request := { e with query := { e.query with ttl := kept }, lastSend := some sendAt }
  let (permitted, policy) := t.policy.permits .query e.query.wireSize
  let t := { t with requests := t.requests.set j held, policy := policy, random := r }
  if ¬ permitted then ⟨t, none, false, false⟩
  else
    let (base, r) : Int × ρ :=
      if e.query.priority.toNat > priorityBound then drawBelow priorityBound r
      else (e.query.priority.toNat, r)
    let tries := e.tries + 1
    let (ttl, sending, r) : Int × Request × ρ :=
      if e.replies > 0 then
        (kept.toInt, { held with tries := tries, replies := e.replies / 2 }, r)
      else
        let ttl := min grown ((base + 8) * t.decrement)
        let (priority, r) := t.grownPriority e.query base tries r
        let query : Query :=
          ⟨UInt32.ofNat (clampTo 0 (UInt32.size - 1) priority).toNat,
            Int32.ofInt (clampTo 0 Int32.maxValue.toInt ttl), e.query.hashes⟩
        (ttl, { held with tries := tries, query := query }, r)
    let count := t.requests.length
    let undo : Unresolved :=
      ⟨some e.node, e.query.ttl, UInt32.ofNat base.toNat, e.lastSend⟩
    let t :=
      { t with
        requests := t.requests.set j sending
        random := r
        stats :=
          { t.stats with
            pending := count
            sent := count
            currentTtl := (clampTo 0 (UInt32.size - 1) ttl).toNat } }
    let unavailable := tries % t.tuning.triesPerWarning = 0
    if accepts sending.query then
      ⟨{ t with unresolved := t.unresolved ++ [undo] }, some sending.query, true, unavailable⟩
    else ⟨t.settle undo false, some sending.query, false, unavailable⟩

/-- A product cut to the 64-bit signed range. -/
def boundedMul (a b : Int) : Int := clampTo Int64.minValue.toInt Int64.maxValue.toInt (a * b)

/-- Whether `pending` requests in flight leave room for one more: always within the window, and
above it with a chance that falls with the cube of the excess. -/
def hasRoom (t : RequestTable ρ) (pending : Int) : Bool × ρ :=
  let excess := pending - t.window
  if excess ≤ 0 then (true, t.random)
  else
    let bound := boundedMul (boundedMul (boundedMul excess excess) excess) t.requests.length
    if bound ≤ 0 then (true, t.random)
    else
      let (v, r) := drawBelow bound t.random
      (v = 0, r)

/-- A scheduling pass under way. -/
structure Pass (ρ : Type) where
  table : RequestTable ρ
  pending : Int
  sleep : Int
  unavailable : List NodeId
  /-- Queries handed to the sender so far. -/
  offered : Nat
  sent : List Query

/-- Visits the request at position `j`. `accepts n` is the sender's answer to the query that is
handed to it after `n` others. -/
def Pass.visit (accepts : Nat → Query → Bool) (p : Pass ρ) (j : Nat) : Pass ρ :=
  match p.table.requests[j]? with
  | none => p
  | some e =>
    let t := p.table
    if t.isDue e then
      let (room, r) := t.hasRoom p.pending
      let t := { t with random := r }
      if room then
        let a := t.attempt (accepts p.offered) j e
        { table := a.table
          pending := p.pending + 1
          sleep := min p.sleep (e.query.ttl.toInt + 10)
          unavailable := if a.unavailable then p.unavailable ++ [e.node] else p.unavailable
          offered := if a.offered.isSome then p.offered + 1 else p.offered
          sent := if a.accepted then p.sent ++ a.offered.toList else p.sent }
      else { p with table := t, sleep := min p.sleep 0 }
    else
      let wait := match e.expires with
        | none => 0
        | some expiry => expiry + t.decrement - t.now
      { p with sleep := min p.sleep wait }

/-- The result of a pass. -/
structure Schedule where
  /-- Milliseconds until the next pass; nothing when no request is outstanding. -/
  next : Option Nat
  /-- Nodes whose queries have gone unanswered for very long. -/
  unavailable : List NodeId
  sent : List Query

/-- (Re)sends every due request that the window admits, in random order. -/
def schedule (accepts : Nat → Query → Bool) (t : RequestTable ρ) : Schedule × RequestTable ρ :=
  let t := { t with wake := false }
  if t.requests.isEmpty then (⟨none, [], []⟩, t)
  else
    let (order, r) := RandomSource.shuffle t.requests.length t.random
    let start : Pass ρ :=
      { table := { t with random := r }
        pending := t.requests.countP t.inFlight
        sleep := signed64 t.tuning.maxSleep
        unavailable := []
        offered := 0
        sent := [] }
    let p := order.foldl (Pass.visit accepts) start
    let sleep := max p.sleep (signed64 t.tuning.minSleep)
    (⟨some (unsigned64 sleep), p.unavailable, p.sent⟩, p.table)

end RequestTable

end ContentTree

import Mathlib.Algebra.Order.Ring.Int
import ContentTree.Proofs.Requests.Origins

/-!
# The request table in machine numbers

The table counts in 32 bits and keeps time in 64 bits, with settings that are unsigned and times
that are signed. Here its operations are worked out with the numbers that these types hold, cast by
cast and step by step. An operation whose result its type does not hold gives nothing, and so does
a division by zero.
-/

namespace ContentTree

/-- A machine type, by the numbers that it holds. -/
structure MachineType where
  least : Int
  largest : Int

namespace MachineType

def u32 : MachineType := ⟨0, UInt32.size - 1⟩

def u64 : MachineType := ⟨0, UInt64.size - 1⟩

def i32 : MachineType := ⟨Int32.minValue.toInt, Int32.maxValue.toInt⟩

def i64 : MachineType := ⟨Int64.minValue.toInt, Int64.maxValue.toInt⟩

/-- The number, if the type holds it. -/
def hold? (m : MachineType) (i : Int) : Option Int :=
  if m.least ≤ i ∧ i ≤ m.largest then some i else none

/-- The same for a number that counts. -/
def count? (m : MachineType) (n : Nat) : Option Nat := if n ≤ m.largest then some n else none

/-- A quotient, cut toward zero. -/
def quotient? (m : MachineType) (a b : Int) : Option Int :=
  if b = 0 then none else m.hold? (a.tdiv b)

variable {m : MachineType} {i : Int} {n : Nat}

theorem hold?_eq (hleast : m.least ≤ i) (hlargest : i ≤ m.largest) : m.hold? i = some i :=
  if_pos ⟨hleast, hlargest⟩

theorem i64_hold? (hleast : -2 ^ 63 ≤ i) (hlargest : i < 2 ^ 63) : i64.hold? i = some i :=
  hold?_eq hleast (Int.le_sub_one_of_lt hlargest)

theorem i64_bind {β : Type} {f : Int → Option β} (hleast : -2 ^ 63 ≤ i) (hlargest : i < 2 ^ 63) :
    (i64.hold? i).bind f = f i := by
  rw [i64_hold? hleast hlargest, Option.bind_some]

theorem i64_quotient? {a b : Int} (ha : 0 ≤ a) (hlargest : a < 2 ^ 63) (hb : 0 < b) :
    i64.quotient? a b = some (a.tdiv b) := by
  have hnonneg := Int.tdiv_nonneg ha (Int.le_of_lt hb)
  have hle := Int.tdiv_le_self b ha
  rw [quotient?, if_neg (Int.ne_of_gt hb), i64_hold? (by omega) (by omega)]

theorem u64_hold? (hleast : 0 ≤ i) (hlargest : i < 2 ^ 64) : u64.hold? i = some i :=
  hold?_eq hleast (Int.le_sub_one_of_lt hlargest)

theorem u32_hold? (hleast : 0 ≤ i) (hlargest : i < 2 ^ 32) : u32.hold? i = some i :=
  hold?_eq hleast (Int.le_sub_one_of_lt hlargest)

theorem i32_hold? (hleast : -2 ^ 31 ≤ i) (hlargest : i < 2 ^ 31) : i32.hold? i = some i :=
  hold?_eq hleast (Int.le_sub_one_of_lt hlargest)

theorem u32_count? (h : n < 2 ^ 32) : u32.count? n = some n := by
  refine if_pos (Int.le_sub_one_of_lt ?_)
  exact_mod_cast h

theorem u32_bind {β : Type} {f : Nat → Option β} (h : n < 2 ^ 32) :
    (u32.count? n).bind f = f n := by
  rw [u32_count? h, Option.bind_some]

end MachineType

open MachineType

/-- Tries between two warnings; a number to divide by. -/
def Tuning.triesPerWarning? (c : Tuning) : Option Nat := do
  let period ← u32.count? c.triesPerWarning
  if period = 0 then none else return period

/-- When the time to live of the last send is over. -/
def Request.expires? (e : Request) : Option (Option Int) :=
  match e.lastSend with
  | none => some none
  | some last => (i64.hold? (last + e.query.ttl.toInt)).map some

namespace RequestTable

variable {ρ : Type}

def decrement? (t : RequestTable ρ) : Option Int := i64.hold? t.tuning.ttlDecrement

def inFlight? (t : RequestTable ρ) (e : Request) : Option Bool :=
  e.expires?.map fun
    | none => false
    | some expiry => t.now ≤ expiry

def isDue? (t : RequestTable ρ) (e : Request) : Option Bool := do
  match ← e.expires? with
  | none => return true
  | some expiry => return expiry ≤ (← i64.hold? (t.now - (← t.decrement?)))

/-- How long a request that is not due can wait. -/
def delay? (t : RequestTable ρ) (e : Request) : Option Int := do
  match ← e.expires? with
  | none => return 0
  | some expiry => i64.hold? ((← i64.hold? (expiry + (← t.decrement?))) - t.now)

def cooling? (t : RequestTable ρ) : Option Bool := do
  match t.lastCongestion with
  | none => return false
  | some last => return (← i64.hold? (t.now - last)) < (← i64.hold? t.initialTtl)

def congestion? (t : RequestTable ρ) : Option (RequestTable ρ) := do
  if ← t.cooling? then return t
  else
    let halved := max (t.window / 2) 2
    return { t with window := halved, threshold := halved, lastCongestion := some t.now }

def settle? (t : RequestTable ρ) (u : Unresolved) (ok : Bool) : Option (RequestTable ρ) :=
  match u.node.bind fun node => t.requests.find? (·.node = node) with
  | none => some t
  | some e =>
    if ok ∧ 1 < e.tries then do
      let t ← t.congestion?
      let totalRetries ← u32.count? (t.stats.totalRetries + 1)
      let currentRetries ← u32.count? (t.stats.currentRetries + 1)
      return { t with
        stats := { t.stats with totalRetries := totalRetries, currentRetries := currentRetries } }
    else some (t.settle u ok)

def settleOldest? (t : RequestTable ρ) (ok : Bool) : Option (RequestTable ρ) :=
  match t.unresolved with
  | [] => some t
  | u :: us => settle? { t with unresolved := us } u ok

def nextEstimate? (t : RequestTable ρ) (ttl last : Int) : Option Nat := do
  let decrement ← t.decrement?
  let initial ← i64.hold? t.initialTtl
  let excess := max (← i64.hold? (ttl - decrement)) 0
  let late ← i64.hold? (4 * initial)
  let age ← i64.hold? (t.now - last)
  let weight : Nat :=
    if excess > late ∧ age < initial then t.tuning.ttlWeightFast else t.tuning.ttlWeight
  let weight ← i64.hold? weight
  let past ← i64.hold? (initial * weight)
  let sum ← i64.hold? (past + excess)
  let weights ← i64.hold? (weight + 1)
  let estimate ← u64.hold? (← i64.quotient? sum weights)
  return estimate.toNat

def matchReply? (s : Suite) (t : RequestTable ρ) (reply : Block) : Option (RequestTable ρ) :=
  match t.requests.reverse.find? (·.query.contains (s.hash reply.toList)) with
  | none => do
    let duplicates ← u32.count? (t.stats.duplicates + 1)
    congestion? { t with stats := { t.stats with duplicates := duplicates } }
  | some e =>
    match e.lastSend.filter (· < t.now) with
    | none => some t
    | some last => do
      let estimate ← t.nextEstimate? e.query.ttl.toInt last
      let window ← u32.count? (if t.window < t.threshold then t.window + 2 else t.window + 1)
      return { t with initialTtl := estimate, window := window }

/-- Replaces the query of a node. -/
def replace? (t : RequestTable ρ) (node : NodeId) (query : Query) : Option (RequestTable ρ) :=
  match t.requests.find? (·.node = node) with
  | none => some t
  | some e => do
    let twice ← i64.hold? (2 * (← t.decrement?))
    let grace ← i64.hold? (t.now + twice)
    let replies ← u32.count? (e.replies + 1)
    let refreshed : Request :=
      { e with
        query := ⟨e.query.priority, e.query.ttl, query.hashes⟩
        replies := replies
        lastSend := some grace }
    return { t with requests := modifyFirst (fun _ => refreshed) node t.requests }

variable [RandomSource ρ]

/-- A number above `base`, with a draw below `bound`. -/
def drawFrom? (base bound : Int) (r : ρ) : Option (Int × ρ) := do
  let (extra, r) := drawBelow bound r
  return (← i64.hold? (base + extra), r)

def grownTtl? (t : RequestTable ρ) (e : Request) : Option ((Int × Int32) × ρ) := do
  let decrement ← t.decrement?
  let initial ← i64.hold? t.initialTtl
  let cap ← i64.hold? t.tuning.maxTtl
  let current := e.query.ttl.toInt
  if e.lastSend.isNone then return ((initial, e.query.ttl), t.random)
  else if current > cap then
    let kept ← i32.hold? cap
    let (ttl, r) ← drawFrom? cap (← i64.hold? (2 * decrement)) t.random
    return ((ttl, Int32.ofInt kept), r)
  else if current > initial then
    let steps ← if initial = 0 then some current else i64.quotient? current initial
    let step ← i64.quotient? decrement (max steps 1)
    let (ttl, r) ← drawFrom? current (← i64.hold? (50 + max step 1)) t.random
    return ((ttl, e.query.ttl), r)
  else
    let twice ← i64.hold? (2 * decrement)
    let (ttl, r) ← drawFrom? current (← i64.hold? (current + twice)) t.random
    return ((ttl, e.query.ttl), r)

def sendTime? (t : RequestTable ρ) (e : Request) (r : ρ) : Option (Int × ρ) := do
  let decrement ← t.decrement?
  let twice ← i64.hold? (2 * decrement)
  let next ← i64.hold? (t.now + twice)
  let chances ← i64.hold? (1 + e.tries)
  let (chance, r) := drawBelow chances r
  if chance > 1 then drawFrom? next (← i64.hold? (decrement * chances)) r
  else return (next, r)

def grownPriority? (t : RequestTable ρ) (q : Query) (base : Int) (tries : Nat) (r : ρ) :
    Option (Int × ρ) := do
  let (raised, r) ← drawFrom? base tries r
  let count ← i64.hold? (fanOut q)
  let limit ← i64.hold? (maxPriority t.average * count)
  if raised > limit then
    let half ← i64.quotient? limit 2
    drawFrom? half (← i64.hold? (1 + half)) r
  else return (raised, r)

/-! ### An attempt in parts -/

/-- The priority that a send starts from. -/
def startPriority (priority : UInt32) (r : ρ) : Int × ρ :=
  if priority.toNat > priorityBound then drawBelow priorityBound r else (priority.toNat, r)

/-- What is sent for the request `held`, with the time to live that counts. -/
def resent (t : RequestTable ρ) (held : Request) (grown base : Int) (tries : Nat) (r : ρ) :
    Int × Request × ρ :=
  if held.replies > 0 then
    (held.query.ttl.toInt, { held with tries := tries, replies := held.replies / 2 }, r)
  else
    let ttl := min grown ((base + 8) * t.decrement)
    let (priority, r) := t.grownPriority held.query base tries r
    let query : Query :=
      ⟨UInt32.ofNat (clampTo 0 (UInt32.size - 1) priority).toNat,
        Int32.ofInt (clampTo 0 Int32.maxValue.toInt ttl), held.query.hashes⟩
    (ttl, { held with tries := tries, query := query }, r)

/-- Hands the request `sending` to the sender in place of `e`. -/
def offer (accepts : Query → Bool) (t : RequestTable ρ) (j : Nat) (e : Request) (base : Int)
    (tries : Nat) (sending : Int × Request × ρ) : Attempt ρ :=
  let (ttl, sending, r) := sending
  let undo : Unresolved := ⟨some e.node, e.query.ttl, UInt32.ofNat base.toNat, e.lastSend⟩
  let count := t.requests.length
  let t :=
    { t with
      requests := t.requests.set j sending
      random := r
      stats :=
        { t.stats with
          pending := count
          sent := count
          currentTtl := (clampTo 0 (UInt32.size - 1) ttl).toNat } }
  let unavailable := tries % t.tuning.triesPerWarning = 0
  if accepts sending.query then
    ⟨{ t with unresolved := t.unresolved ++ [undo] }, some sending.query, true, unavailable⟩
  else ⟨t.settle undo false, some sending.query, false, unavailable⟩

theorem attempt_eq (accepts : Query → Bool) (t : RequestTable ρ) (j : Nat) (e : Request) :
    t.attempt accepts j e =
      let ((grown, kept), r) := t.grownTtl e
      let (sendAt, r) := t.sendTime e r
      let held : Request :=
        { e with query := { e.query with ttl := kept }, lastSend := some sendAt }
      let (permitted, policy) := t.policy.permits .query e.query.wireSize
      let t := { t with requests := t.requests.set j held, policy := policy, random := r }
      if ¬ permitted then ⟨t, none, false, false⟩
      else
        let (base, r) := startPriority e.query.priority r
        t.offer accepts j e base (e.tries + 1) (t.resent held grown base (e.tries + 1) r) :=
  rfl

def resent? (t : RequestTable ρ) (held : Request) (grown base : Int) (tries : Nat) (r : ρ) :
    Option (Int × Request × ρ) := do
  if held.replies > 0 then
    return (held.query.ttl.toInt, { held with tries := tries, replies := held.replies / 2 }, r)
  else
    let bound ← i64.hold? ((← i64.hold? (base + 8)) * (← t.decrement?))
    let ttl := min grown bound
    let (priority, r) ← t.grownPriority? held.query base tries r
    let query : Query :=
      ⟨UInt32.ofNat (clampTo 0 (UInt32.size - 1) priority).toNat,
        Int32.ofInt (clampTo 0 Int32.maxValue.toInt ttl), held.query.hashes⟩
    return (ttl, { held with tries := tries, query := query }, r)

def offer? (accepts : Query → Bool) (t : RequestTable ρ) (j : Nat) (e : Request) (base : Int)
    (tries : Nat) (sending : Int × Request × ρ) : Option (Attempt ρ) := do
  let (ttl, sending, r) := sending
  let count ← u32.count? t.requests.length
  let undo : Unresolved := ⟨some e.node, e.query.ttl, UInt32.ofNat base.toNat, e.lastSend⟩
  let t :=
    { t with
      requests := t.requests.set j sending
      random := r
      stats :=
        { t.stats with
          pending := count
          sent := count
          currentTtl := (clampTo 0 (UInt32.size - 1) ttl).toNat } }
  let unavailable := tries % (← t.tuning.triesPerWarning?) = 0
  if accepts sending.query then
    return ⟨{ t with unresolved := t.unresolved ++ [undo] }, some sending.query, true, unavailable⟩
  else return ⟨← t.settle? undo false, some sending.query, false, unavailable⟩

def attempt? (accepts : Query → Bool) (t : RequestTable ρ) (j : Nat) (e : Request) :
    Option (Attempt ρ) := do
  let ((grown, kept), r) ← t.grownTtl? e
  let (sendAt, r) ← t.sendTime? e r
  let held : Request := { e with query := { e.query with ttl := kept }, lastSend := some sendAt }
  let (permitted, policy) := t.policy.permits .query e.query.wireSize
  let t := { t with requests := t.requests.set j held, policy := policy, random := r }
  if ¬ permitted then return ⟨t, none, false, false⟩
  else
    let (base, r) := startPriority e.query.priority r
    let base ← u32.hold? base
    let tries ← u32.count? (e.tries + 1)
    let sending ← t.resent? held grown base tries r
    t.offer? accepts j e base tries sending

/-- The products are cut to their type, so the excess alone is to be held. -/
def hasRoom? (t : RequestTable ρ) (pending : Int) : Option (Bool × ρ) := do
  let excess ← i64.hold? (pending - t.window)
  if excess ≤ 0 then return (true, t.random)
  else
    let count ← i64.hold? t.requests.length
    let bound := boundedMul (boundedMul (boundedMul excess excess) excess) count
    if bound ≤ 0 then return (true, t.random)
    else
      let (v, r) := drawBelow bound t.random
      return (v = 0, r)

def Pass.visit? (accepts : Nat → Query → Bool) (p : Pass ρ) (j : Nat) : Option (Pass ρ) :=
  match p.table.requests[j]? with
  | none => some p
  | some e => do
    let t := p.table
    if ← t.isDue? e then
      let (room, r) ← t.hasRoom? p.pending
      let t := { t with random := r }
      if room then
        let a ← t.attempt? (accepts p.offered) j e
        return {
          table := a.table
          pending := ← i64.hold? (p.pending + 1)
          sleep := min p.sleep (← i64.hold? (e.query.ttl.toInt + 10))
          unavailable := if a.unavailable then p.unavailable ++ [e.node] else p.unavailable
          offered := if a.offered.isSome then p.offered + 1 else p.offered
          sent := if a.accepted then p.sent ++ a.offered.toList else p.sent }
      else return { p with table := t, sleep := min p.sleep 0 }
    else return { p with sleep := min p.sleep (← t.delay? e) }

def opened? (t : RequestTable ρ) : Option (List Nat × Pass ρ) := do
  let _ ← t.decrement?
  let _ ← i64.hold? t.requests.length
  let flying ← t.requests.mapM t.inFlight?
  let pending ← i64.hold? (flying.count true)
  let maxSleep ← i64.hold? t.tuning.maxSleep
  let (order, r) := RandomSource.shuffle t.requests.length t.random
  return (order, {
    table := { t with wake := false, random := r }
    pending := pending
    sleep := maxSleep
    unavailable := []
    offered := 0
    sent := [] })

def schedule? (accepts : Nat → Query → Bool) (t : RequestTable ρ) :
    Option (Schedule × RequestTable ρ) := do
  if t.requests.isEmpty then return (⟨none, [], []⟩, { t with wake := false })
  else
    let (order, start) ← t.opened?
    let p ← order.foldlM (Pass.visit? accepts) start
    let minSleep ← i64.hold? t.tuning.minSleep
    let sleep ← u64.hold? (max p.sleep minSleep)
    return (⟨some sleep.toNat, p.unavailable, p.sent⟩, p.table)

def handle? (t : RequestTable ρ) : Event → Option (RequestTable ρ)
  | .upkeep (.call (.update node (some query))) => t.replace? node query
  | .upkeep (.reply s block) => t.matchReply? s block
  | .upkeep u => some (t.maintain u)
  | .pass accepts => (t.schedule? accepts).map Prod.snd
  | .returnValue value => t.settleOldest? (value = returnOk)
  | .sendFailed => t.settleOldest? false

end RequestTable

end ContentTree

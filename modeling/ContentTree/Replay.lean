import ContentTree.Transfer

/-!
Downloads answered from a store of blocks: by a plain queue that is served front to back, and by the
request table under a clock that moves in steps.
-/

namespace ContentTree.Replay

/-- The blocks that can be handed out, by their hashes. -/
abbrev Store := Digest → Option Block

/-- A download served from the front of its queue. -/
structure Drive where
  download : Download.State
  queue : QueryQueue
  /-- The calls of the tree so far. -/
  log : Array SchedulerCall
  replies : Nat

namespace Drive

def receive (env : Download.Env) (d : Drive) (e : QueuedQuery) (hash : Digest) (b : Block) :
    Except TreeError Unit × Drive :=
  let (result, state) := (Download.receive env e.node e.handler hash b).run d.download
  (result,
    { download := { state with calls := #[] }
      queue := state.calls.foldl QueryQueue.call d.queue
      log := d.log ++ state.calls
      replies := d.replies + 1 })

/-- Answers the hashes of a queue entry that are in the store, up to `limit` replies in all. -/
def serve (env : Download.Env) (store : Store) (limit : Nat) (e : QueuedQuery) :
    List Digest → Drive → Except TreeError Unit × Drive
  | [], d => (.ok (), d)
  | hash :: hashes, d =>
    match store hash with
    | none => serve env store limit e hashes d
    | some b =>
      if limit ≤ d.replies then (.ok (), d)
      else
        match receive env d e hash b with
        | (.error x, d) => (.error x, d)
        | (.ok (), d) => serve env store limit e hashes d

/-- Serves the first entry again and again, until nothing of it can be answered. -/
def turns (env : Download.Env) (store : Store) (limit : Nat) :
    Nat → Drive → Except TreeError Unit × Drive
  | 0, d => (.ok (), d)
  | fuel + 1, d =>
    match d.queue with
    | [] => (.ok (), d)
    | e :: _ =>
      match serve env store limit e e.query.hashes d with
      | (.error x, after) => (.error x, after)
      | (.ok (), after) =>
        if after.replies = d.replies then (.ok (), after) else turns env store limit fuel after

/-- At most `limit` replies. Every turn but the last gives one. -/
def run (env : Download.Env) (store : Store) (limit : Nat) (d : Drive) :
    Except TreeError Unit × Drive :=
  turns env store limit limit d

end Drive

section Table

variable {ρ : Type} [RandomSource ρ]

def answerAll (value : Int32) : Nat → RequestTable ρ → RequestTable ρ
  | 0, t => t
  | n + 1, t => answerAll value n (t.onReturnValue value)

/-- What one pass did. -/
structure CycleRow where
  clock : Int
  schedule : RequestTable.Schedule
  window : Nat
  threshold : Nat

/-- One pass after `step` milliseconds, and a verdict on every unresolved send. -/
def cycle (step : Int) (value : Int32) (clock : Int) (t : RequestTable ρ) :
    CycleRow × RequestTable ρ :=
  let clock := clock + step
  let (schedule, t) := (t.tick clock).schedule fun _ _ => true
  let t := answerAll value t.unresolved.length t
  (⟨clock, schedule, t.window, t.threshold⟩, t)

def cycles (step : Int) (value : Int32) : Nat → Int → RequestTable ρ →
    List CycleRow × RequestTable ρ
  | 0, _, t => ([], t)
  | n + 1, clock, t =>
    let (row, t) := cycle step value clock t
    let (rows, t) := cycles step value n row.clock t
    (row :: rows, t)

/-- Which sends and replies go wrong, each by a period; 0 is never. -/
structure Faults where
  lose : Nat
  duplicate : Nat
  refuse : Nat

def hits (period n : Nat) : Bool := period > 0 ∧ n % period = 0

/-- A download answered from a store, with its counts of sends and replies. -/
structure Pump (ρ : Type) where
  transfer : Transfer ρ
  clock : Int
  sends : Nat
  replies : Nat

namespace Pump

/-- Delivers a block `n` times, until one delivery fails. -/
def deliver (env : Download.Env) (b : Block) : Nat → Pump ρ → Option Delivery × Pump ρ
  | 0, p => (none, p)
  | n + 1, p =>
    let (delivery, x) := p.transfer.deliver env b
    let p := { p with transfer := x }
    match delivery with
    | some ⟨node, handler, .error e⟩ => (some ⟨node, handler, .error e⟩, p)
    | _ => deliver env b n p

/-- Answers hashes from the store. Stops at a delivery that fails. -/
def answer (env : Download.Env) (store : Store) (faults : Faults) :
    List Digest → Pump ρ → Option Delivery × Pump ρ
  | [], p => (none, p)
  | hash :: hashes, p =>
    match store hash with
    | none => answer env store faults hashes p
    | some b =>
      let p := { p with replies := p.replies + 1 }
      let copies :=
        if hits faults.lose p.replies then 0 else if hits faults.duplicate p.replies then 2 else 1
      match deliver env b copies p with
      | (some failed, p) => (some failed, p)
      | (none, p) => answer env store faults hashes p

/-- Answers the queries sent in one pass: a verdict first, and unless it is a refusal, blocks. -/
def answerSent (env : Download.Env) (store : Store) (faults : Faults) :
    List Query → Pump ρ → Option Delivery × Pump ρ
  | [], p => (none, p)
  | q :: qs, p =>
    let p := { p with sends := p.sends + 1 }
    if hits faults.refuse p.sends then
      answerSent env store faults qs
        { p with transfer := p.transfer.onTable (·.onReturnValue (-1)) }
    else
      let p := { p with transfer := p.transfer.onTable (·.onReturnValue RequestTable.returnOk) }
      match answer env store faults q.hashes p with
      | (some failed, p) => (some failed, p)
      | (none, p) => answerSent env store faults qs p

structure Row where
  clock : Int
  schedule : RequestTable.Schedule
  requests : Nat
  window : Nat
  threshold : Nat
  initialTtl : Nat
  progress : Nat

inductive End
  | complete
  | outOfRounds
  | failed (d : Delivery)

def round (env : Download.Env) (store : Store) (faults : Faults) (step : Int) (p : Pump ρ) :
    Row × Option Delivery × Pump ρ :=
  let clock := p.clock + step
  let (schedule, table) := (p.transfer.table.tick clock).schedule fun _ _ => true
  let p := { p with clock := clock, transfer := p.transfer.onTable fun _ => table }
  let (failed, p) := answerSent env store faults schedule.sent p
  let t := p.transfer.table
  (⟨clock, schedule, t.requests.length, t.window, t.threshold, t.initialTtl,
    p.transfer.stats.progress⟩, failed, p)

/-- Rounds until the download is complete, a delivery fails, or `n` are over. -/
def rounds (env : Download.Env) (store : Store) (faults : Faults) (step : Int) :
    Nat → Pump ρ → List Row × End × Pump ρ
  | 0, p => ([], .outOfRounds, p)
  | n + 1, p =>
    if p.transfer.isComplete then ([], .complete, p)
    else
      match round env store faults step p with
      | (row, some failed, p) => ([row], .failed failed, p)
      | (row, none, p) =>
        let (rows, outcome, p) := rounds env store faults step n p
        (row :: rows, outcome, p)

end Pump

end Table

end ContentTree.Replay

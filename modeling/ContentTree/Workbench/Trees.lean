import ContentTree.ScriptedSink
import ContentTree.Workbench

/-!
Steps of a workbench on its trees, queue and request table.
-/

namespace ContentTree.Work

/-- The context and the tree that a step is about. -/
structure Place where
  context : String
  tree : String

/-- Where the calls of a tree go. -/
inductive Outlet
  | queue
  | table
  | nowhere

def pass (outlet : Outlet) (calls : Array SchedulerCall) : Work Unit := modify fun w =>
  match outlet with
  | .queue =>
    { w with queue := calls.foldl QueryQueue.call w.queue, calls := w.calls ++ calls }
  | .table => { w with table := w.table.map fun t => calls.foldl RequestTable.call t }
  | .nowhere => w

/-- The calls to the queue since they were last asked for. -/
def takeCalls : Work (Array SchedulerCall) :=
  modifyGet fun w => (w.calls, { w with calls := #[] })

def contextAndTree (p : Place) : Work (Context × Tree) := do
  return (← named p.context Workbench.contexts, ← named p.tree Workbench.trees)

def envOf (c : Context) : Download.Env := ⟨Suite.standard, c.opened.storage, c.topCrc⟩

/-- Keeps what an operation on a tree has left. -/
def keep (p : Place) (c : Context) (st : Download.State) : Work Unit := do
  modify fun w => { w with disk := st.disk }
  putContext p.context { c with meter := st.meter }
  putTree p.tree st.tree

def download {α : Type} (p : Place) (outlet : Outlet)
    (op : Download.Env → Download.Step α) : Work (Except TreeError α) := do
  let (c, t) ← contextAndTree p
  let (result, st) := (op (envOf c)).run ⟨t, (← get).disk, c.meter, #[]⟩
  keep p c st
  pass outlet st.calls
  return result

/-- Where the messages of a walk go, apart from those that a script rejects. -/
inductive Receiver
  | nobody
  | anybody
  | daemon
  deriving DecidableEq

/-- Inserts or deletes a subtree. Gives the messages that were sent to somebody. -/
def upload (p : Place) (direction : Upload) (node : NodeId) (receiver : Receiver)
    (script : List (Nat × SinkError)) : Work (Except TreeError Unit × Array ClientMessage) := do
  let (c, t) ← contextAndTree p
  let w ← get
  let nobody := receiver = .nobody
  let env : Upload.Env ScriptedSink :=
    { suite := Suite.standard
      disk := w.disk
      storage := c.opened.storage
      direction := direction
      priority := c.priority
      index := c.index
      sink := ScriptedSink.sink Suite.standard }
  let sink : ScriptedSink :=
    ⟨#[], if nobody then [] else script, if receiver = .daemon then some w.daemon else none⟩
  let (result, st) := (Upload.run env node).run ⟨t, c.meter, sink⟩
  set { w with daemon := st.sink.daemon.getD w.daemon }
  putContext p.context { c with meter := st.meter }
  putTree p.tree st.tree
  if nobody then return (result, #[])
  keepInserted st.sink.sent
  return (result, st.sink.sent)

def allocate (tree : String) (node : NodeId) : Work (Option (List NodeId)) := do
  let t ← named tree Workbench.trees
  let (ids, t) := t.allocateChildren node
  putTree tree t
  return ids

def free (tree : String) (node : NodeId) (outlet : Outlet) : Work Unit := do
  let t ← named tree Workbench.trees
  let (freed, t) := t.free node
  putTree tree t
  pass outlet (freed.map SchedulerCall.release).toArray

/-- Hands a block to the node of the first queued query that asks for it. -/
def route (p : Place) (b : Block) : Work (Option (Except TreeError Unit)) := do
  let hash := Suite.standard.hash b.toList
  match (← get).queue.find? (·.query.contains hash) with
  | none => return none
  | some e =>
    return some (← download p .queue fun env => Download.receive env e.node e.handler hash b)

/-- Serves the queue from the blocks kept so far. -/
def drive (p : Place) (limit : Nat) : Work (Except TreeError Unit × Replay.Drive) := do
  let (c, t) ← contextAndTree p
  let w ← get
  let (result, d) := Replay.Drive.run (envOf c) w.store limit
    ⟨⟨t, w.disk, c.meter, #[]⟩, w.queue, #[], 0⟩
  set { w with queue := d.queue, calls := w.calls ++ d.log }
  keep p c d.download
  return (result, d)

def onTable {α : Type} (f : RequestTable ChaCha → α × RequestTable ChaCha) : Work α := do
  let t ← OptionT.mk do return (← get).table
  let (a, t) := f t
  modify fun w => { w with table := some t }
  return a

def tick (now : Int) : Work Unit := do
  modify fun w => { w with clock := now }
  onTable fun t => ((), t.tick now)

def cycles (step : Int) (value : Int32) (n : Nat) : Work (List Replay.CycleRow) := do
  let clock := (← get).clock
  modify fun w => { w with clock := clock + step * n }
  onTable (Replay.cycles step value n clock)

/-- Runs a step on a tree and the table together. -/
def onTransfer {α : Type} (p : Place)
    (f : Download.Env → Transfer ChaCha → α × Transfer ChaCha) : Work (α × Transfer ChaCha) := do
  let (c, t) ← contextAndTree p
  let disk := (← get).disk
  let (a, x) ← onTable fun table =>
    let (a, x) := f (envOf c) ⟨⟨t, disk, c.meter, #[]⟩, table⟩
    ((a, x), x.table)
  keep p c x.download
  return (a, x)

def deliver (p : Place) (b : Block) : Work (Option Delivery × Transfer ChaCha) :=
  onTransfer p fun env x => x.deliver env b

/-- Serves the table from the blocks kept so far. -/
def pump (p : Place) (faults : Replay.Faults) (step : Int) (n : Nat) :
    Work (List Replay.Pump.Row × Replay.Pump.End × Replay.Pump ChaCha) := do
  let w ← get
  let ((rows, outcome, after), _) ← onTransfer p fun env x =>
    let (rows, outcome, after) := Replay.Pump.rounds env w.store faults step n ⟨x, w.clock, 0, 0⟩
    ((rows, outcome, after), after.transfer)
  modify fun w => { w with clock := after.clock }
  return (rows, outcome, after)

end ContentTree.Work

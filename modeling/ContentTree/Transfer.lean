import ContentTree.Requests.Schedule
import ContentTree.Tree.Download

/-!
A tree being downloaded together with the table of its outstanding queries.
-/

namespace ContentTree

structure Transfer (ρ : Type) where
  /-- Tree, disk and progress; its calls have been passed on to the table. -/
  download : Download.State
  table : RequestTable ρ

/-- A reply that some request was waiting for, and what the tree made of it. -/
structure Delivery where
  node : NodeId
  handler : ReplyHandler
  result : Except TreeError Unit

namespace Transfer

variable {ρ : Type}

def stats (x : Transfer ρ) : Progress := x.download.meter.stats

def isComplete (x : Transfer ρ) : Bool := x.download.tree.root.isNone

/-- Runs an operation on the tree and passes its calls on to the table. -/
def perform {α : Type} (x : Transfer ρ) (op : Download.Step α) :
    Except TreeError α × Transfer ρ :=
  let (result, state) := op.run x.download
  (result, ⟨{ state with calls := #[] }, state.calls.foldl RequestTable.call x.table⟩)

def onTable (x : Transfer ρ) (f : RequestTable ρ → RequestTable ρ) : Transfer ρ :=
  { x with table := f x.table }

/-- Copies the table's counters into the progress. -/
def copyStats (x : Transfer ρ) : Transfer ρ :=
  let meter := x.download.meter
  { x with
    download :=
      { x.download with meter := { meter with stats := x.table.stats.applyTo meter.stats } } }

/-- Matches a reply and hands it to the node that waits for it. A failure there drops every
request. -/
def deliver (env : Download.Env) (reply : Block) (x : Transfer ρ) :
    Option Delivery × Transfer ρ :=
  let (found, table) := x.table.matchReply env.suite reply
  let x := { x with table := table }
  match found with
  | none => (none, x)
  | some (node, handler, query) =>
    let (result, x) := x.copyStats.perform (Download.receive env node handler query reply)
    match result with
    | .error e => (some ⟨node, handler, .error e⟩, x.onTable (·.abortAll))
    | .ok () => (some ⟨node, handler, .ok ()⟩, x)

end Transfer

end ContentTree

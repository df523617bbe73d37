import ContentTree.Proofs.Requests.Questions
import ContentTree.Proofs.Runs
import ContentTree.Transfer

/-!
# Runs of a transfer

A transfer starts at the root of its tree with no request outstanding, and then takes one event after
the other as long as none of them fails.
-/

namespace ContentTree

namespace Transfer

variable {ρ : Type} {env : Download.Env} {x x' : Transfer ρ}

inductive Event
  /-- A reply routed to a node by any means. -/
  | receive (node : NodeId) (handler : ReplyHandler) (query : Digest) (reply : Block)
  /-- A reply routed by the table. -/
  | deliver (reply : Block)
  /-- A scheduling pass with the sender's answers. -/
  | pass (accepts : Nat → Query → Bool)
  | returnValue (value : Int32)
  | sendFailed
  | tick (now : Int)
  | observe (average : Nat)
  | record (kind : Option TrafficKind) (bytes peers : Nat)

def handle [RandomSource ρ] (env : Download.Env) (x : Transfer ρ) :
    Event → Except TreeError Unit × Transfer ρ
  | .receive node handler query reply => x.perform (Download.receive env node handler query reply)
  | .deliver reply =>
    let (delivery, x) := x.deliver env reply
    ((delivery.map Delivery.result).getD (.ok ()), x)
  | .pass accepts => (.ok (), x.onTable fun t => (t.schedule accepts).2)
  | .returnValue value => (.ok (), x.onTable (·.onReturnValue value))
  | .sendFailed => (.ok (), x.onTable (·.onSendFailed))
  | .tick now => (.ok (), x.onTable (·.tick now))
  | .observe average => (.ok (), x.onTable (·.observe average))
  | .record kind bytes peers => (.ok (), x.onTable (·.recordTraffic kind bytes peers))

/-- Nothing has been done yet for the file. -/
structure Fresh (f : FileIdentifier) (x : Transfer ρ) : Prop where
  tree : x.download.tree = Tree.forDownload f
  calls : x.download.calls = #[]
  requests : x.table.requests = []

/-- The states between two events, over events of the given kind, of a run in which nothing has
failed. -/
inductive Reachable [RandomSource ρ] (env : Download.Env) (kind : Event → Prop) (x : Transfer ρ) :
    Transfer ρ → Prop
  | start (hok : (x.perform (Download.start env 0)).1 = .ok ()) :
      Reachable env kind x (x.perform (Download.start env 0)).2
  | step {y : Transfer ρ} {e : Event} (h : Reachable env kind x y) (hkind : kind e)
      (hok : (y.handle env e).1 = .ok ()) : Reachable env kind x (y.handle env e).2

/-- Where no event of the kind fails, all events of a list can follow one another. -/
theorem Reachable.foldl [RandomSource ρ] {kind : Event → Prop} {y : Transfer ρ}
    (hok : ∀ y, Reachable env kind x y → ∀ e, kind e → (y.handle env e).1 = .ok ())
    (h : Reachable env kind x y) {events : List Event} (hkind : ∀ e ∈ events, kind e) :
    Reachable env kind x (events.foldl (fun y e => (y.handle env e).2) y) := by
  induction events generalizing y with
  | nil => exact h
  | cons e events ih =>
    obtain ⟨hfirst, hrest⟩ := List.forall_mem_cons.1 hkind
    exact ih (h.step hfirst (hok y h e hfirst)) hrest

theorem perform_of_ends {α : Type} {op : Download.Step α} {ok : α → Download.State → Prop}
    {fail : TreeError → Download.State → Prop} (h : Ends op x.download ok fail)
    {motive : Except TreeError α × Transfer ρ → Prop}
    (hok : ∀ a st, ok a st →
      motive (.ok a, ⟨{ st with calls := #[] }, st.calls.foldl RequestTable.call x.table⟩))
    (hfail : ∀ e st, fail e st →
      motive (.error e, ⟨{ st with calls := #[] }, st.calls.foldl RequestTable.call x.table⟩)) :
    motive (x.perform op) := by
  unfold Ends at h
  unfold perform
  rcases hrun : op.run x.download with ⟨e | a, st⟩
  · rw [hrun] at h
    exact hfail e st h
  · rw [hrun] at h
    exact hok a st h

end Transfer

end ContentTree

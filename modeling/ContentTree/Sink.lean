import ContentTree.Message

/-!
Where insertions and deletions send their messages, one verdict each.
-/

namespace ContentTree

inductive SinkError
  | unreachable (reason : String)
  | refused
  deriving DecidableEq, Repr

def SinkError.message : SinkError → String
  | .unreachable reason => s!"Daemon unreachable: {reason}"
  | .refused => "Daemon refused request"

/-- A receiver of messages with states in `σ`. -/
structure Sink (σ : Type) where
  submit : ClientMessage → σ → Except SinkError Unit × σ

/-- Accepts everything. -/
def Sink.discard : Sink Unit := ⟨fun _ u => (.ok (), u)⟩

end ContentTree

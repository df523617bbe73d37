import ContentTree.MemoryDaemon

/-!
A sink that records every message, rejects chosen ones, and may pass the rest on to a daemon.
-/

namespace ContentTree

structure ScriptedSink where
  sent : Array ClientMessage
  /-- Verdicts by number of the message. -/
  script : List (Nat × SinkError)
  daemon : Option MemoryDaemon

namespace ScriptedSink

def submit (s : Suite) (m : ClientMessage) (k : ScriptedSink) :
    Except SinkError Unit × ScriptedSink :=
  let n := k.sent.size
  let k := { k with sent := k.sent.push m }
  match k.script.lookup n with
  | some e => (.error e, k)
  | none =>
    match k.daemon with
    | none => (.ok (), k)
    | some d =>
      let (r, d) := d.submit s m
      (r, { k with daemon := some d })

def sink (s : Suite) : Sink ScriptedSink := ⟨submit s⟩

end ScriptedSink

end ContentTree

import ContentTree.FaultyConnection
import ContentTree.Session
import ContentTree.Workbench.Trees

/-!
Steps of a workbench on whole files and on its daemon.
-/

namespace ContentTree.Work

/-- Runs an operation that sends to the daemon, apart from messages that a script rejects. Gives the
messages too. -/
def withSink {α : Type} (script : List (Nat × SinkError))
    (op : Disk → Sink ScriptedSink → ScriptedSink → α × ScriptedSink) :
    Work (α × Array ClientMessage) := do
  let w ← get
  let (a, k) := op w.disk (ScriptedSink.sink Suite.standard) ⟨#[], script, some w.daemon⟩
  set { w with daemon := k.daemon.getD w.daemon }
  keepInserted k.sent
  return (a, k.sent)

def insertFile (path : String) (opts : InsertOptions) (script : List (Nat × SinkError)) :
    Work (Except ClientError FileIdentifier × Array ClientMessage) :=
  withSink script fun d => Files.insert Suite.standard d path opts

def deleteFile (path : String) (opts : InsertOptions) (expected : Option FileIdentifier)
    (script : List (Nat × SinkError)) : Work (Except ClientError Unit × Array ClientMessage) :=
  withSink script fun d => Files.delete Suite.standard d path opts expected

def identifyFile (path : String) (opts : InsertOptions) :
    Work (Except ClientError FileIdentifier) := do
  return Files.identify Suite.standard (← get).disk path opts

/-- What goes wrong in a download: streams out of step and replies that nobody asked for, ahead of
the replies that it causes, sends that fail, and resets that do. -/
structure Trouble where
  outOfStep : Nat
  stray : List DaemonMessage
  failingSends : Nat
  resetFails : Bool

/-- Downloads a file from the daemon. -/
def downloadFile (f : FileIdentifier) (path : String) (opts : DownloadOptions) (trouble : Trouble)
    (reports : List SessionEvent) (deadline : Option Int) : Work (Downloaded FaultyConnection) := do
  let w ← get
  let replies := w.daemon.replies ++
    List.replicate trouble.outOfStep (.error (.protocol (.unknownType 99))) ++
    trouble.stray.map .ok
  let start : FaultyConnection :=
    ⟨{ w.daemon with replies := replies }, trouble.failingSends, trouble.resetFails⟩
  let done := Files.download Suite.standard w.disk f path opts (ChaCha.ofSeed 0)
    (FaultyConnection.connection Suite.standard) start reports deadline
  set { w with disk := done.disk, daemon := done.connection.daemon }
  return done

/-- Applies an operation of the daemon. -/
def onDaemon {α : Type} (f : MemoryDaemon → α × MemoryDaemon) : Work α :=
  modifyGet fun w =>
    let (a, d) := f w.daemon
    (a, { w with daemon := d })

end ContentTree.Work

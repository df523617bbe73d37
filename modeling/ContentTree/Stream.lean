import ContentTree.Sink
import ContentTree.Transport

/-!
Frames read from a byte stream that may end anywhere, and the two clients of such a stream: a sink
that waits for a verdict after each message, and a connection that sends and receives apart.
-/

namespace ContentTree

/-- Why no frame could be taken from a stream. -/
inductive FramingError
  | endInHeader
  | badHeader (e : WireError)
  | endInBody
  deriving DecidableEq, Repr

namespace Stream

/-- Takes one frame. A header that declares less than its own size is taken alone, and a frame that
the stream cuts short takes all that is left. -/
def takeFrame (bs : Bytes) : Except FramingError Bytes × Bytes :=
  if bs.length < headerSize then (.error .endInHeader, [])
  else
    match Wire.parseHeader (bs.take headerSize) with
    | .error e => (.error (.badHeader e), bs.drop headerSize)
    | .ok (size, _) =>
      if bs.length < size then (.error .endInBody, []) else (.ok (bs.take size), bs.drop size)

end Stream

/-- A sink on a stream, as the bytes still to come. -/
structure StreamSink where
  incoming : Bytes

namespace StreamSink

/-- A read timeout must not be zero. -/
def checkTimeout (milliseconds : Nat) : Except SinkError Unit :=
  if milliseconds = 0 then .error (.unreachable "cannot set a 0 duration timeout") else .ok ()

/-- Sends a message and waits for its return value. Gives the frame sent, if there was one. -/
def exchange (m : ClientMessage) (s : StreamSink) :
    Except SinkError Int32 × Option Bytes × StreamSink :=
  match m.encode with
  | .error e => (.error (.unreachable e.message), none, s)
  | .ok frame =>
    let (reply, rest) := Stream.takeFrame s.incoming
    let value : Except SinkError Int32 :=
      match reply with
      | .error (.badHeader e) => .error (.unreachable e.message)
      | .error _ => .error (.unreachable "failed to fill whole buffer")
      | .ok bs =>
        match DaemonMessage.decode bs with
        | .ok (.returnValue v) => .ok v
        | .ok (.result _) => .error (.unreachable "unexpected result block")
        | .error e => .error (.unreachable e.message)
    (value, some frame, ⟨rest⟩)

/-- A negative return value is a refusal. -/
def verdict (value : Int32) : Except SinkError Unit :=
  if value.toInt < 0 then .error .refused else .ok ()

def submit (m : ClientMessage) (s : StreamSink) :
    Except SinkError Unit × Option Bytes × StreamSink :=
  let (value, sent) := exchange m s
  (value.bind verdict, sent)

/-- The average priority of recent queries; negative answers count as zero. -/
def averagePriority (s : StreamSink) : Except SinkError Nat × Option Bytes × StreamSink :=
  let (value, sent) := exchange .averagePriority s
  (value.map fun v => v.toInt.toNat, sent)

def sink : Sink StreamSink where
  submit m s :=
    let (r, _, s) := submit m s
    (r, s)

end StreamSink

/-- A connection by streams: what the present one still delivers, and what the next ones will. -/
structure StreamConnection where
  incoming : Option Bytes
  next : List Bytes

namespace StreamConnection

/-- Closes the present stream and opens the next one. -/
def reconnect (c : StreamConnection) : Except TransportError Unit × StreamConnection :=
  match c.next with
  | [] => (.error (.connectionFailed "connection refused"), ⟨none, []⟩)
  | bs :: rest => (.ok (), ⟨some bs, rest⟩)

def connect (streams : List Bytes) : Except TransportError StreamConnection :=
  match reconnect ⟨none, streams⟩ with
  | (.ok (), c) => .ok c
  | (.error e, _) => .error e

def close (c : StreamConnection) : StreamConnection := { c with incoming := none }

/-- The frame that goes out for a message. -/
def frame (m : ClientMessage) (c : StreamConnection) : Except TransportError Bytes :=
  match m.encode with
  | .error e => .error (.protocol e)
  | .ok bs => if c.incoming.isSome then .ok bs else .error .notConnected

def receive (c : StreamConnection) : Except TransportError DaemonMessage × StreamConnection :=
  match c.incoming with
  | none => (.error .notConnected, c)
  | some bs =>
    let (reply, rest) := Stream.takeFrame bs
    let message : Except TransportError DaemonMessage :=
      match reply with
      | .error .endInHeader => .error .disconnected
      | .error (.badHeader e) => .error (.protocol e)
      | .error .endInBody => .error (.receiveFailed "early eof")
      | .ok f => (DaemonMessage.decode f).mapError .protocol
    (message, { c with incoming := some rest })

def connection : Connection StreamConnection where
  send m c := ((frame m c).map fun _ => (), c)
  receive c :=
    let (r, c) := receive c
    (some r, c)
  reset := reconnect
  close := close

end StreamConnection

end ContentTree

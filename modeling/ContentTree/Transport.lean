import ContentTree.Wire

/-!
Connections to the daemon: a way to send, to receive and to connect again.
-/

namespace ContentTree

inductive TransportError
  | connectionFailed (reason : String)
  | sendFailed (reason : String)
  | receiveFailed (reason : String)
  /-- The daemon sent something without meaning; the stream is out of step. -/
  | protocol (e : WireError)
  | disconnected
  | notConnected
  deriving DecidableEq, Repr

def TransportError.message : TransportError → String
  | .connectionFailed reason => s!"Connection failed: {reason}"
  | .sendFailed reason => s!"Send failed: {reason}"
  | .receiveFailed reason => s!"Receive failed: {reason}"
  | .protocol e => s!"Protocol error: {e.message}"
  | .disconnected => "Disconnected"
  | .notConnected => "Not connected"

/-- A connection with states in `σ`. -/
structure Connection (σ : Type) where
  send : ClientMessage → σ → Except TransportError Unit × σ
  /-- The next message or error, or nothing if none has come yet. -/
  receive : σ → Option (Except TransportError DaemonMessage) × σ
  /-- Drops the stream and connects again. -/
  reset : σ → Except TransportError Unit × σ
  close : σ → σ

end ContentTree

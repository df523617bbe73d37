import ContentTree.MemoryDaemon

/-!
A connection to a daemon in memory that fails on purpose: its first sends do not reach the daemon,
or it cannot connect again.
-/

namespace ContentTree

structure FaultyConnection where
  daemon : MemoryDaemon
  /-- Sends that are still to fail. -/
  failingSends : Nat
  resetFails : Bool

namespace FaultyConnection

def send (s : Suite) (m : ClientMessage) (c : FaultyConnection) :
    Except TransportError Unit × FaultyConnection :=
  match c.failingSends with
  | n + 1 => (.error (.sendFailed "scripted"), { c with failingSends := n })
  | 0 =>
    let (r, d) := c.daemon.send s m
    (r, { c with daemon := d })

def receive (c : FaultyConnection) :
    Option (Except TransportError DaemonMessage) × FaultyConnection :=
  let (r, d) := c.daemon.receive
  (r, { c with daemon := d })

def reset (c : FaultyConnection) : Except TransportError Unit × FaultyConnection :=
  if c.resetFails then (.error (.connectionFailed "scripted"), c)
  else
    let (r, d) := c.daemon.reset
    (r, { c with daemon := d })

def connection (s : Suite) : Connection FaultyConnection :=
  ⟨send s, receive, reset, fun c => { c with daemon := c.daemon.close }⟩

end FaultyConnection

end ContentTree

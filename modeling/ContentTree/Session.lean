import ContentTree.Files
import ContentTree.Transfer

/-!
A download over a connection, as a loop over events. The tree asks for blocks through the request
table, the table decides when to send, and what comes back is matched and handed to the tree. The
download ends when the tree has no root left, at the first error, or when it is stopped.
-/

namespace ContentTree

structure DownloadOptions where
  tuning : Tuning
  sendPolicy : Int
  /-- Positive values hold queries back until enough traffic was recorded. -/
  receivePolicy : Int
  /-- Average priority that the daemon reports at the start. -/
  average : Nat

def DownloadOptions.ofSettings (tuning : Tuning) (s : AnonymitySettings) (average : Nat) :
    DownloadOptions :=
  ⟨tuning, s.sendPolicy.toInt, s.receivePolicy.toInt, average⟩

/-- Without a positive value there is no policy. -/
def DownloadOptions.policy (o : DownloadOptions) : Policy :=
  if o.sendPolicy ≤ 0 ∧ o.receivePolicy ≤ 0 then .open
  else .traffic (.new o.sendPolicy o.receivePolicy)

inductive SessionEvent
  | message (m : DaemonMessage)
  | sendFailed
  | closed (e : TransportError)
  | traffic (kind : Option TrafficKind) (bytes peers : Nat)
  | average (n : Nat)

structure Session (ρ σ : Type) where
  transfer : Transfer ρ
  /-- The progress last published. -/
  published : Progress
  /-- Queries sent but not yet written. -/
  outbound : List Query
  inbound : List SessionEvent
  connection : σ
  /-- The connection is still being read. -/
  reading : Bool
  clock : Int
  /-- When the next scheduling pass is due. -/
  timer : Option Int

namespace Session

variable {ρ σ : Type} [RandomSource ρ]

def onTable (s : Session ρ σ) (f : RequestTable ρ → RequestTable ρ) : Session ρ σ :=
  { s with transfer := s.transfer.onTable f }

def publish (s : Session ρ σ) : Session ρ σ :=
  let x := s.transfer.copyStats
  { s with transfer := x, published := x.stats }

/-- Tells the table the time. -/
def tick (s : Session ρ σ) : Session ρ σ := s.onTable (·.tick s.clock)

/-- Starts at the root. -/
def start (env : Download.Env) (s : Session ρ σ) : Except ClientError Unit × Session ρ σ :=
  match s.transfer.download.tree.root with
  | none => (.ok (), s.publish)
  | some root =>
    let s := s.tick
    let (result, x) := s.transfer.perform (Download.start env root)
    let s := { s with transfer := x }
    match result with
    | .error e => (.error (.tree e), s)
    | .ok () => (.ok (), s.publish)

/-- A scheduling pass. Queries are accepted while there is room before the writer. -/
def schedule (s : Session ρ σ) : Session ρ σ :=
  let s := s.tick
  let room := max s.transfer.table.tuning.sendQueue 1 - s.outbound.length
  let (result, table) := s.transfer.table.schedule fun n _ => n < room
  let s := publish <| onTable { s with outbound := s.outbound ++ result.sent } fun _ => table
  match result.next with
  | none => s
  | some wait => { s with timer := some (s.clock + wait) }

def handle (env : Download.Env) (s : Session ρ σ) : SessionEvent →
    Except ClientError Unit × Session ρ σ
  | .message (.returnValue v) => (.ok (), (s.tick.onTable (·.onReturnValue v)).publish)
  | .message (.result b) =>
    let s := s.tick
    let (delivery, x) := s.transfer.deliver env b
    let s := { s with transfer := x }
    match delivery.map Delivery.result with
    | some (.error e) => (.error (.tree e), s)
    | _ => (.ok (), s.publish)
  | .sendFailed => (.ok (), (s.tick.onTable (·.onSendFailed)).publish)
  | .closed e => (.error (.transport e), s.tick)
  | .traffic kind bytes peers => (.ok (), s.onTable (·.recordTraffic kind bytes peers))
  | .average n => (.ok (), s.onTable (·.observe n))

/-- Reads once. A stream out of step is reset, and reading goes on if that succeeds. -/
def read (conn : Connection σ) (s : Session ρ σ) : Option (Session ρ σ) :=
  if ¬ s.reading then none
  else
    match conn.receive s.connection with
    | (none, _) => none
    | (some (.ok m), c) =>
      some { s with connection := c, inbound := s.inbound ++ [.message m] }
    | (some (.error (.protocol _)), c) =>
      match conn.reset c with
      | (.ok (), c) => some { s with connection := c }
      | (.error e, c) =>
        some { s with connection := c, reading := false, inbound := s.inbound ++ [.closed e] }
    | (some (.error e), c) =>
      some { s with connection := c, reading := false, inbound := s.inbound ++ [.closed e] }

/-- Reads what has come already, at most `n` times. -/
def drain (conn : Connection σ) : Nat → Session ρ σ → Session ρ σ
  | 0, s => s
  | n + 1, s =>
    match s.read conn with
    | none => s
    | some s => drain conn n s

/-- Writes the oldest query. -/
def write (conn : Connection σ) (s : Session ρ σ) : Option (Session ρ σ) :=
  match s.outbound with
  | [] => none
  | q :: qs =>
    match conn.send (.query q) s.connection with
    | (.ok (), c) => some { s with connection := c, outbound := qs }
    | (.error _, c) =>
      some { s with connection := c, outbound := qs, inbound := s.inbound ++ [.sendFailed] }

/-- Lets time pass until the next scheduling pass, but not beyond `deadline`. -/
def wait (deadline : Option Int) (s : Session ρ σ) : Option (Session ρ σ) :=
  match s.timer with
  | none => none
  | some time =>
    if deadline.any (· < time) then none
    else some { s with clock := max s.clock time, timer := none }

/-- How a session ends: with success or an error, or stopped before either. -/
inductive End
  | finished (result : Except ClientError Unit)
  | stopped

/-- At most `fuel` events. Each turn passes the table if it asks for it, and then takes the first of
what is possible: an event, reading, writing, waiting. -/
def loop (env : Download.Env) (conn : Connection σ) (deadline : Option Int) :
    Nat → Session ρ σ → End × Session ρ σ
  | 0, s => (.stopped, s)
  | fuel + 1, s =>
    if s.transfer.isComplete then (.finished (.ok ()), s)
    else
      let (wake, table) := s.transfer.table.takeWake
      let s := s.onTable fun _ => table
      let s := if wake ∨ s.timer.isNone then s.schedule else s
      match s.inbound with
      | event :: rest =>
        match handle env { s with inbound := rest } event with
        | (.error e, s) => (.finished (.error e), s)
        | (.ok (), s) => loop env conn deadline fuel s
      | [] =>
        match (s.read conn <|> s.write conn) <|> s.wait deadline with
        | some s => loop env conn deadline fuel s
        | none => (.stopped, s)

/-- Closes the connection, clears the table and frees what is left of the tree. -/
def teardown (conn : Connection σ) (s : Session ρ σ) : Session ρ σ :=
  let s := onTable { s with connection := conn.close s.connection } (·.clear)
  let s :=
    match s.transfer.download.tree.root with
    | none => s
    | some root => { s with transfer := (s.transfer.perform (Download.free root)).2 }
  s.publish

/-- Turns after which a session that makes no progress is given up. -/
def turnLimit : Nat := 1000000

/-- A session from its start to its end. What the connection holds at first is read even if the tree
needs nothing. -/
def run (env : Download.Env) (conn : Connection σ) (deadline : Option Int) (s : Session ρ σ) :
    End × Session ρ σ :=
  let (outcome, s) :=
    match (s.drain conn turnLimit).start env with
    | (.error e, s) => (End.finished (.error e), s)
    | (.ok (), s) => s.loop env conn deadline turnLimit
  (outcome, s.teardown conn)

end Session

/-- A finished download. -/
structure Downloaded (σ : Type) where
  result : Except ClientError Progress
  published : Progress
  disk : Disk
  connection : σ

namespace Files

variable {ρ σ : Type} [RandomSource ρ]

/-- Downloads a file to `path`, after taking in `reports` of traffic and priorities. A session that
reaches `deadline` is stopped and keeps what it has. After success the files of the levels above 0
are removed. Nothing is sent unless the target can be opened. -/
def download (suite : Suite) (d : Disk) (f : FileIdentifier) (path : String)
    (opts : DownloadOptions) (random : ρ) (conn : Connection σ) (connection : σ)
    (reports : List SessionEvent) (deadline : Option Int) : Downloaded σ :=
  let size := f.length.toNat
  match Storage.openWritable d size path with
  | (.error e, d) => ⟨.error (.storage e), .new size, d, connection⟩
  | (.ok storage, d) =>
    let env : Download.Env := ⟨suite, storage, some f.crc⟩
    let session : Session ρ σ :=
      { transfer :=
          ⟨⟨Tree.forDownload f, d, .new size, #[]⟩,
            .new opts.tuning random opts.policy opts.average⟩
        published := .new size
        outbound := []
        inbound := reports
        connection := connection
        reading := true
        clock := 0
        timer := none }
    let (outcome, s) := session.run env conn deadline
    let disk := s.transfer.download.disk
    let stats := s.transfer.stats
    match outcome with
    | .finished (.error e) => ⟨.error e, s.published, disk, s.connection⟩
    | .finished (.ok ()) =>
      ⟨.ok stats, s.published,
        if deadline.isSome then disk else storage.unlink disk, s.connection⟩
    | .stopped => ⟨.ok stats, s.published, disk, s.connection⟩

end Files

end ContentTree

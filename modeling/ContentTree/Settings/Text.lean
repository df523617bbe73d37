import ContentTree.Settings
import ContentTree.Toml.Document

/-!
Settings as TOML text. Reading ignores what it does not know and fills in the default of what is
missing, but a field of the wrong kind or beyond its range is an error. A section may also be an
array that gives the fields in their order.
-/

namespace ContentTree

open Toml (Value)

/-- Finds the fields of a section by name or by position. -/
abbrev Fields := String → Nat → Option Value

namespace Fields

def ofValue? : Value → Option Fields
  | .table t => some fun name _ => t.get? name
  | .array items => some fun _ i => items[i]?
  | .tables ts => some fun _ i => ts[i]?.map .table
  | .datetime _ => some fun _ _ => none
  | _ => none

/-- A field by name and position. -/
def read {α : Type} (f : Fields) (kind : Value → Option α) (name : String) (i : Nat)
    (fallback : α) : Option α :=
  match f name i with
  | none => some fallback
  | some v => kind v

end Fields

namespace Settings

def string? : Value → Option String
  | .string s => some s
  | _ => none

def boolean? : Value → Option Bool
  | .boolean b => some b
  | _ => none

/-- An integer of `bits` bits without sign. -/
def natural? (bits : Nat) : Value → Option Nat
  | .integer i => if 0 ≤ i ∧ i < Nat.pow 2 bits then some i.toNat else none
  | _ => none

def uint32? (v : Value) : Option UInt32 := (natural? 32 v).map UInt32.ofNat

def uint64? (v : Value) : Option UInt64 := (natural? 64 v).map UInt64.ofNat

def int32? : Value → Option Int32
  | .integer i => if Int32.minValue.toInt ≤ i ∧ i ≤ Int32.maxValue.toInt then some (Int32.ofInt i) else none
  | _ => none

def daemonOf (f : Fields) : Option DaemonSettings := do
  let d := DaemonSettings.default
  return ⟨← f.read string? "address" 0 d.address,
    ← f.read uint64? "reconnect_delay_ms" 1 d.reconnectDelayMs⟩

def contentOf (f : Fields) : Option ContentSettings := do
  let d := ContentSettings.default
  return ⟨← f.read uint32? "priority" 0 d.priority, ← f.read boolean? "index" 1 d.index⟩

def schedulerOf (f : Fields) : Option SchedulerSettings := do
  let d := SchedulerSettings.default
  return {
    ttlDecrementMs := ← f.read uint64? "ttl_decrement_ms" 0 d.ttlDecrementMs
    maxTtlFactor := ← f.read uint64? "max_ttl_factor" 1 d.maxTtlFactor
    initialTtlMs := ← f.read uint64? "initial_ttl_ms" 2 d.initialTtlMs
    initialCongestionWindow :=
      ← f.read uint32? "initial_congestion_window" 3 d.initialCongestionWindow
    initialSsthresh := ← f.read uint32? "initial_ssthresh" 4 d.initialSsthresh
    maxTries := ← f.read uint32? "max_tries" 5 d.maxTries
    ttlWeight := ← f.read uint64? "ttl_weight" 6 d.ttlWeight
    ttlWeightFast := ← f.read uint64? "ttl_weight_fast" 7 d.ttlWeightFast
    minSleepMs := ← f.read uint64? "min_sleep_ms" 8 d.minSleepMs
    maxSleepMs := ← f.read uint64? "max_sleep_ms" 9 d.maxSleepMs }

def anonymityOf (f : Fields) : Option AnonymitySettings := do
  let d := AnonymitySettings.default
  return ⟨← f.read int32? "send_policy" 0 d.sendPolicy,
    ← f.read int32? "receive_policy" 1 d.receivePolicy⟩

def ofTable? (t : Toml.Table) : Option Settings := do
  let f : Fields := fun name _ => t.get? name
  let section? {α : Type} (read : Fields → Option α) (v : Value) : Option α :=
    (Fields.ofValue? v).bind read
  return {
    daemon := ← f.read (section? daemonOf) "daemon" 0 .default
    content := ← f.read (section? contentOf) "content" 1 .default
    scheduler := ← f.read (section? schedulerOf) "scheduler" 2 .default
    anonymity := ← f.read (section? anonymityOf) "anonymity" 3 .default }

def parse? (text : String) : Option Settings := (Toml.parse? text).bind ofTable?

def sections (s : Settings) : List Toml.Section :=
  [⟨"daemon", [
      ("address", .string s.daemon.address),
      ("reconnect_delay_ms", .integer s.daemon.reconnectDelayMs.toNat)]⟩,
    ⟨"content", [
      ("priority", .integer s.content.priority.toNat),
      ("index", .boolean s.content.index)]⟩,
    ⟨"scheduler", [
      ("ttl_decrement_ms", .integer s.scheduler.ttlDecrementMs.toNat),
      ("max_ttl_factor", .integer s.scheduler.maxTtlFactor.toNat),
      ("initial_ttl_ms", .integer s.scheduler.initialTtlMs.toNat),
      ("initial_congestion_window", .integer s.scheduler.initialCongestionWindow.toNat),
      ("initial_ssthresh", .integer s.scheduler.initialSsthresh.toNat),
      ("max_tries", .integer s.scheduler.maxTries.toNat),
      ("ttl_weight", .integer s.scheduler.ttlWeight.toNat),
      ("ttl_weight_fast", .integer s.scheduler.ttlWeightFast.toNat),
      ("min_sleep_ms", .integer s.scheduler.minSleepMs.toNat),
      ("max_sleep_ms", .integer s.scheduler.maxSleepMs.toNat)]⟩,
    ⟨"anonymity", [
      ("send_policy", .integer s.anonymity.sendPolicy.toInt),
      ("receive_policy", .integer s.anonymity.receivePolicy.toInt)]⟩]

/-- The text of settings. There is none if a number exceeds the signed range of 64 bits. -/
def render? (s : Settings) : Option String := Toml.render? s.sections

end Settings

end ContentTree

import ContentTree.Policy
import ContentTree.Settings

/-!
Parameters of the request table. All times are in milliseconds.
-/

namespace ContentTree

structure Tuning where
  ttlDecrement : Nat
  maxTtlFactor : Nat
  initialTtl : Nat
  initialWindow : Nat
  initialThreshold : Nat
  maxTries : Nat
  ttlWeight : Nat
  ttlWeightFast : Nat
  minSleep : Nat
  maxSleep : Nat
  /-- Queries waiting to be written before a send counts as failed. -/
  sendQueue : Nat
  deriving DecidableEq, Repr

/-- A 64-bit word read as a signed number. -/
def signed64 (n : Nat) : Int := Int.bmod n UInt64.size

/-- A signed number written to a 64-bit word. -/
def unsigned64 (i : Int) : Nat := (i % UInt64.size).toNat

def clampTo (low high i : Int) : Int := max low (min high i)

namespace Tuning

def maxTtl (t : Tuning) : Nat := saturate64 (t.ttlDecrement * t.maxTtlFactor)

/-- Tries between two warnings that content seems unavailable. -/
def triesPerWarning (t : Tuning) : Nat := max t.maxTries 1 * 50

/-- At least one try is made, and the sleep limits are put in order. -/
def ofSettings (s : SchedulerSettings) : Tuning where
  ttlDecrement := s.ttlDecrementMs.toNat
  maxTtlFactor := s.maxTtlFactor.toNat
  initialTtl := s.initialTtlMs.toNat
  initialWindow := s.initialCongestionWindow.toNat
  initialThreshold := s.initialSsthresh.toNat
  maxTries := max s.maxTries.toNat 1
  ttlWeight := s.ttlWeight.toNat
  ttlWeightFast := s.ttlWeightFast.toNat
  minSleep := s.minSleepMs.toNat
  maxSleep := max s.maxSleepMs.toNat s.minSleepMs.toNat
  sendQueue := 256

def default : Tuning := ofSettings .default

end Tuning

end ContentTree

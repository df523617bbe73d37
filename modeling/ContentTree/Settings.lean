/-!
Settings shared by the tools of a client, with their defaults.
-/

namespace ContentTree

structure DaemonSettings where
  address : String
  reconnectDelayMs : UInt64
  deriving DecidableEq

/-- How inserted content is announced. -/
structure ContentSettings where
  /-- Priority attached to inserted and indexed blocks. -/
  priority : UInt32
  /-- Index leaves in place instead of uploading them. -/
  index : Bool
  deriving DecidableEq

structure SchedulerSettings where
  ttlDecrementMs : UInt64
  /-- Hard limit on the time to live, in multiples of the decrement. -/
  maxTtlFactor : UInt64
  initialTtlMs : UInt64
  initialCongestionWindow : UInt32
  initialSsthresh : UInt32
  maxTries : UInt32
  /-- Weight of the past in the estimate of the time to live. -/
  ttlWeight : UInt64
  /-- The same for a reply that took unusually long. -/
  ttlWeightFast : UInt64
  minSleepMs : UInt64
  maxSleepMs : UInt64
  deriving DecidableEq

/-- Cover traffic that sending asks for; 0 asks for none. -/
structure AnonymitySettings where
  sendPolicy : Int32
  receivePolicy : Int32
  deriving DecidableEq

structure Settings where
  daemon : DaemonSettings
  content : ContentSettings
  scheduler : SchedulerSettings
  anonymity : AnonymitySettings
  deriving DecidableEq

def DaemonSettings.default : DaemonSettings := ⟨"127.0.0.1:2087", 1000⟩

def ContentSettings.default : ContentSettings := ⟨65535, false⟩

def SchedulerSettings.default : SchedulerSettings where
  ttlDecrementMs := 5000
  maxTtlFactor := 100
  initialTtlMs := 5000
  initialCongestionWindow := 1
  initialSsthresh := 65535
  maxTries := 50
  ttlWeight := 15
  ttlWeightFast := 127
  minSleepMs := 100
  maxSleepMs := 5000

def AnonymitySettings.default : AnonymitySettings := ⟨0, 0⟩

def Settings.default : Settings := ⟨.default, .default, .default, .default⟩

end ContentTree

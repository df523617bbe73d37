/-!
Progress and request statistics of one operation.
-/

namespace ContentTree

structure Progress where
  /-- Bytes of the file processed so far. -/
  progress : Nat
  fileSize : Nat
  requestsSent : Nat
  requestsPending : Nat
  /-- Retransmissions of requests that are still outstanding. -/
  currentRetries : Nat
  totalRetries : Nat
  /-- Time to live of the most recent query. -/
  currentTtl : Nat
  /-- Replies that matched no outstanding query. -/
  duplicates : Nat
  deriving DecidableEq, Repr

namespace Progress

def new (fileSize : Nat) : Progress := ⟨0, fileSize, 0, 0, 0, 0, 0, 0⟩

def isComplete (p : Progress) : Bool := p.fileSize ≤ p.progress

end Progress

/-- Progress together with the values it was reported at. -/
structure Meter where
  stats : Progress
  reports : Array Nat

namespace Meter

def new (fileSize : Nat) : Meter := ⟨.new fileSize, #[]⟩

/-- Accounts for `bytes` more bytes and reports the result. -/
def add (m : Meter) (bytes : Nat) : Meter :=
  let progress := m.stats.progress + bytes
  ⟨{ m.stats with progress := progress }, m.reports.push progress⟩

end Meter

end ContentTree

import ContentTree.Message
import ContentTree.Node

/-!
What a download asks of the scheduler of its queries, as a sequence of calls, and the plain queue
that keeps outstanding queries in order.
-/

namespace ContentTree

/-- What a reply to a query is. -/
inductive ReplyHandler
  /-- The block of the node that asked. -/
  | own
  /-- The block of one of its children. -/
  | children
  deriving DecidableEq, Repr

inductive SchedulerCall
  | request (node : NodeId) (handler : ReplyHandler) (query : Query)
  /-- Replaces the node's query, or drops it. -/
  | update (node : NodeId) (query : Option Query)
  /-- Halves the time to live of every outstanding query. -/
  | endgame
  /-- The node is freed. -/
  | release (node : NodeId)
  deriving DecidableEq

structure QueuedQuery where
  node : NodeId
  handler : ReplyHandler
  query : Query
  deriving DecidableEq

/-- Outstanding queries in the order of their requests. -/
abbrev QueryQueue := List QueuedQuery

namespace QueryQueue

def replaceFirst (node : NodeId) (query : Query) : QueryQueue → QueryQueue
  | [] => []
  | q :: qs => if q.node = node then { q with query := query } :: qs
    else q :: replaceFirst node query qs

def call (q : QueryQueue) : SchedulerCall → QueryQueue
  | .request node handler query => q ++ [⟨node, handler, query⟩]
  | .update node (some query) => replaceFirst node query q
  | .update node none => q.eraseP (·.node = node)
  | .endgame => q
  | .release node => q.filter (·.node ≠ node)

end QueryQueue

end ContentTree

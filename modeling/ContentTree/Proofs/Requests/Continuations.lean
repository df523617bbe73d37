import Mathlib.Data.List.Nodup
import ContentTree.Requests.Schedule

/-!
# Sends and their continuations

What one operation on the table does to the queue of sends that wait for a verdict: a pass appends
one continuation for each query that the sender accepts, a verdict takes the oldest one off, and
every other operation leaves each continuation in its place.
-/

namespace ContentTree

/-- Where keys are distinct, the key of an element finds the element. -/
theorem find?_key {α β : Type} [DecidableEq β] {key : α → β} {l : List α} {x : α}
    (hnodup : (l.map key).Nodup) (hx : x ∈ l) : l.find? (key · = key x) = some x := by
  cases hfind : l.find? (key · = key x) with
  | none => simpa using List.find?_eq_none.1 hfind x hx
  | some found =>
    have hkey : key found = key x := by simpa using List.find?_some hfind
    rw [List.inj_on_of_nodup_map hnodup (List.mem_of_find?_eq_some hfind) hx hkey]

namespace RequestTable

variable {ρ : Type}

@[simp]
theorem unresolved_congestion (t : RequestTable ρ) : t.congestion.unresolved = t.unresolved := by
  unfold congestion
  dsimp only
  split <;> split <;> rfl

@[simp]
theorem stats_congestion (t : RequestTable ρ) : t.congestion.stats = t.stats := by
  unfold congestion
  dsimp only
  split <;> split <;> rfl

@[simp]
theorem unresolved_settle (t : RequestTable ρ) (u : Unresolved) (ok : Bool) :
    (t.settle u ok).unresolved = t.unresolved := by
  unfold settle
  split
  · rfl
  · cases ok with
    | true =>
      simp only [if_true]
      split
      · simp
      · rfl
    | false => rfl

/-- The request as it was before the send. -/
def reverted (u : Unresolved) (e : Request) : Request :=
  { e with
    query := ⟨u.priority, u.ttl, e.query.hashes⟩
    lastSend := u.lastSend
    tries := e.tries - 1 }

/-- Undoing a send changes one request at most. -/
theorem settle_false (t : RequestTable ρ) (u : Unresolved) :
    ∃ requests, t.settle u false = { t with requests := requests } ∧
      (requests = t.requests ∨ ∃ node, requests = modifyFirst (reverted u) node t.requests) := by
  unfold settle
  split
  · exact ⟨t.requests, rfl, .inl rfl⟩
  · rename_i e _
    exact ⟨modifyFirst (reverted u) e.node t.requests, rfl, .inr ⟨e.node, rfl⟩⟩

theorem unresolved_settleOldest (t : RequestTable ρ) (ok : Bool) :
    (t.settleOldest ok).unresolved = t.unresolved.tail := by
  unfold settleOldest
  split <;> simp_all

@[simp]
theorem unresolved_matchReply (s : Suite) (t : RequestTable ρ) (reply : Block) :
    (t.matchReply s reply).2.unresolved = t.unresolved := by
  unfold matchReply
  dsimp only
  split
  · simp
  · split <;> rfl

variable [RandomSource ρ]

/-- The request `e'` asks the same thing of the same node as `e`. -/
def SameQuestion (e e' : Request) : Prop :=
  e'.node = e.node ∧ e'.handler = e.handler ∧ e'.query.hashes = e.query.hashes

/-- The request `e'` is what an attempt makes of `e`: the same question, and a new time when it was
sent. -/
structure Retimed (t : RequestTable ρ) (e e' : Request) : Prop where
  question : SameQuestion e e'
  lastSend : ∃ r, e'.lastSend = some (t.sendTime e r).1
  replies : e'.replies ≤ e.replies

/-- An attempt is held back by the policy, or it hands a query to the sender, and then it queues a
continuation or is undone. -/
theorem attempt_cases (accepts : Query → Bool) (t : RequestTable ρ) (j : Nat) (e : Request) :
    (∃ held policy random, t.Retimed e held ∧ held.tries = e.tries ∧
      t.attempt accepts j e =
        ⟨{ t with requests := t.requests.set j held, policy := policy, random := random },
          none, false, false⟩) ∨
    ∃ sending undo policy random count ttl unavailable, t.Retimed e sending ∧
      sending.tries = e.tries + 1 ∧ undo.node = some e.node ∧ undo.lastSend = e.lastSend ∧
      t.attempt accepts j e =
        let sent : RequestTable ρ :=
          { t with
            requests := t.requests.set j sending
            policy := policy
            random := random
            stats := { t.stats with pending := count, sent := count, currentTtl := ttl } }
        if accepts sending.query then
          ⟨{ sent with unresolved := t.unresolved ++ [undo] }, some sending.query, true,
            unavailable⟩
        else ⟨sent.settle undo false, some sending.query, false, unavailable⟩ := by
  unfold attempt
  dsimp only
  split
  · refine Or.inl ⟨_, _, _, ⟨?_, ⟨(t.grownTtl e).2, ?_⟩, ?_⟩, ?_, rfl⟩
    · exact ⟨rfl, rfl, rfl⟩
    · rfl
    · exact Nat.le_refl _
    · rfl
  · simp only [List.set_set]
    refine Or.inr ⟨_, _, _, _, _, _, _, ⟨?_, ⟨(t.grownTtl e).2, ?_⟩, ?_⟩, ?_, ?_, ?_, rfl⟩
    · split <;> exact ⟨rfl, rfl, rfl⟩
    · split <;> rfl
    · split
      · exact Nat.div_le_self _ _
      · exact Nat.le_refl _
    · split <;> rfl
    · rfl
    · rfl

/-- A visit leaves everything but the random source alone, or it is an attempt. -/
theorem visit_cases (accepts : Nat → Query → Bool) (p : Pass ρ) (j : Nat) :
    (∃ r, (p.visit accepts j).table = { p.table with random := r } ∧
      (p.visit accepts j).sent = p.sent) ∨
    ∃ e r, p.table.requests[j]? = some e ∧
      let a := attempt (accepts p.offered) { p.table with random := r } j e
      (p.visit accepts j).table = a.table ∧
        (p.visit accepts j).sent = if a.accepted then p.sent ++ a.offered.toList else p.sent := by
  unfold Pass.visit
  dsimp only
  split
  · exact .inl ⟨p.table.random, rfl, rfl⟩
  · rename_i e he
    split
    · split
      · exact .inr ⟨e, _, he, rfl, rfl⟩
      · exact .inl ⟨_, rfl, rfl⟩
    · exact .inl ⟨p.table.random, rfl, rfl⟩

end RequestTable

end ContentTree

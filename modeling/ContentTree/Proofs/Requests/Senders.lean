import ContentTree.Proofs.Requests.Questions

/-!
# Who sends in a pass

A pass visits the requests in random order and hands the queries of some of them to the sender. Each
query that the sender accepts queues one continuation, and the continuation names the node that the
query is for.
-/

namespace ContentTree

namespace RequestTable

variable {ρ : Type}

def nodes (t : RequestTable ρ) : List NodeId := t.requests.map (·.node)

theorem nodes_eq (t : RequestTable ρ) : t.nodes = t.questions.map Prod.fst := by
  simp only [nodes, questions, List.map_map]
  rfl

theorem nodes_eq_of_questions {t t' : RequestTable ρ} (h : t'.questions = t.questions) :
    t'.nodes = t.nodes := by
  rw [nodes_eq, nodes_eq, h]

variable [RandomSource ρ]

/-- The order of visits in a pass, and the pass before the first of them. -/
def opened (t : RequestTable ρ) : List Nat × Pass ρ :=
  let (order, r) := RandomSource.shuffle t.requests.length t.random
  (order, {
    table := { t with wake := false, random := r }
    pending := t.requests.countP t.inFlight
    sleep := signed64 t.tuning.maxSleep
    unavailable := []
    offered := 0
    sent := [] })

theorem schedule_of_ne_nil {t : RequestTable ρ} (accepts : Nat → Query → Bool)
    (h : t.requests ≠ []) :
    t.schedule accepts =
      let p := t.opened.1.foldl (Pass.visit accepts) t.opened.2
      (⟨some (unsigned64 (max p.sleep (signed64 t.tuning.minSleep))), p.unavailable, p.sent⟩,
        p.table) := by
  unfold schedule
  rw [if_neg (by simpa using h)]
  rfl

theorem schedule_of_nil {t : RequestTable ρ} (accepts : Nat → Query → Bool)
    (h : t.requests = []) : t.schedule accepts = (⟨none, [], []⟩, { t with wake := false }) := by
  unfold schedule
  rw [if_pos (by simp [h])]

/-- The node whose query the sender accepts on a visit, if it accepts one. -/
def senderAt (accepts : Nat → Query → Bool) (p : Pass ρ) (j : Nat) : List NodeId :=
  if p.sent.length < (p.visit accepts j).sent.length then p.table.nodes[j]?.toList else []

/-- The nodes whose queries the sender accepts on these visits, in order. -/
def sendersOf (accepts : Nat → Query → Bool) : Pass ρ → List Nat → List NodeId
  | _, [] => []
  | p, j :: order => senderAt accepts p j ++ sendersOf accepts (p.visit accepts j) order

def senders (accepts : Nat → Query → Bool) (t : RequestTable ρ) : List NodeId :=
  sendersOf accepts t.opened.2 t.opened.1

theorem nodes_visit (accepts : Nat → Query → Bool) (p : Pass ρ) (j : Nat) :
    (p.visit accepts j).table.nodes = p.table.nodes :=
  nodes_eq_of_questions (questions_visit accepts p j)

theorem nodes_schedule (accepts : Nat → Query → Bool) (t : RequestTable ρ) :
    (t.schedule accepts).2.nodes = t.nodes :=
  nodes_eq_of_questions (questions_schedule accepts t)

/-- The continuation of a send names the node that sends. -/
theorem unresolved_visit_node (accepts : Nat → Query → Bool) (p : Pass ρ) (j : Nat) :
    ∃ news : List Unresolved,
      (p.visit accepts j).table.unresolved = p.table.unresolved ++ news ∧
      news.map (·.node) = (senderAt accepts p j).map some ∧
      (p.visit accepts j).sent.length = p.sent.length + (senderAt accepts p j).length := by
  have hsilent : (p.visit accepts j).table.unresolved = p.table.unresolved →
      (p.visit accepts j).sent = p.sent → ∃ news : List Unresolved,
        (p.visit accepts j).table.unresolved = p.table.unresolved ++ news ∧
        news.map (·.node) = (senderAt accepts p j).map some ∧
        (p.visit accepts j).sent.length = p.sent.length + (senderAt accepts p j).length := by
    intro hsame hsent
    have hnobody : senderAt accepts p j = [] := by
      rw [senderAt, hsent, if_neg (Nat.lt_irrefl _)]
    exact ⟨[], by simp [hsame], by simp [hnobody], by simp [hnobody, hsent]⟩
  obtain ⟨r, htable, hsent⟩ | ⟨e, r, he, htable, hsent⟩ := visit_cases accepts p j
  · exact hsilent (by rw [htable]) hsent
  · obtain ⟨held, policy, random, -, -, hattempt⟩ |
      ⟨sending, undo, policy, random, count, ttl, unavailable, -, -, hnode, -, hattempt⟩ :=
        attempt_cases (accepts p.offered) { p.table with random := r } j e
    · rw [hattempt] at htable hsent
      exact hsilent (by rw [htable]) (by simpa using hsent)
    · rw [hattempt] at htable hsent
      by_cases haccepts : accepts p.offered sending.query
      · simp only [haccepts, if_true] at htable hsent
        have hsender : senderAt accepts p j = [e.node] := by
          rw [senderAt, hsent]
          simp [nodes, he]
        exact ⟨[undo], by rw [htable], by simp [hsender, hnode], by simp [hsender, hsent]⟩
      · simp only [haccepts, Bool.false_eq_true, if_false] at htable hsent
        exact hsilent (by rw [htable, unresolved_settle]) hsent

theorem unresolved_visits_node (accepts : Nat → Query → Bool) (order : List Nat) (p : Pass ρ) :
    ∃ news : List Unresolved,
      (order.foldl (Pass.visit accepts) p).table.unresolved = p.table.unresolved ++ news ∧
      news.map (·.node) = (sendersOf accepts p order).map some ∧
      (order.foldl (Pass.visit accepts) p).sent.length =
        p.sent.length + (sendersOf accepts p order).length := by
  induction order generalizing p with
  | nil => exact ⟨[], by simp [sendersOf]⟩
  | cons j order ih =>
    obtain ⟨first, hfirst, hnode, hlength⟩ := unresolved_visit_node accepts p j
    obtain ⟨rest, hrest, hnodes, hlengths⟩ := ih (p.visit accepts j)
    refine ⟨first ++ rest, ?_, ?_, ?_⟩
    · rw [List.foldl_cons, hrest, hfirst, List.append_assoc]
    · rw [List.map_append, hnode, hnodes, sendersOf, List.map_append]
    · rw [List.foldl_cons, hlengths, hlength, sendersOf, List.length_append, Nat.add_assoc]

theorem mem_nodes_of_mem_sendersOf {accepts : Nat → Query → Bool} {order : List Nat} {p : Pass ρ}
    {node : NodeId} (h : node ∈ sendersOf accepts p order) : node ∈ p.table.nodes := by
  induction order generalizing p with
  | nil => cases h
  | cons j order ih =>
    rcases List.mem_append.1 h with hhere | hlater
    · unfold senderAt at hhere
      split at hhere
      · exact List.mem_of_getElem? (Option.mem_toList.1 hhere)
      · cases hhere
    · rw [← nodes_visit accepts p j]
      exact ih hlater

/-- A pass queues one continuation for each node whose query is accepted. -/
theorem unresolved_schedule_node (accepts : Nat → Query → Bool) (t : RequestTable ρ) :
    ∃ news : List Unresolved,
      (t.schedule accepts).2.unresolved = t.unresolved ++ news ∧
      news.map (·.node) = (t.senders accepts).map some ∧
      (t.schedule accepts).1.sent.length = (t.senders accepts).length := by
  by_cases hempty : t.requests = []
  · have hnobody : t.senders accepts = [] := by
      rw [List.eq_nil_iff_forall_not_mem]
      intro node hnode
      have hmem : node ∈ t.nodes := mem_nodes_of_mem_sendersOf hnode
      simp [nodes, hempty] at hmem
    rw [schedule_of_nil accepts hempty, hnobody]
    exact ⟨[], by simp⟩
  · obtain ⟨news, hnews, hnodes, hlength⟩ := unresolved_visits_node accepts t.opened.1 t.opened.2
    rw [schedule_of_ne_nil accepts hempty]
    refine ⟨news, hnews, hnodes, ?_⟩
    dsimp only
    rw [hlength]
    exact Nat.zero_add _

theorem mem_nodes_of_mem_senders {accepts : Nat → Query → Bool} {t : RequestTable ρ} {node : NodeId}
    (h : node ∈ t.senders accepts) : node ∈ t.nodes :=
  mem_nodes_of_mem_sendersOf h

end RequestTable

end ContentTree

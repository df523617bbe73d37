import Mathlib.Data.List.Forall2
import Mathlib.Data.List.Pairwise
import Mathlib.Data.List.Perm.Basic
import Mathlib.Order.Nat
import ContentTree.Proofs.Requests.Histories

/-!
# Whose verdict a send gets

A send waits in the table for its verdict, and the table hands the next verdict to the oldest send
that waits. Verdicts come from two places: the daemon answers the queries that were written, in
order, and the writer reports the queries that it could not write, in order. Nothing puts the two
in order with each other.

Every send gets its own verdict exactly as long as no verdict overtakes one of an earlier send that
comes the other way. A failed write that is reported before the answer to an earlier query does so.
-/

namespace ContentTree

/-- A send that the sender accepted. -/
structure Sending where
  /-- The request as the pass found it. -/
  request : Request
  query : Query
  /-- The request was removed since. -/
  gone : Bool
  deriving DecidableEq

/-- The continuation holds what the request was before this send, and names its node as long as the
request is outstanding. A priority that is too large to be carried over is drawn anew. -/
structure Sending.UndoneBy (s : Sending) (u : Unresolved) : Prop where
  hashes : s.query.hashes = s.request.query.hashes
  node : u.node = if s.gone then none else some s.request.node
  ttl : u.ttl = s.request.query.ttl
  lastSend : u.lastSend = s.request.lastSend
  priority : s.request.query.priority.toNat ≤ RequestTable.priorityBound →
    u.priority = s.request.query.priority

namespace RequestTable

variable {ρ : Type}

/-- The request of `node` is removed. -/
def removes (t : RequestTable ρ) (node : NodeId) : Upkeep → Bool
  | .call (.update n none) | .call (.release n) => n = node ∧ node ∈ t.nodes
  | .abort => true
  | _ => false

/-- The oldest continuation `u` is taken off the table, and the send that it undoes is taken for
accepted or for failed: a failed one is undone in the request of its node, and an accepted one that
was not the first of its request counts as a retransmission. -/
structure Judged (t : RequestTable ρ) (u : Unresolved) (ok : Bool) (t' : RequestTable ρ) :
    Prop where
  unresolved : t.unresolved = u :: t'.unresolved
  requests : t'.requests =
    if ok then t.requests
    else u.node.elim t.requests fun node => modifyFirst (reverted u) node t.requests
  retries : t'.stats.totalRetries = t.stats.totalRetries +
    if ok ∧ (u.node.bind fun node => t.requests.find? (·.node = node)).any (1 < ·.tries) then 1
    else 0

variable [RandomSource ρ]

/-- The requests whose queries the sender accepts in a pass, as the visits find them. -/
def dispatched (accepts : Nat → Query → Bool) (t : RequestTable ρ) : List Request :=
  (t.visits accepts).filterMap fun v => v.outcome.sent?.map fun _ => v.request

end RequestTable

/-! ### What happens to continuations -/

section Continuations

variable {ρ : Type} {t : RequestTable ρ}

open RequestTable

/-- Continuations lose their nodes with the requests that are removed, and keep their places. -/
theorem unresolved_maintain (t : RequestTable ρ) (u : Upkeep) :
    (t.maintain u).unresolved = t.unresolved.map fun c =>
      if c.node.any (t.removes · u) then { c with node := none } else c := by
  have hkeeps : ∀ t' : RequestTable ρ, t'.unresolved = t.unresolved →
      (∀ node, t.removes node u = false) → t'.unresolved = t.unresolved.map fun c =>
        if c.node.any (t.removes · u) then { c with node := none } else c := by
    intro t' hsame hnone
    have hany : ∀ c : Unresolved, c.node.any (t.removes · u) = false := by
      intro c
      cases c.node with
      | none => rfl
      | some node => exact hnone node
    simp only [hsame, hany, Bool.false_eq_true, if_false, List.map_id']
  have hremove : ∀ node, (∀ n, t.removes n u = (decide (node = n) && decide (n ∈ t.nodes))) →
      (t.remove node).unresolved = t.unresolved.map fun c =>
        if c.node.any (t.removes · u) then { c with node := none } else c := by
    intro node hremoves
    by_cases hnode : node ∈ t.nodes
    · obtain ⟨-, -, -, -, hunresolved⟩ := remove_of_mem hnode
      rw [hunresolved]
      refine List.map_congr_left fun c _ => ?_
      cases hc : c.node with
      | none => simp
      | some n =>
        by_cases hn : n = node
        · subst hn
          simp [hremoves, hnode]
        · simp [hremoves, hn, Ne.symm hn]
    · rw [remove_of_not_mem hnode]
      refine hkeeps t rfl fun n => ?_
      rw [hremoves]
      by_cases hn : node = n
      · subst hn
        simp [hnode]
      · simp [hn]
  cases u with
  | call c =>
    cases c with
    | request | endgame => exact hkeeps _ rfl fun _ => rfl
    | update node query =>
      cases query with
      | none => exact hremove node fun n => by simp [removes]
      | some query => exact hkeeps _ rfl fun _ => rfl
    | release node => exact hremove node fun n => by simp [removes]
  | tick | observe | record => exact hkeeps _ rfl fun _ => rfl
  | reply suite block => exact hkeeps _ (unresolved_matchReply suite t block) fun _ => rfl
  | abort =>
    refine List.map_congr_left fun c _ => ?_
    cases hc : c.node with
    | none => simp [← hc]
    | some node => simp [removes]

theorem Sending.UndoneBy.maintain {s : Sending} {c : Unresolved} (h : s.UndoneBy c) (u : Upkeep) :
    (if t.removes s.request.node u then { s with gone := true } else s).UndoneBy
      (if c.node.any (t.removes · u) then { c with node := none } else c) := by
  have hnode := h.node
  cases hgone : s.gone with
  | true =>
    rw [hgone, if_pos rfl] at hnode
    rw [hnode, Option.any_none, if_neg Bool.false_ne_true]
    split
    · exact ⟨h.hashes, hnode, h.ttl, h.lastSend, h.priority⟩
    · exact h
  | false =>
    rw [hgone, if_neg Bool.false_ne_true] at hnode
    rw [hnode, Option.any_some]
    split
    · exact ⟨h.hashes, rfl, h.ttl, h.lastSend, h.priority⟩
    · exact h

theorem judged_settleOldest {u : Unresolved} {us : List Unresolved} (h : t.unresolved = u :: us)
    (ok : Bool) : t.Judged u ok (t.settleOldest ok) := by
  have hrun : t.settleOldest ok = settle { t with unresolved := us } u ok := by
    rw [settleOldest, h]
  constructor
  case unresolved => rw [unresolved_settleOldest, h, List.tail_cons]
  case requests =>
    rw [hrun]
    cases ok with
    | true => exact requests_settle_true _ u
    | false =>
      cases hnode : u.node with
      | none => rw [settle, hnode]; rfl
      | some node => rw [settle_false_eq _ hnode]; rfl
  case retries =>
    rw [hrun, settle]
    cases hfind : u.node.bind fun node => t.requests.find? (·.node = node) with
    | none => simp
    | some e => by_cases htries : 1 < e.tries <;> cases ok <;> simp [htries]

variable [RandomSource ρ]

theorem zipWith_sends (vs : List Visit) :
    (vs.filterMap fun v => v.outcome.sent?.map fun _ => v.request).zipWith (Sending.mk · · false)
        (vs.filterMap (·.outcome.sent?)) =
      vs.filterMap fun v => v.outcome.sent?.map (Sending.mk v.request · false) := by
  induction vs with
  | nil => rfl
  | cons v vs ih => cases hsent : v.outcome.sent? <;> simp [hsent, ih]

theorem length_dispatched (accepts : Nat → Query → Bool) (t : RequestTable ρ) :
    (t.dispatched accepts).length = (t.schedule accepts).1.sent.length := by
  rw [sent_schedule, dispatched]
  simp only [List.length_filterMap_eq_countP, Option.isSome_map]

/-- The continuations that a pass appends are those of the sends it makes. -/
theorem undoneBy_schedule (accepts : Nat → Query → Bool) (t : RequestTable ρ) :
    ∃ news, (t.schedule accepts).2.unresolved = t.unresolved ++ news ∧
      List.Forall₂ (fun u s => s.UndoneBy u) news
        ((t.dispatched accepts).zipWith (Sending.mk · · false) (t.schedule accepts).1.sent) := by
  have hpass := schedule_induction (P := fun vs t' => ∃ news,
      t'.unresolved = t.unresolved ++ news ∧
      List.Forall₂ (fun u (s : Sending) => s.UndoneBy u) news
        (vs.filterMap fun v => v.outcome.sent?.map (Sending.mk v.request · false)))
    accepts t (fun _ => ⟨[], (List.append_nil _).symm, .nil⟩) ?_
  · obtain ⟨news, hnews, hundone⟩ := hpass
    refine ⟨news, hnews, ?_⟩
    rwa [sent_schedule, dispatched, zipWith_sends]
  · rintro vs t₁ t₂ j e o ⟨news, hnews, hundone⟩ - hbecomes
    rw [List.filterMap_append]
    cases hbecomes with
    | left => exact ⟨news, hnews, by simpa [Outcome.sent?] using hundone⟩
    | vetoed => exact ⟨news, hnews, by simpa [Outcome.sent?] using hundone⟩
    | @accepted e' base policy random stats hdue hsends =>
      refine ⟨news ++ [undoing e base], by rw [hnews, List.append_assoc], ?_⟩
      refine List.rel_append hundone (.cons ⟨hsends.question.2.2, rfl, rfl, rfl, ?_⟩ .nil)
      intro hpriority
      rw [undoing, hsends.base_eq hpriority, UInt32.ofNat_toNat]
    | refused =>
      refine ⟨news, ?_, by simpa [Outcome.sent?] using hundone⟩
      rw [unresolved_settle]
      exact hnews

end Continuations

/-- A table together with the ways of its queries and of their verdicts. Sends are numbered in the
order in which the sender accepted them. -/
structure Exchange (ρ : Type) where
  table : RequestTable ρ
  /-- All sends so far, by their numbers. -/
  log : List Sending
  /-- The send behind each continuation of the table, in the table's order. -/
  tickets : List Nat
  /-- Accepted, and waiting for the writer. -/
  outbound : List Nat
  /-- Could not be written, which is not yet reported. -/
  failures : List Nat
  /-- Written, and not yet answered. -/
  asked : List Nat
  /-- For each continuation resolved so far, the send that created it and the send whose outcome
  resolved it. -/
  resolved : List (Nat × Nat)

namespace Exchange

variable {ρ : Type}

def start (tuning : Tuning) (random : ρ) (policy : Policy) (average : Nat) : Exchange ρ :=
  ⟨.new tuning random policy average, [], [], [], [], [], []⟩

inductive Event
  | upkeep (u : RequestTable.Upkeep)
  /-- A scheduling pass with the sender's answers. -/
  | pass (accepts : Nat → Query → Bool)
  /-- The oldest query that waits is written. -/
  | written
  /-- Writing the oldest query that waits fails. -/
  | unwritten
  /-- The daemon's answer to the oldest query it was asked arrives. -/
  | answer (value : Int32)
  /-- The report of the oldest failed write arrives. -/
  | report

/-- The oldest continuation is resolved with the outcome of `send`. -/
def resolve (x : Exchange ρ) (send : Nat) (table : RequestTable ρ) : Exchange ρ :=
  { x with
    table := table
    tickets := x.tickets.tail
    resolved := x.resolved ++ (x.tickets.head?.map (·, send)).toList }

/-- A verdict is delivered before that of an earlier send which comes the other way. -/
def Overtakes (x : Exchange ρ) : Event → Prop
  | .answer _ => ∃ n ∈ x.asked.head?, ∃ m ∈ x.failures, m < n
  | .report => ∃ n ∈ x.failures.head?, ∃ m ∈ x.asked, m < n
  | _ => False

/-- The continuation is that of the send of this number. -/
def Belongs (x : Exchange ρ) (u : Unresolved) (n : Nat) : Prop := ∃ s ∈ x.log[n]?, s.UndoneBy u

/-- The verdict on the send of this number is delivered. -/
inductive Delivers (x : Exchange ρ) : Event → Nat → Bool → Prop
  | answer {n : Nat} (value : Int32) (hasked : x.asked.head? = some n) :
      Delivers x (.answer value) n (value = RequestTable.returnOk)
  | report {n : Nat} (hfailures : x.failures.head? = some n) : Delivers x .report n false

/-- Every continuation was resolved with the outcome of the send that created it. -/
def OwnVerdicts (x : Exchange ρ) : Prop := ∀ r ∈ x.resolved, r.1 = r.2

variable [RandomSource ρ]

def step (x : Exchange ρ) : Event → Exchange ρ
  | .upkeep u =>
    { x with
      table := x.table.maintain u
      log := x.log.map fun s =>
        if x.table.removes s.request.node u then { s with gone := true } else s }
  | .pass accepts =>
    let (result, table) := x.table.schedule accepts
    let news := List.range' x.log.length result.sent.length
    { x with
      table := table
      log := x.log ++ (x.table.dispatched accepts).zipWith (Sending.mk · · false) result.sent
      tickets := x.tickets ++ news
      outbound := x.outbound ++ news }
  | .written =>
    match x.outbound with
    | [] => x
    | n :: rest => { x with outbound := rest, asked := x.asked ++ [n] }
  | .unwritten =>
    match x.outbound with
    | [] => x
    | n :: rest => { x with outbound := rest, failures := x.failures ++ [n] }
  | .answer value =>
    match x.asked with
    | [] => x
    | n :: rest => { x with asked := rest }.resolve n (x.table.onReturnValue value)
  | .report =>
    match x.failures with
    | [] => x
    | n :: rest => { x with failures := rest }.resolve n x.table.onSendFailed

def run (x : Exchange ρ) (events : List Event) : Exchange ρ := events.foldl step x

def InOrder (x : Exchange ρ) : List Event → Prop
  | [] => True
  | e :: events => ¬ x.Overtakes e ∧ (x.step e).InOrder events

/-- The sends that wait in the table are those on their way, oldest first, and each way keeps its
sends in order. -/
structure Matched (x : Exchange ρ) : Prop where
  sorted : x.tickets.Pairwise (· < ·)
  ways : x.tickets.Perm (x.failures ++ (x.asked ++ x.outbound))
  failed : (x.failures ++ x.outbound).Pairwise (· < ·)
  answered : (x.asked ++ x.outbound).Pairwise (· < ·)
  below : ∀ n ∈ x.tickets, n < x.log.length

omit [RandomSource ρ] in
theorem matched_start (tuning : Tuning) (random : ρ) (policy : Policy) (average : Nat) :
    (start tuning random policy average).Matched where
  sorted := List.Pairwise.nil
  ways := List.Perm.nil
  failed := List.Pairwise.nil
  answered := List.Pairwise.nil
  below := by simp [start]

theorem length_log_pass (x : Exchange ρ) (accepts : Nat → Query → Bool) :
    (x.step (.pass accepts)).log.length =
      x.log.length + (x.table.schedule accepts).1.sent.length := by
  simp only [step, List.length_append, List.length_zipWith, length_dispatched, Nat.min_self]

theorem tickets_eq_cons {tickets rest : List Nat} {n : Nat} (hsorted : tickets.Pairwise (· < ·))
    (hperm : tickets.Perm (n :: rest)) (hleast : ∀ m ∈ rest, n < m) :
    tickets = n :: tickets.tail ∧ tickets.tail.Perm rest := by
  cases tickets with
  | nil => exact absurd hperm.length_eq (by simp)
  | cons h tail =>
    have hle : ∀ m ∈ h :: tail, h ≤ m := by
      intro m hm
      rcases List.mem_cons.1 hm with rfl | hm
      · exact le_rfl
      · exact (List.rel_of_pairwise_cons hsorted hm).le
    have hn : h ≤ n := hle n (hperm.mem_iff.2 List.mem_cons_self)
    have heq : h = n := by
      rcases List.mem_cons.1 (hperm.mem_iff.1 List.mem_cons_self) with heq | hmem
      · exact heq
      · exact absurd (hleast h hmem) (by omega)
    subst heq
    exact ⟨rfl, hperm.cons_inv⟩

section Deliver

variable {x : Exchange ρ} {n : Nat} {rest : List Nat}

omit [RandomSource ρ] in
theorem Matched.nodup (hx : x.Matched) : x.tickets.Nodup :=
  hx.sorted.imp fun h => h.ne

omit [RandomSource ρ] in
/-- An answer that overtakes no report belongs to the oldest send. -/
theorem Matched.tickets_of_asked (hx : x.Matched) (hasked : x.asked = n :: rest)
    (horder : ∀ m ∈ x.failures, ¬ m < n) :
    x.tickets = n :: x.tickets.tail ∧
      x.tickets.tail.Perm (x.failures ++ (rest ++ x.outbound)) := by
  have hperm : x.tickets.Perm (n :: (x.failures ++ (rest ++ x.outbound))) := by
    refine hx.ways.trans ?_
    rw [hasked, List.cons_append]
    exact List.perm_middle
  refine tickets_eq_cons hx.sorted hperm fun m hm => ?_
  rcases List.mem_append.1 hm with hfailed | hlater
  · have hne : n ≠ m := fun heq =>
      (List.nodup_cons.1 (hperm.nodup_iff.1 hx.nodup)).1 (heq ▸ hm)
    have hge := horder m hfailed
    omega
  · have hanswered := hx.answered
    rw [hasked, List.cons_append] at hanswered
    exact List.rel_of_pairwise_cons hanswered hlater

omit [RandomSource ρ] in
/-- A report that overtakes no answer belongs to the oldest send. -/
theorem Matched.tickets_of_failures (hx : x.Matched) (hfailures : x.failures = n :: rest)
    (horder : ∀ m ∈ x.asked, ¬ m < n) :
    x.tickets = n :: x.tickets.tail ∧
      x.tickets.tail.Perm (rest ++ (x.asked ++ x.outbound)) := by
  have hperm : x.tickets.Perm (n :: (rest ++ (x.asked ++ x.outbound))) := by
    simpa [hfailures] using hx.ways
  have hfailed := hx.failed
  rw [hfailures, List.cons_append] at hfailed
  refine tickets_eq_cons hx.sorted hperm fun m hm => ?_
  rcases List.mem_append.1 hm with hlater | hm'
  · exact List.rel_of_pairwise_cons hfailed (List.mem_append_left _ hlater)
  · rcases List.mem_append.1 hm' with hanswered | hlater
    · have hne : n ≠ m := fun heq =>
        (List.nodup_cons.1 (hperm.nodup_iff.1 hx.nodup)).1 (heq ▸ hm)
      have hge := horder m hanswered
      omega
    · exact List.rel_of_pairwise_cons hfailed (List.mem_append_right _ hlater)

omit [RandomSource ρ] in
/-- An earlier send that waits keeps a later one from being the oldest. -/
theorem Matched.head_ne (hx : x.Matched) {m : Nat} (hm : m ∈ x.tickets) (hlt : m < n) :
    ∃ h ∈ x.tickets.head?, h ≠ n := by
  have hsorted := hx.sorted
  cases htickets : x.tickets with
  | nil => simp [htickets] at hm
  | cons h tail =>
    rw [htickets] at hm hsorted
    refine ⟨h, rfl, ?_⟩
    rcases List.mem_cons.1 hm with rfl | hm
    · exact hlt.ne
    · exact ((List.rel_of_pairwise_cons hsorted hm).trans hlt).ne

omit [RandomSource ρ] in
/-- Resolving the oldest send with its own outcome keeps the queue and the ways in step. -/
theorem Matched.resolve {y : Exchange ρ} {table : RequestTable ρ}
    (hx : x.Matched) (htickets : x.tickets = n :: x.tickets.tail)
    (hy : y.tickets = x.tickets) (hlog : y.log.length = x.log.length)
    (hways : x.tickets.tail.Perm (y.failures ++ (y.asked ++ y.outbound)))
    (hfailed : (y.failures ++ y.outbound).Pairwise (· < ·))
    (hanswered : (y.asked ++ y.outbound).Pairwise (· < ·)) :
    (y.resolve n table).Matched where
  sorted := by
    have hsorted := hx.sorted
    rw [htickets] at hsorted
    simpa only [Exchange.resolve, hy] using hsorted.of_cons
  ways := by simpa only [Exchange.resolve, hy] using hways
  failed := hfailed
  answered := hanswered
  below := fun m hm => by
    simp only [Exchange.resolve, hy] at hm ⊢
    exact hlog ▸ hx.below m (List.mem_of_mem_tail hm)

omit [RandomSource ρ] in
theorem OwnVerdicts.resolve {y : Exchange ρ} {table : RequestTable ρ}
    (hown : y.OwnVerdicts) (htickets : y.tickets = n :: y.tickets.tail) :
    (y.resolve n table).OwnVerdicts := by
  intro r hr
  simp only [Exchange.resolve, List.mem_append] at hr
  rw [htickets] at hr
  rcases hr with hr | hr
  · exact hown r hr
  · simp only [List.head?_cons, Option.map_some, Option.toList_some, List.mem_singleton] at hr
    rw [hr]

end Deliver

omit [RandomSource ρ] in
/-- A send that goes from one way to another stays in step with the queue. -/
theorem Matched.rerouted {x y : Exchange ρ} (hx : x.Matched) (hy : y.tickets = x.tickets)
    (hlog : y.log.length = x.log.length)
    (hways : (x.failures ++ (x.asked ++ x.outbound)).Perm (y.failures ++ (y.asked ++ y.outbound)))
    (hfailed : (y.failures ++ y.outbound).Sublist (x.failures ++ x.outbound))
    (hanswered : (y.asked ++ y.outbound).Sublist (x.asked ++ x.outbound)) : y.Matched where
  sorted := hy ▸ hx.sorted
  ways := hy ▸ hx.ways.trans hways
  failed := hx.failed.sublist hfailed
  answered := hx.answered.sublist hanswered
  below := by
    rw [hy, hlog]
    exact hx.below

/-- The sends of a pass get larger numbers than all before, so they go last on every way. -/
theorem Matched.pass {x : Exchange ρ} (hx : x.Matched) (accepts : Nat → Query → Bool) :
    (x.step (.pass accepts)).Matched := by
  have hlate : ∀ m ∈ x.failures ++ (x.asked ++ x.outbound),
      ∀ k ∈ List.range' x.log.length (x.table.schedule accepts).1.sent.length, m < k := by
    intro m hm k hk
    have hbelow := hx.below m (hx.ways.mem_iff.2 hm)
    have hk := (List.mem_range'_1.1 hk).1
    omega
  have hrange : (List.range' x.log.length (x.table.schedule accepts).1.sent.length).Pairwise (· < ·) :=
    List.pairwise_lt_range'
  constructor
  case sorted =>
    exact List.pairwise_append.2 ⟨hx.sorted, hrange, fun m hm => hlate m (hx.ways.mem_iff.1 hm)⟩
  case ways => simpa [Exchange.step, List.append_assoc] using hx.ways.append_right _
  case failed =>
    simp only [Exchange.step, ← List.append_assoc]
    refine List.pairwise_append.2 ⟨hx.failed, hrange, fun m hm => hlate m ?_⟩
    rcases List.mem_append.1 hm with hm | hm <;> simp [hm]
  case answered =>
    simp only [Exchange.step, ← List.append_assoc]
    refine List.pairwise_append.2 ⟨hx.answered, hrange, fun m hm => hlate m ?_⟩
    exact List.mem_append_right _ hm
  case below =>
    intro m hm
    rw [length_log_pass]
    rcases List.mem_append.1 hm with hm | hm
    · exact Nat.lt_add_right _ (hx.below m hm)
    · exact (List.mem_range'_1.1 hm).2

/-- An event that does not overtake keeps the queue and the ways in step. -/
theorem Matched.step {x : Exchange ρ} (hx : x.Matched) {e : Event} (horder : ¬ x.Overtakes e) :
    (x.step e).Matched ∧ (x.OwnVerdicts → (x.step e).OwnVerdicts) := by
  cases e with
  | upkeep u => exact ⟨hx.rerouted rfl (List.length_map _) (.refl _) (.refl _) (.refl _), id⟩
  | pass accepts => exact ⟨hx.pass accepts, id⟩
  | written =>
    simp only [Exchange.step]
    cases houtbound : x.outbound with
    | nil => exact ⟨hx, id⟩
    | cons n rest =>
      refine ⟨hx.rerouted rfl rfl ?_ ?_ ?_, id⟩
      · simp [houtbound]
      · simp [houtbound]
      · simp [houtbound]
  | unwritten =>
    simp only [Exchange.step]
    cases houtbound : x.outbound with
    | nil => exact ⟨hx, id⟩
    | cons n rest =>
      refine ⟨hx.rerouted rfl rfl ?_ ?_ ?_, id⟩
      · simp only [houtbound, List.append_assoc, List.singleton_append]
        exact List.Perm.append_left _ List.perm_middle
      · simp [houtbound]
      · simp [houtbound]
  | answer value =>
    simp only [Exchange.step]
    cases hasked : x.asked with
    | nil => exact ⟨hx, id⟩
    | cons n rest =>
      have hearlier : ∀ m ∈ x.failures, ¬ m < n := fun m hm hlt =>
        horder ⟨n, by simp [hasked], m, hm, hlt⟩
      obtain ⟨htickets, hways⟩ := hx.tickets_of_asked hasked hearlier
      have hanswered := hx.answered
      rw [hasked, List.cons_append] at hanswered
      exact ⟨hx.resolve htickets rfl rfl hways hx.failed hanswered.of_cons,
        fun hown => OwnVerdicts.resolve hown htickets⟩
  | report =>
    simp only [Exchange.step]
    cases hfailures : x.failures with
    | nil => exact ⟨hx, id⟩
    | cons n rest =>
      have hearlier : ∀ m ∈ x.asked, ¬ m < n := fun m hm hlt =>
        horder ⟨n, by simp [hfailures], m, hm, hlt⟩
      obtain ⟨htickets, hways⟩ := hx.tickets_of_failures hfailures hearlier
      have hfailed := hx.failed
      rw [hfailures, List.cons_append] at hfailed
      exact ⟨hx.resolve htickets rfl rfl hways hfailed.of_cons hx.answered,
        fun hown => OwnVerdicts.resolve hown htickets⟩

/-- An event that overtakes resolves some send with the outcome of another. -/
theorem Matched.not_ownVerdicts {x : Exchange ρ} (hx : x.Matched) {e : Event}
    (hovertakes : x.Overtakes e) : ¬ (x.step e).OwnVerdicts := by
  -- The verdict goes to the oldest ticket, and there is one older than the send it belongs to.
  have hforeign : ∀ (y : Exchange ρ) (table : RequestTable ρ) (n m : Nat),
      y.tickets = x.tickets → m ∈ x.tickets → m < n → ¬ (y.resolve n table).OwnVerdicts := by
    intro y table n m hy hm hlt hown
    obtain ⟨h, hhead, hne⟩ := hx.head_ne hm hlt
    have hresolved : (h, n) ∈ (y.resolve n table).resolved := by
      have hhead : x.tickets.head? = some h := hhead
      simp [Exchange.resolve, hy, hhead]
    exact hne (hown _ hresolved)
  cases e with
  | answer value =>
    obtain ⟨n, hn, m, hm, hlt⟩ := hovertakes
    obtain ⟨rest, hrest⟩ : ∃ rest, x.asked = n :: rest := List.head?_eq_some_iff.1 hn
    have hticket : m ∈ x.tickets := hx.ways.mem_iff.2 (List.mem_append_left _ hm)
    simp only [Exchange.step, hrest]
    exact hforeign _ _ n m rfl hticket hlt
  | report =>
    obtain ⟨n, hn, m, hm, hlt⟩ := hovertakes
    obtain ⟨rest, hrest⟩ : ∃ rest, x.failures = n :: rest := List.head?_eq_some_iff.1 hn
    have hticket : m ∈ x.tickets :=
      hx.ways.mem_iff.2 (List.mem_append_right _ (List.mem_append_left _ hm))
    simp only [Exchange.step, hrest]
    exact hforeign _ _ n m rfl hticket hlt
  | upkeep u => exact hovertakes.elim
  | pass accepts => exact hovertakes.elim
  | written => exact hovertakes.elim
  | unwritten => exact hovertakes.elim

theorem resolved_prefix_step (x : Exchange ρ) (e : Event) : x.resolved <+: (x.step e).resolved := by
  cases e with
  | upkeep u => exact List.prefix_rfl
  | pass accepts => exact List.prefix_rfl
  | written => simp only [Exchange.step]; split <;> exact List.prefix_rfl
  | unwritten => simp only [Exchange.step]; split <;> exact List.prefix_rfl
  | answer value =>
    simp only [Exchange.step]
    split
    · exact List.prefix_rfl
    · exact List.prefix_append _ _
  | report =>
    simp only [Exchange.step]
    split
    · exact List.prefix_rfl
    · exact List.prefix_append _ _

theorem ownVerdicts_of_run {x : Exchange ρ} {events : List Event}
    (hown : (x.run events).OwnVerdicts) : x.OwnVerdicts := by
  induction events generalizing x with
  | nil => exact hown
  | cons e events ih =>
    exact fun r hr => ih hown r ((resolved_prefix_step x e).subset hr)

theorem Matched.run {x : Exchange ρ} (hx : x.Matched) (hown : x.OwnVerdicts)
    (events : List Event) : (x.run events).OwnVerdicts ↔ x.InOrder events := by
  induction events generalizing x with
  | nil => exact iff_of_true hown trivial
  | cons e events ih =>
    by_cases hovertakes : x.Overtakes e
    · refine iff_of_false (fun hlater => ?_) (fun horder => horder.1 hovertakes)
      exact hx.not_ownVerdicts hovertakes (ownVerdicts_of_run (x := x.step e) hlater)
    · obtain ⟨hmatched, hkeeps⟩ := hx.step hovertakes
      have hrest := ih hmatched (hkeeps hown)
      exact hrest.trans ⟨fun h => ⟨hovertakes, h⟩, fun h => h.2⟩

/-- Whatever order the verdicts come in, each continuation is that of the send with its ticket, and
there is one for each send on its way. -/
structure Aligned (x : Exchange ρ) : Prop where
  belongs : List.Forall₂ x.Belongs x.table.unresolved x.tickets
  count : x.tickets.length = x.failures.length + x.asked.length + x.outbound.length

omit [RandomSource ρ] in
theorem aligned_start (tuning : Tuning) (random : ρ) (policy : Policy) (average : Nat) :
    (start tuning random policy average).Aligned :=
  ⟨.nil, rfl⟩

/-- The news get the numbers that follow those of the log. -/
theorem forall₂_range' {R : Unresolved → Sending → Prop} (log : List Sending)
    {news : List Sending} {us : List Unresolved} (h : List.Forall₂ R us news) :
    List.Forall₂ (fun u n => ∃ s ∈ (log ++ news)[n]?, R u s) us
      (List.range' log.length news.length) := by
  induction h generalizing log with
  | nil => exact .nil
  | @cons u s us news hus _ ih =>
    rw [List.length_cons, List.range'_succ, List.append_cons]
    refine .cons ⟨s, ?_, hus⟩ ?_
    · simp
    · simpa using ih (log ++ [s])

theorem Aligned.pass {x : Exchange ρ} (h : x.Aligned) (accepts : Nat → Query → Bool) :
    (x.step (.pass accepts)).Aligned := by
  obtain ⟨news, hnews, hundone⟩ := undoneBy_schedule accepts x.table
  have hlength : ((x.table.dispatched accepts).zipWith (Sending.mk · · false)
      (x.table.schedule accepts).1.sent).length = (x.table.schedule accepts).1.sent.length := by
    rw [List.length_zipWith, length_dispatched, Nat.min_self]
  refine ⟨?_, ?_⟩
  · dsimp only [Exchange.step]
    rw [hnews, ← hlength]
    refine List.rel_append (h.belongs.imp ?_) (forall₂_range' x.log hundone)
    rintro c n ⟨s, hs, hc⟩
    have hlt := (List.getElem?_eq_some_iff.1 hs).1
    exact ⟨s, by rwa [List.getElem?_append_left hlt], hc⟩
  · have hcount := h.count
    simp only [Exchange.step, List.length_append, List.length_range']
    omega

theorem Aligned.step {x : Exchange ρ} (h : x.Aligned) (e : Event) : (x.step e).Aligned := by
  have hcount := h.count
  cases e with
  | upkeep u =>
    refine ⟨?_, hcount⟩
    dsimp only [Exchange.step]
    rw [unresolved_maintain, List.forall₂_map_left_iff]
    refine h.belongs.imp fun c n ⟨s, hs, hundone⟩ => ⟨_, ?_, hundone.maintain u⟩
    rw [List.getElem?_map, hs]
    rfl
  | pass accepts => exact h.pass accepts
  | written | unwritten =>
    simp only [Exchange.step]
    split
    · exact h
    · rename_i n rest houtbound
      refine ⟨h.belongs, ?_⟩
      simp only [houtbound, List.length_cons, List.length_append, List.length_nil] at hcount ⊢
      omega
  | answer value =>
    simp only [Exchange.step]
    split
    · exact h
    · rename_i n rest hasked
      refine ⟨?_, ?_⟩
      · dsimp only [resolve, RequestTable.onReturnValue]
        rw [RequestTable.unresolved_settleOldest, ← List.drop_one, ← List.drop_one]
        exact List.forall₂_drop 1 h.belongs
      · simp only [resolve, hasked, List.length_cons, List.length_tail] at hcount ⊢
        omega
  | report =>
    simp only [Exchange.step]
    split
    · exact h
    · rename_i n rest hfailures
      refine ⟨?_, ?_⟩
      · dsimp only [resolve, RequestTable.onSendFailed]
        rw [RequestTable.unresolved_settleOldest, ← List.drop_one, ← List.drop_one]
        exact List.forall₂_drop 1 h.belongs
      · simp only [resolve, hfailures, List.length_cons, List.length_tail] at hcount ⊢
        omega

theorem Aligned.run {x : Exchange ρ} (h : x.Aligned) (events : List Event) :
    (x.run events).Aligned := by
  induction events generalizing x with
  | nil => exact h
  | cons e events ih => exact ih (h.step e)

omit [RandomSource ρ] in
theorem Aligned.exists_oldest {x : Exchange ρ} (h : x.Aligned)
    (hway : 0 < x.failures.length + x.asked.length) :
    ∃ u us m ms, x.table.unresolved = u :: us ∧ x.tickets = m :: ms ∧ x.Belongs u m := by
  have hcount := h.count
  have hbelongs := h.belongs
  cases htickets : x.tickets with
  | nil =>
    rw [htickets, List.length_nil] at hcount
    omega
  | cons m ms =>
    rw [htickets] at hbelongs
    obtain ⟨u, us, hum, -, hunresolved⟩ := List.forall₂_cons_right_iff.1 hbelongs
    exact ⟨u, us, m, ms, hunresolved, rfl, hum⟩

/-- A verdict is given on the oldest continuation, and the log says whose that is. -/
theorem Aligned.delivers {x : Exchange ρ} (h : x.Aligned) {e : Event} {n : Nat} {ok : Bool}
    (hdelivers : x.Delivers e n ok) :
    ∃ u m, x.Belongs u m ∧ x.table.Judged u ok (x.step e).table ∧
      (x.step e).resolved = x.resolved ++ [(m, n)] := by
  cases hdelivers with
  | answer value hasked =>
    obtain ⟨rest, hasked⟩ := List.head?_eq_some_iff.1 hasked
    obtain ⟨u, us, m, ms, hunresolved, htickets, hbelongs⟩ :=
      h.exists_oldest (by rw [hasked, List.length_cons]; omega)
    refine ⟨u, m, hbelongs, ?_, ?_⟩
    · simp only [Exchange.step, hasked]
      exact judged_settleOldest hunresolved _
    · simp [Exchange.step, hasked, resolve, htickets]
  | report hfailures =>
    obtain ⟨rest, hfailures⟩ := List.head?_eq_some_iff.1 hfailures
    obtain ⟨u, us, m, ms, hunresolved, htickets, hbelongs⟩ :=
      h.exists_oldest (by rw [hfailures, List.length_cons]; omega)
    refine ⟨u, m, hbelongs, ?_, ?_⟩
    · simp only [Exchange.step, hfailures]
      exact judged_settleOldest hunresolved _
    · simp [Exchange.step, hfailures, resolve, htickets]

theorem resolved_of_not_delivers {x : Exchange ρ} {e : Event}
    (hnone : ∀ n ok, ¬ x.Delivers e n ok) : (x.step e).resolved = x.resolved := by
  cases e with
  | upkeep | pass => rfl
  | written | unwritten => simp only [Exchange.step]; split <;> rfl
  | answer value =>
    simp only [Exchange.step]
    split
    · rfl
    · rename_i n rest hasked
      exact absurd (.answer value (by rw [hasked]; rfl)) (hnone n _)
  | report =>
    simp only [Exchange.step]
    split
    · rfl
    · rename_i n rest hfailures
      exact absurd (.report (by rw [hfailures]; rfl)) (hnone n _)

/-- In a table that starts without sends, each continuation holds what undoes the send whose ticket
it has. A verdict that is delivered takes off the oldest continuation and is applied as the outcome
of its send, and nothing else resolves one. Every continuation is resolved with the outcome of its
own send if and only if no verdict of the run is delivered before that of an earlier send which comes
the other way. -/
theorem ownVerdicts_iff_inOrder (tuning : Tuning) (random : ρ) (policy : Policy) (average : Nat)
    (events : List Event) :
    let first := start tuning random policy average
    let x := first.run events
    List.Forall₂ x.Belongs x.table.unresolved x.tickets ∧
      (∀ e n ok, x.Delivers e n ok → ∃ u m, x.Belongs u m ∧
        x.table.Judged u ok (x.step e).table ∧ (x.step e).resolved = x.resolved ++ [(m, n)]) ∧
      (∀ e, (∀ n ok, ¬ x.Delivers e n ok) → (x.step e).resolved = x.resolved) ∧
      (x.OwnVerdicts ↔ first.InOrder events) := by
  intro first x
  have haligned : x.Aligned := (aligned_start tuning random policy average).run events
  have hmatched : first.Matched := matched_start tuning random policy average
  have hown : first.OwnVerdicts := by simp [first, start, OwnVerdicts]
  exact ⟨haligned.belongs, fun e n ok => haligned.delivers,
    fun e => resolved_of_not_delivers, hmatched.run hown events⟩

/-- Of two sends the first is written and the second is not. Reporting the failure before the answer
is in undoes the first send, which the daemon accepted, and keeps the second. -/
theorem report_overtakes_answer :
    let x := (start Tuning.default () .open 0).run
      [.upkeep (.call (.request 0 .own (.new [zeroDigest]))),
        .upkeep (.call (.request 1 .own (.new [zeroDigest]))),
        .pass fun _ _ => true, .written, .unwritten, .report, .answer RequestTable.returnOk]
    ¬ x.OwnVerdicts ∧ x.resolved = [(0, 1), (1, 0)] ∧
      x.table.requests.map (fun e => (e.node, e.tries)) = [(0, 0), (1, 1)] := by
  intro x
  have hresolved : x.resolved = [(0, 1), (1, 0)] := by decide
  have htries : x.table.requests.map (fun e => (e.node, e.tries)) = [(0, 0), (1, 1)] := by decide
  refine ⟨fun hown => ?_, hresolved, htries⟩
  have hfirst := hown (0, 1) (by simp [hresolved])
  exact absurd hfirst (by decide)

end Exchange

end ContentTree

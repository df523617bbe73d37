import Mathlib.Algebra.Order.BigOperators.Group.List
import Mathlib.Algebra.Order.Ring.Nat
import Mathlib.Data.List.Nodup
import ContentTree.Proofs.Requests.Origins

/-!
# Retries of the requests outstanding

The table counts a retransmission when the daemon accepts a send while its request has more than one
try, and takes off the tries but one when a request is removed. So the counter is the number of
accepted retransmissions of the requests outstanding as long as the two agree: an acceptance must
find more than one try just if it is not for the first send, and a request must go with one try
more than it has accepted retransmissions. A late answer to the first send breaks the one, and a
retransmission without an answer the other.
-/

namespace ContentTree

namespace RequestTable

variable {ρ : Type}

theorem stats_settle_false (t : RequestTable ρ) (u : Unresolved) :
    (t.settle u false).stats = t.stats := by
  obtain ⟨requests, hsettle, -⟩ := t.settle_false u
  rw [hsettle]

/-- A send that was accepted counts as a retransmission if its request has more than one try. -/
theorem currentRetries_settle_true {t : RequestTable ρ} {u : Unresolved} {e : Request}
    (hnodup : t.nodes.Nodup) (he : e ∈ t.requests) (hnode : u.node = some e.node) :
    (t.settle u true).stats.currentRetries =
      t.stats.currentRetries + if 1 < e.tries then 1 else 0 := by
  unfold settle
  rw [hnode, Option.bind_some, find?_key hnodup he]
  by_cases htries : 1 < e.tries
  · simp only [if_true, if_pos htries, stats_congestion]
  · simp only [if_true, if_neg htries, Nat.add_zero]

theorem currentRetries_matchReply (s : Suite) (t : RequestTable ρ) (reply : Block) :
    (t.matchReply s reply).2.stats.currentRetries = t.stats.currentRetries := by
  unfold matchReply
  dsimp only
  split
  · simp
  · split <;> rfl

/-- The tables count retries and duplicates alike. -/
structure SameCounts (t t' : RequestTable ρ) : Prop where
  currentRetries : t'.stats.currentRetries = t.stats.currentRetries
  duplicates : t'.stats.duplicates = t.stats.duplicates

theorem SameCounts.trans {t t' t'' : RequestTable ρ} (h : t.SameCounts t')
    (h' : t'.SameCounts t'') : t.SameCounts t'' :=
  ⟨h'.currentRetries.trans h.currentRetries, h'.duplicates.trans h.duplicates⟩

variable [RandomSource ρ]

theorem sameCounts_attempt (accepts : Query → Bool) (t : RequestTable ρ) (j : Nat) (e : Request) :
    t.SameCounts (t.attempt accepts j e).table := by
  obtain ⟨held, policy, random, -, -, hattempt⟩ |
    ⟨sending, undo, policy, random, count, ttl, unavailable, -, -, -, -, hattempt⟩ :=
      t.attempt_cases accepts j e
  · rw [hattempt]
    exact ⟨rfl, rfl⟩
  · rw [hattempt]
    by_cases haccepts : accepts sending.query
    · simp only [haccepts, if_true]
      exact ⟨rfl, rfl⟩
    · simp only [haccepts, Bool.false_eq_true, if_false]
      exact ⟨by rw [stats_settle_false], by rw [stats_settle_false]⟩

theorem sameCounts_visits (accepts : Nat → Query → Bool) (order : List Nat) (p : Pass ρ) :
    p.table.SameCounts (order.foldl (Pass.visit accepts) p).table := by
  induction order generalizing p with
  | nil => exact ⟨rfl, rfl⟩
  | cons j order ih =>
    rw [List.foldl_cons]
    refine .trans ?_ (ih (p.visit accepts j))
    obtain ⟨r, htable, -⟩ | ⟨e, r, -, htable, -⟩ := visit_cases accepts p j
    · rw [htable]
      exact ⟨rfl, rfl⟩
    · rw [htable]
      have hrandom : p.table.SameCounts { p.table with random := r } := ⟨rfl, rfl⟩
      exact hrandom.trans (sameCounts_attempt _ _ j e)

/-- Sending alone does not count. -/
theorem sameCounts_schedule (accepts : Nat → Query → Bool) (t : RequestTable ρ) :
    t.SameCounts (t.schedule accepts).2 := by
  by_cases hempty : t.requests = []
  · rw [schedule_of_nil accepts hempty]
    exact ⟨rfl, rfl⟩
  · rw [schedule_of_ne_nil accepts hempty]
    have hopened : t.SameCounts t.opened.2.table := ⟨rfl, rfl⟩
    exact hopened.trans (sameCounts_visits accepts t.opened.1 t.opened.2)

end RequestTable

namespace Register

variable {ρ : Type}

open RequestTable

/-- Accepted retransmissions of the requests outstanding. -/
def repeats (x : Register ρ) : Nat := (x.table.nodes.map fun node => (x.account node).repeats).sum

def Balanced (x : Register ρ) : Prop := x.table.stats.currentRetries = x.repeats

/-- The request goes with one try more than it has accepted retransmissions, or with even more tries
when no other request has any. -/
def Cleared (x : Register ρ) (e : Request) : Prop :=
  e.tries - 1 = (x.account e.node).repeats ∨
    (x.account e.node).repeats ≤ e.tries - 1 ∧
      ∀ node ∈ x.table.nodes, node ≠ e.node → (x.account node).repeats = 0

/-- What the counter is changed by is what changes in the requests outstanding. -/
def Tallies (x : Register ρ) : RequestTable.Event → Prop
  | .upkeep (.call (.update node none)) => ∀ e ∈ x.table.requests, e.node = node → x.Cleared e
  | .upkeep (.call (.release node)) => ∀ e ∈ x.table.requests, e.node = node → x.Cleared e
  | .upkeep .abort => ∀ node ∈ x.table.nodes, (x.account node).repeats = 0
  | .returnValue value => value = returnOk → ∀ s ∈ x.waiting.head?, ∀ e ∈ x.table.requests,
      (x.account e.node).number = s.number → (1 < e.tries ↔ s.first = false)
  | _ => True

instance (x : Register ρ) (e : Request) : Decidable (x.Cleared e) :=
  inferInstanceAs (Decidable (_ ∨ _))

instance (x : Register ρ) : (e : RequestTable.Event) → Decidable (x.Tallies e)
  | .upkeep (.call (.update node none)) | .upkeep (.call (.release node)) =>
    inferInstanceAs (Decidable (∀ e ∈ x.table.requests, e.node = node → x.Cleared e))
  | .upkeep .abort =>
    inferInstanceAs (Decidable (∀ node ∈ x.table.nodes, (x.account node).repeats = 0))
  | .returnValue value =>
    inferInstanceAs (Decidable (value = returnOk → ∀ s ∈ x.waiting.head?, ∀ e ∈ x.table.requests,
      (x.account e.node).number = s.number → (1 < e.tries ↔ s.first = false)))
  | .upkeep (.call (.request ..)) | .upkeep (.call (.update _ (some _)))
  | .upkeep (.call .endgame) | .upkeep (.tick _) | .upkeep (.observe _) | .upkeep (.record ..)
  | .upkeep (.reply ..) | .pass _ | .sendFailed => inferInstanceAs (Decidable True)

def Tallied [RandomSource ρ] (x : Register ρ) : List RequestTable.Event → Prop
  | [] => True
  | e :: events => x.Tallies e ∧ (x.step e).Tallied events

instance decidableTallied [RandomSource ρ] (x : Register ρ) :
    (events : List RequestTable.Event) → Decidable (x.Tallied events)
  | [] => inferInstanceAs (Decidable True)
  | e :: events =>
    have := decidableTallied (x.step e) events
    inferInstanceAs (Decidable (x.Tallies e ∧ (x.step e).Tallied events))

section Steps

variable {x y : Register ρ}

theorem repeats_eq_zero_iff :
    x.repeats = 0 ↔ ∀ node ∈ x.table.nodes, (x.account node).repeats = 0 := by
  rw [repeats, List.sum_eq_zero_iff, List.forall_mem_map]

theorem repeats_congr (hnodes : y.table.nodes = x.table.nodes)
    (haccount : ∀ node ∈ x.table.nodes, (y.account node).repeats = (x.account node).repeats) :
    y.repeats = x.repeats := by
  unfold repeats
  rw [hnodes]
  exact congrArg List.sum (List.map_congr_left haccount)

theorem Balanced.congr (h : x.Balanced) (hnodes : y.table.nodes = x.table.nodes)
    (hretries : y.table.stats.currentRetries = x.table.stats.currentRetries)
    (haccount : ∀ node ∈ x.table.nodes, (y.account node).repeats = (x.account node).repeats) :
    y.Balanced := by
  rw [Balanced, hretries, repeats_congr hnodes haccount]
  exact h

theorem repeats_remove {node : NodeId} {e : Request} {table : RequestTable ρ}
    (hperm : x.table.requests.Perm (e :: table.requests)) (hnode : e.node = node) :
    x.repeats = (x.account node).repeats + { x with table := table }.repeats := by
  have hnodes : x.table.nodes.Perm (node :: table.nodes) := hnode ▸ hperm.map _
  unfold repeats
  rw [(hnodes.map _).sum_eq, List.map_cons, List.sum_cons]

/-- A removal takes the right number off just if the request is cleared. -/
theorem Balanced.remove_iff (h : x.Balanced) (hnodup : x.table.nodes.Nodup) (node : NodeId) :
    { x with table := x.table.remove node }.Balanced ↔
      ∀ e ∈ x.table.requests, e.node = node → x.Cleared e := by
  by_cases hnode : node ∈ x.table.nodes
  · obtain ⟨e, rfl, hperm, hstats, -⟩ := remove_of_mem hnode
    have honly : ∀ e' ∈ x.table.requests, e'.node = e.node → e' = e := fun e' he' =>
      List.inj_on_of_nodup_map hnodup he' (hperm.mem_iff.2 List.mem_cons_self)
    have hnodes : x.table.nodes.Perm (e.node :: (x.table.remove e.node).nodes) := hperm.map _
    have hrest := (List.nodup_cons.1 (hnodes.nodup_iff.1 hnodup)).1
    have hnone : { x with table := x.table.remove e.node }.repeats = 0 ↔
        ∀ node ∈ x.table.nodes, node ≠ e.node → (x.account node).repeats = 0 := by
      rw [repeats_eq_zero_iff]
      constructor
      · intro hzero node hmem hne
        exact hzero node ((List.mem_cons.1 (hnodes.mem_iff.1 hmem)).resolve_left hne)
      · intro hzero node hmem
        refine hzero node (hnodes.mem_iff.2 (List.mem_cons_of_mem _ hmem)) ?_
        rintro rfl
        exact hrest hmem
    have hsplit : x.table.stats.currentRetries = _ := h.trans (repeats_remove hperm rfl)
    have hcleared : { x with table := x.table.remove e.node }.Balanced ↔ x.Cleared e := by
      rw [Balanced, Cleared, ← hnone, hstats]
      dsimp only
      omega
    rw [hcleared]
    constructor
    · intro hclear e' he' heq
      exact honly e' he' heq ▸ hclear
    · intro hall
      exact hall e (hperm.mem_iff.2 List.mem_cons_self) rfl
  · rw [remove_of_not_mem hnode]
    refine iff_of_true h ?_
    rintro e he rfl
    exact absurd (List.mem_map_of_mem he) hnode

theorem Balanced.request (h : x.Balanced) {node : NodeId} (handler : ReplyHandler) (query : Query)
    (hnew : node ∉ x.table.nodes) :
    { x.enroll node with table := x.table.call (.request node handler query) }.Balanced := by
  have hnodes : (x.table.call (.request node handler query)).nodes = x.table.nodes ++ [node] := by
    simp [RequestTable.call, nodes]
  have hothers : x.table.nodes.map (fun m => ((x.enroll node).account m).repeats) =
      x.table.nodes.map fun m => (x.account m).repeats := by
    refine List.map_congr_left fun m hm => ?_
    have hne : m ≠ node := ne_of_mem_of_not_mem hm hnew
    rw [account_enroll_of_ne hne]
  have hsame : { x.enroll node with table := x.table.call (.request node handler query) }.repeats =
      x.repeats := by
    rw [repeats, hnodes, List.map_append, List.sum_append, hothers, repeats]
    simp [account_enroll_self]
  rw [Balanced, hsame]
  exact h

theorem Balanced.abort_iff (h : x.Balanced) :
    { x with table := x.table.abortAll }.Balanced ↔
      ∀ node ∈ x.table.nodes, (x.account node).repeats = 0 := by
  rw [← repeats_eq_zero_iff, ← h]
  exact Iff.rfl

theorem Balanced.reject (h : x.Balanced) :
    { x.judge false with table := x.table.settleOldest false }.Balanced := by
  have haccount : (x.judge false).account = x.account := by
    unfold judge
    split
    · rfl
    · rfl
  refine h.congr (nodes_settleOldest _ false) ?_ fun node _ => by rw [haccount]
  dsimp only [settleOldest]
  split
  · rfl
  · rw [stats_settle_false]

theorem credit_of_ne {account : NodeId → Account} {s : Send} {node : NodeId}
    (hne : (account node).number ≠ s.number) : credit account s node = account node := by
  rw [credit]
  exact if_neg fun heq => hne heq.1

theorem Balanced.eq_zero (h : x.Balanced) (hempty : x.table.requests = []) :
    x.table.stats.currentRetries = 0 := by
  rw [h, repeats, nodes, hempty]
  rfl

/-- Crediting a retransmission of one request outstanding adds one. -/
theorem sum_repeats_credit (account : NodeId → Account) (s : Send) {nodes : List NodeId}
    {node : NodeId} (hnodup : nodes.Nodup) (hmem : node ∈ nodes)
    (honly : ∀ m ∈ nodes, (account m).number = s.number ↔ m = node) :
    (nodes.map fun m => (credit account s m).repeats).sum =
      (nodes.map fun m => (account m).repeats).sum + if s.first = false then 1 else 0 := by
  have hperm := List.perm_cons_erase hmem
  have hself : (credit account s node).repeats =
      (account node).repeats + if s.first = false then 1 else 0 := by
    unfold credit
    simp only [(honly node hmem).2 rfl, true_and]
    split <;> rfl
  have hothers : (nodes.erase node).map (fun m => (credit account s m).repeats) =
      (nodes.erase node).map fun m => (account m).repeats := by
    refine List.map_congr_left fun m hm => ?_
    obtain ⟨hne, hm⟩ := hnodup.mem_erase_iff.1 hm
    rw [credit_of_ne fun heq => hne ((honly m hm).1 heq)]
  rw [(hperm.map _).sum_eq, (hperm.map _).sum_eq, List.map_cons, List.map_cons, List.sum_cons,
    List.sum_cons, hself, hothers]
  omega

/-- The oldest send, and the record that the table has of it. -/
theorem Traced.oldest (hx : x.Traced) {s : Send} {rest : List Send} (hwaiting : x.waiting = s :: rest) :
    ∃ u us, x.Names u s ∧ (x.judge true).account = credit x.account s ∧
      x.table.settleOldest true = { x.table with unresolved := us }.settle u true := by
  have hnamed := hx.named
  rw [hwaiting] at hnamed
  obtain ⟨u, us, hnames, -, hunresolved⟩ := List.forall₂_cons_right_iff.1 hnamed
  refine ⟨u, us, hnames, ?_, by rw [RequestTable.settleOldest, hunresolved]⟩
  rw [Register.judge, hwaiting]
  rfl

theorem Balanced.accept_own (h : x.Balanced) (hx : x.Traced) {s : Send} {rest : List Send}
    (hwaiting : x.waiting = s :: rest) {e : Request} (he : e ∈ x.table.requests)
    (hnumber : (x.account e.node).number = s.number) :
    { x.judge true with table := x.table.settleOldest true }.Balanced ↔
      (1 < e.tries ↔ s.first = false) := by
  obtain ⟨u, us, hnames, haccount, htable⟩ := hx.oldest hwaiting
  have hmem : e.node ∈ x.table.nodes := List.mem_map_of_mem he
  have honly : ∀ m ∈ x.table.nodes, (x.account m).number = s.number ↔ m = e.node := fun m hm =>
    ⟨fun heq => hx.distinct m hm e.node hmem (heq.trans hnumber.symm), fun heq => heq ▸ hnumber⟩
  have hrepeats : { x.judge true with table := x.table.settleOldest true }.repeats =
      x.repeats + if s.first = false then 1 else 0 := by
    rw [repeats, nodes_settleOldest, haccount]
    exact sum_repeats_credit x.account s hx.nodup hmem honly
  have hretries : (x.table.settleOldest true).stats.currentRetries =
      x.table.stats.currentRetries + if 1 < e.tries then 1 else 0 := by
    rw [htable]
    exact currentRetries_settle_true (t := { x.table with unresolved := us }) hx.nodup he
      ((hnames.node_iff e.node).2 ⟨hmem, hnumber⟩)
  have hbefore : x.table.stats.currentRetries = x.repeats := h
  rw [Balanced, hrepeats, ← hbefore]
  dsimp only
  rw [hretries]
  by_cases htries : 1 < e.tries <;> by_cases hfirst : s.first = false <;>
    simp [htries, hfirst]

/-- An acceptance adds the right number just if the counter and the send agree whether it was a
retransmission. -/
theorem Balanced.accept_iff (h : x.Balanced) (hx : x.Traced) :
    { x.judge true with table := x.table.settleOldest true }.Balanced ↔
      ∀ s ∈ x.waiting.head?, ∀ e ∈ x.table.requests,
        (x.account e.node).number = s.number → (1 < e.tries ↔ s.first = false) := by
  cases hwaiting : x.waiting with
  | nil =>
    have hnamed := hx.named
    rw [hwaiting, List.forall₂_nil_right_iff] at hnamed
    have hsame : { x.judge true with table := x.table.settleOldest true } = x := by
      rw [judge, hwaiting, settleOldest, hnamed]
    rw [hsame]
    exact iff_of_true h fun s hs => by cases hs
  | cons s rest =>
    obtain ⟨u, us, hnames, haccount, htable⟩ := hx.oldest hwaiting
    simp only [List.head?_cons, Option.mem_def, Option.some.injEq, forall_eq']
    by_cases hgone : ∀ node ∈ x.table.nodes, (x.account node).number ≠ s.number
    · refine iff_of_true (h.congr (nodes_settleOldest _ true) ?_ fun node hmem => ?_)
        fun e he hnumber => absurd hnumber (hgone e.node (List.mem_map_of_mem he))
      · have hnode : u.node = none := Option.eq_none_iff_forall_ne_some.2 fun node hnode =>
          hgone node ((hnames.node_iff node).1 hnode).1 ((hnames.node_iff node).1 hnode).2
        rw [htable, settle, hnode]
        rfl
      · rw [haccount, credit_of_ne (hgone node hmem)]
    · obtain ⟨node, hmem, hnumber⟩ : ∃ node ∈ x.table.nodes, (x.account node).number = s.number := by
        simpa using hgone
      obtain ⟨e, he, rfl⟩ := List.mem_map.1 hmem
      rw [h.accept_own hx hwaiting he hnumber]
      refine ⟨fun hiff e' he' hnumber' => ?_, fun hall => hall e he hnumber⟩
      have hsame : e'.node = e.node :=
        hx.distinct e'.node (List.mem_map_of_mem he') e.node hmem (hnumber'.trans hnumber.symm)
      rwa [List.inj_on_of_nodup_map hx.nodup he' he hsame]

variable [RandomSource ρ]

/-- One event keeps the balance just if it changes the counter by what changes in the requests. -/
theorem Balanced.step_iff (h : x.Balanced) (hx : x.Traced) {e : RequestTable.Event}
    (hadmits : x.Admits e) : (x.step e).Balanced ↔ x.Tallies e := by
  cases e with
  | upkeep u =>
    cases u with
    | call c =>
      cases c with
      | request node handler query => exact iff_of_true (h.request handler query hadmits) trivial
      | update node query =>
        cases query with
        | none => exact h.remove_iff hx.nodup node
        | some query =>
          exact iff_of_true (h.congr (nodes_update _ node query) rfl fun _ _ => rfl) trivial
      | endgame => exact iff_of_true (h.congr (nodes_endgame _) rfl fun _ _ => rfl) trivial
      | release node => exact h.remove_iff hx.nodup node
    | tick now => exact iff_of_true h trivial
    | observe average => exact iff_of_true h trivial
    | record kind bytes peers => exact iff_of_true h trivial
    | reply s block =>
      refine iff_of_true (h.congr ?_ ?_ fun _ _ => rfl) trivial
      · exact nodes_eq_of_questions (questions_matchReply s _ block)
      · exact currentRetries_matchReply s _ block
    | abort => exact h.abort_iff
  | pass accepts =>
    have haccount := (sends_spec (x.table.senders accepts) x).2.1
    refine iff_of_true (h.congr (nodes_schedule accepts x.table) ?_ fun node _ => ?_) trivial
    · exact (sameCounts_schedule accepts x.table).currentRetries
    · exact (haccount node).2
  | returnValue value =>
    have hstep : (x.step (.returnValue value)).Balanced ↔
        { x.judge (value = returnOk) with
          table := x.table.settleOldest (value = returnOk) }.Balanced := Iff.rfl
    rw [hstep]
    by_cases hvalue : value = returnOk
    · rw [decide_eq_true hvalue, h.accept_iff hx]
      exact ⟨fun hall _ => hall, fun htallies => htallies hvalue⟩
    · rw [decide_eq_false hvalue]
      exact iff_of_true h.reject fun heq => absurd heq hvalue
  | sendFailed => exact iff_of_true h.reject trivial

end Steps

theorem balanced_start (tuning : Tuning) (random : ρ) (policy : Policy) (average : Nat) :
    (start tuning random policy average).Balanced := rfl

/-- The counter is right after every event just if every event changes it by what changes in the
requests outstanding. -/
theorem Balanced.run_iff [RandomSource ρ] {x : Register ρ} (h : x.Balanced) (hx : x.Traced)
    {events : List RequestTable.Event} (horderly : x.Orderly events) :
    (∀ past, past <+: events → (x.run past).Balanced) ↔ x.Tallied events := by
  induction events generalizing x with
  | nil =>
    refine iff_of_true (fun past hpast => ?_) trivial
    rw [List.prefix_nil.1 hpast]
    exact h
  | cons e events ih =>
    rw [Tallied, ← h.step_iff hx horderly.1]
    constructor
    · intro hall
      have hstep : (x.step e).Balanced := hall [e] (List.prefix_append [e] events)
      refine ⟨hstep, (ih hstep (hx.step horderly.1) horderly.2).1 fun past hpast => ?_⟩
      exact hall (e :: past) (List.prefix_cons_inj e |>.2 hpast)
    · rintro ⟨hstep, htallied⟩ past hpast
      rcases List.prefix_cons_iff.1 hpast with rfl | ⟨later, rfl, hlater⟩
      · exact h
      · exact (ih hstep (hx.step horderly.1) horderly.2).2 htallied later hlater

/-- As long as no node asks anew while its request is outstanding, the counter of retries is the
number of accepted retransmissions of the requests outstanding all along if and only if every
acceptance finds more than one try just when it is not for the first send of its request, and every
request goes with one try more than it has accepted retransmissions, or with even more when nothing
else is counted. Then it is zero whenever nothing is outstanding. -/
theorem balanced_iff_tallied [RandomSource ρ] (tuning : Tuning) (random : ρ) (policy : Policy)
    (average : Nat) (events : List RequestTable.Event)
    (horderly : (start tuning random policy average).Orderly events) :
    let x := start tuning random policy average
    ((∀ past, past <+: events → (x.run past).Balanced) ↔ x.Tallied events) ∧
      (x.Tallied events → ∀ past, past <+: events → (x.run past).table.requests = [] →
        (x.run past).table.stats.currentRetries = 0) := by
  intro x
  have hiff : (∀ past, past <+: events → (x.run past).Balanced) ↔ x.Tallied events :=
    (balanced_start tuning random policy average).run_iff
      (traced_start tuning random policy average) horderly
  exact ⟨hiff, fun htallied past hpast => (hiff.2 htallied past hpast).eq_zero⟩

/-- A retransmission that is accepted before the next one, and a removal with no answer out. -/
def promptRun : List RequestTable.Event :=
  [.upkeep (.call (.request 0 .own (.new [zeroDigest]))), .pass fun _ _ => true,
    .returnValue returnOk, .upkeep (.tick 20000), .pass fun _ _ => true, .returnValue returnOk,
    .upkeep (.call (.release 0))]

theorem balanced_promptRun :
    let x := start Tuning.default () .open 0
    x.Orderly promptRun ∧ x.Tallied promptRun ∧
      ∀ past, past <+: promptRun → (x.run past).Balanced := by
  intro x
  have horderly : x.Orderly promptRun := by decide
  have htallied : x.Tallied promptRun := by decide
  exact ⟨horderly, htallied,
    (balanced_iff_tallied Tuning.default () .open 0 promptRun horderly).1.2 htallied⟩

/-- The daemon accepts the first send only after the second was made, and the table takes that for a
retransmission. The removal takes one off for two that were counted. -/
theorem retries_left_over :
    let events : List RequestTable.Event :=
      [.upkeep (.call (.request 0 .own (.new [zeroDigest]))), .pass fun _ _ => true,
        .upkeep (.tick 20000), .pass fun _ _ => true, .returnValue returnOk, .returnValue returnOk,
        .upkeep (.call (.release 0))]
    let x := (start Tuning.default () .open 0).run events
    (start Tuning.default () .open 0).Orderly events ∧
      x.table.requests = [] ∧ x.repeats = 0 ∧ x.table.stats.currentRetries = 1 := by
  decide

end Register

end ContentTree

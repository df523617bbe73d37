import ContentTree.Proofs.Requests.Histories

/-!
# Undoing sends

A send that the sender refuses is undone at once, and one that fails later when its verdict comes.
What undoes a send keeps the time to live, the priority and the time of the send before it, and the
tries are counted down. It does not keep the number of replies, which a send halves, and it keeps a
large priority only as it was drawn anew. Sends that fail are undone in the order in which they were
made, so what remains in the end is what the last of them started from.
-/

namespace ContentTree

/-- What undoes a send of the request with all that it keeps. -/
def Request.undo (e : Request) : Unresolved :=
  ⟨some e.node, e.query.ttl, e.query.priority, e.lastSend⟩

namespace RequestTable

variable {ρ : Type} [RandomSource ρ]

/-! ### Refused sends -/

section Refused

variable {t t' : RequestTable ρ} {j : Nat} {e e' : Request} {base : Nat}

theorem Sends.reverted (h : t.Sends e e' base) :
    reverted (undoing e base) e' =
      { e with
        query := { e.query with priority := UInt32.ofNat base }
        replies := e.replies / 2 } := by
  obtain ⟨hnode, hhandler, hhashes⟩ := h.question
  obtain ⟨node, handler, ⟨priority, ttl, hashes⟩, lastSend, tries, replies⟩ := e'
  obtain rfl : node = e.node := hnode
  obtain rfl : handler = e.handler := hhandler
  obtain rfl : hashes = e.query.hashes := hhashes
  obtain rfl : tries = e.tries + 1 := h.tries
  obtain rfl : replies = e.replies / 2 := h.replies
  rfl

/-- A priority is kept just if it is not drawn anew. -/
theorem Sends.priority_eq_iff (h : t.Sends e e' base) :
    UInt32.ofNat base = e.query.priority ↔ e.query.priority.toNat ≤ priorityBound := by
  constructor
  · intro heq
    by_contra hlt
    have hbase := h.base_lt (Nat.lt_of_not_le hlt)
    have hsize : base < UInt32.size := hbase.trans (by decide)
    have hnat : base = e.query.priority.toNat := by rw [← heq, UInt32.toNat_ofNat_of_lt' hsize]
    exact hlt (hnat ▸ hbase.le)
  · intro hle
    rw [h.base_eq hle, UInt32.ofNat_toNat]

omit [RandomSource ρ] in
theorem set_eq_self_iff {es : List Request} (he : es[j]? = some e) :
    es.set j e' = es ↔ e' = e := by
  obtain ⟨hlt, rfl⟩ := List.getElem?_eq_some_iff.1 he
  constructor
  · intro heq
    have hget : (es.set j e')[j]? = es[j]? := congrArg (·[j]?) heq
    rwa [List.getElem?_set_self hlt, he, Option.some.injEq] at hget
  · rintro rfl
    exact List.set_getElem_self hlt

/-- The sender refuses the query of a visit. Then the queue is as before, and so are the requests if
and only if no earlier request is of the same node, no reply came since the last send, and the
priority is carried over. If no earlier request is of the node, nothing but the number of replies
and a larger priority can change. -/
theorem refused_restores_iff (accepts : Nat → Query → Bool) (p : Pass ρ) {query : Query}
    (he : p.table.requests[j]? = some e)
    (hrefused : p.outcome accepts j e = .offered query false) :
    let t := (p.visit accepts j).table
    t.unresolved = p.table.unresolved ∧
      (t.requests = p.table.requests ↔ Foremost p.table.requests j e.node ∧ e.replies = 0 ∧
        e.query.priority.toNat ≤ priorityBound) ∧
      (Foremost p.table.requests j e.node → ∃ priority : UInt32,
        (e.query.priority.toNat ≤ priorityBound → priority = e.query.priority) ∧
          t.requests = p.table.requests.set j
            { e with
              query := { e.query with priority := priority }
              replies := e.replies / 2 }) := by
  intro t
  have hbecomes : p.table.Becomes j e (.offered query false) t :=
    hrefused ▸ becomes_visit accepts p he
  clear_value t
  have hlt := (List.getElem?_eq_some_iff.1 he).1
  cases hbecomes with
  | @refused e' base policy random stats hdue hsends =>
    by_cases hfirst : Foremost p.table.requests j e.node
    · rw [settle_undoing base hsends.question.1 hfirst, hsends.reverted]
      refine ⟨rfl, ?_, fun _ => ⟨UInt32.ofNat base, hsends.priority_eq_iff.2, rfl⟩⟩
      have hreplies : e.replies / 2 = e.replies ↔ e.replies = 0 := by omega
      rw [← hsends.priority_eq_iff, ← hreplies]
      dsimp only
      rw [set_eq_self_iff he]
      obtain ⟨node, handler, ⟨priority, ttl, hashes⟩, lastSend, tries, replies⟩ := e
      simp [hfirst, and_comm]
    · -- The send of an earlier request is undone, and this one keeps its new try.
      rw [settle_false_eq _ rfl]
      refine ⟨rfl, iff_of_false (fun heq => ?_) fun h => hfirst h.1, fun h => absurd h hfirst⟩
      have hkept : (modifyFirst (RequestTable.reverted (undoing e base)) e.node
          (p.table.requests.set j e'))[j]? = some e' := by
        rw [getElem?_modifyFirst_of_not_foremost (foremost_set.not.2 hfirst),
          List.getElem?_set_self hlt]
      have hsame : some e' = some e := by
        rw [← hkept, ← he]
        exact congrArg (·[j]?) heq
      have htries := hsends.tries
      rw [Option.some.inj hsame] at htries
      omega

/-- A first send that is refused. -/
theorem first_send_refused :
    let t := (new Tuning.default () .open 0).call (.request 0 .own (.new [zeroDigest]))
    let p := t.opened.2
    ∃ e query, p.table.requests[0]? = some e ∧
      p.outcome (fun _ _ => false) 0 e = .offered query false ∧
      (p.visit (fun _ _ => false) 0).table.requests = p.table.requests := by
  intro t p
  let e : Request := ⟨0, .own, .new [zeroDigest], none, 0, 0⟩
  have he : p.table.requests[0]? = some e := by decide
  have hrefused : p.outcome (fun _ _ => false) 0 e = .offered ⟨1, 5000, [zeroDigest]⟩ false := by
    decide +kernel
  have hfirst : Foremost p.table.requests 0 e.node := nofun
  exact ⟨e, _, he, hrefused,
    (refused_restores_iff (fun _ _ => false) p he hrefused).2.1.2 ⟨hfirst, by decide, by decide⟩⟩

/-- A reply comes and the next send is refused. Afterwards the request counts no replies. -/
theorem refused_send_halves_replies :
    let events : List Event :=
      [.upkeep (.call (.request 0 .children (.new [zeroDigest, zeroDigest, zeroDigest]))),
        .pass fun _ _ => true, .upkeep (.call (.update 0 (some (.new [zeroDigest, zeroDigest])))),
        .upkeep (.tick 30000)]
    let t := events.foldl handle (new Tuning.default () .open 0)
    let refused := (t.visits fun _ _ => false).map (·.outcome)
    let t' := (t.schedule fun _ _ => false).2
    refused = [.offered ⟨1, 5000, [zeroDigest, zeroDigest]⟩ false] ∧
      t.requests.map (·.replies) = [1] ∧ t'.requests.map (·.replies) = [0] := by
  decide +kernel

end Refused

/-! ### Failed sends -/

section Failed

variable {t : RequestTable ρ} {s s' : Strand} {turn : Turn}

theorem Sends.undoing {e e' : Request} {base : Nat} (h : t.Sends e e' base)
    (hpriority : e.query.priority.toNat ≤ priorityBound) : undoing e base = e.undo := by
  rw [RequestTable.undoing, Request.undo, h.priority_eq_iff.2 hpriority]

/-- Sends wait in the order in which they are made. One that fails leaves what it started from. -/
theorem Changes.undo (h : t.Changes s turn s')
    (hpriority : ∀ e, turn.sent? = some e → e.query.priority.toNat ≤ priorityBound) :
    ∃ judged : List Unresolved, judged.length = turn.verdict?.toList.length ∧
      s.awaiting ++ turn.sent?.toList.map Request.undo = judged ++ s'.awaiting ∧
      (turn = .judged false → judged = [s'.request.undo]) := by
  cases h with
  | accepted hsends =>
    refine ⟨[], rfl, ?_, nofun⟩
    rw [hsends.undoing (hpriority _ rfl)]
    rfl
  | @confirmed u us holdest => exact ⟨[u], rfl, by simp [holdest, Turn.sent?], nofun⟩
  | @failed u us holdest hnode =>
    refine ⟨[u], rfl, by simp [holdest, Turn.sent?], fun _ => ?_⟩
    obtain ⟨node, ttl, priority, lastSend⟩ := u
    obtain rfl : node = _ := hnode
    rfl
  | left | vetoed | refused | updated | halved => exact ⟨[], rfl, List.append_nil _, nofun⟩

/-- What the turns of a history make of a strand. `judged` is what undoes the sends that got their
verdicts. Each send adds a try and each failure takes one off. -/
structure Accounts (s : Strand) (turns : List Turn) (s' : Strand) (judged : List Unresolved) :
    Prop where
  length : judged.length = (verdicts turns).length
  queue : s.awaiting ++ (sends turns).map Request.undo = judged ++ s'.awaiting
  tries : s'.request.tries + (verdicts turns).count false = s.request.tries + (sends turns).length
  room : s'.awaiting.length ≤ s'.request.tries
  undone : turns.getLast? = some (.judged false) → judged.getLast? = some s'.request.undo

theorem Accounts.step {s₀ : Strand} {turns : List Turn} {judged : List Unresolved}
    (h : Accounts s₀ turns s judged) (hchanges : t.Changes s turn s')
    (hpriority : ∀ e, turn.sent? = some e → e.query.priority.toNat ≤ priorityBound) :
    ∃ more, Accounts s₀ (turns ++ [turn]) s' (judged ++ more) := by
  obtain ⟨more, hlength, hqueue, hundone⟩ := hchanges.undo hpriority
  have htries := hchanges.tries h.room
  have hawaiting := hchanges.length_awaiting
  have hcount := List.count_le_length (a := false) (l := turn.verdict?.toList)
  have hroom := h.room
  refine ⟨more, ?_, ?_, ?_, by omega, ?_⟩
  · rw [verdicts_append, verdicts_singleton, List.length_append, List.length_append, h.length,
      hlength]
  · rw [sends_append, sends_singleton, List.map_append, ← List.append_assoc, h.queue,
      List.append_assoc, hqueue, List.append_assoc]
  · have hbefore := h.tries
    rw [sends_append, sends_singleton, verdicts_append, verdicts_singleton, List.length_append,
      List.count_append]
    omega
  · intro hlast
    rw [List.getLast?_concat, Option.some.injEq] at hlast
    rw [hundone hlast, List.getLast?_concat]

theorem Changes.sent_eq {e : Request} (h : t.Changes s turn s')
    (hsent : turn.sent? = some e) : e = s.request := by
  cases h with
  | accepted => exact (Option.some.inj hsent).symm
  | left | vetoed | refused | updated | halved | confirmed | failed => cases hsent

theorem Sends.late {e e' : Request} {base : Nat} {bound : Int} (h : t.Sends e e' base)
    (hbound : bound ≤ t.now + 2 * t.decrement) : Late bound e' := by
  obtain ⟨r, hlast⟩ := h.lastSend
  exact ⟨_, hlast, hbound.trans (t.le_sendTime e r)⟩

/-- Time of a request goes back by failures only. -/
theorem Changes.late {bound : Int} (h : t.Changes s turn s')
    (hbound : bound ≤ t.now + 2 * t.decrement) (hok : false ∉ turn.verdict?)
    (hs : turn.sent? = none → Late bound s.request) : Late bound s'.request := by
  cases h with
  | vetoed hdelays =>
    obtain ⟨r, hlast⟩ := hdelays.lastSend
    exact ⟨_, hlast, hbound.trans (t.le_sendTime s.request r)⟩
  | accepted hsends => exact hsends.late hbound
  | updated => exact ⟨_, rfl, hbound⟩
  | failed => exact absurd rfl hok
  | left | refused | halved | confirmed => exact hs rfl

/-- Every send but the first is made from a request that counts as sent at this time or later, and
once there is a send the request counts so too. -/
structure LateSends (bound : Int) (turns : List Turn) (s : Strand) : Prop where
  tail : ∀ e ∈ (sends turns).tail, Late bound e
  request : sends turns ≠ [] → Late bound s.request

theorem LateSends.step {bound : Int} {turns : List Turn} (h : LateSends bound turns s)
    (hchanges : t.Changes s turn s') (hbound : bound ≤ t.now + 2 * t.decrement)
    (hok : false ∉ turn.verdict?) : LateSends bound (turns ++ [turn]) s' := by
  cases hsent : turn.sent? with
  | none =>
    have hsends : sends (turns ++ [turn]) = sends turns := by
      rw [sends_append, sends_singleton, hsent, Option.toList_none, List.append_nil]
    refine ⟨hsends ▸ h.tail, fun hne => hchanges.late hbound hok fun _ => ?_⟩
    exact h.request (hsends ▸ hne)
  | some e =>
    obtain rfl := hchanges.sent_eq hsent
    have hsends : sends (turns ++ [turn]) = sends turns ++ [s.request] := by
      rw [sends_append, sends_singleton, hsent, Option.toList_some]
    refine ⟨?_, fun _ => hchanges.late hbound hok fun hnone => ?_⟩
    · rw [hsends]
      by_cases hnil : sends turns = []
      · rw [hnil]
        exact List.forall_mem_nil _
      · rw [List.tail_append_of_ne_nil hnil, List.forall_mem_append, List.forall_mem_singleton]
        exact ⟨h.tail, h.request hnil⟩
    · rw [hsent] at hnone
      cases hnone

/-- From `t` on, sends of one request are accepted by the sender, the first made from `first` and
the last from `last`, and then each of them fails. `older` are the verdicts on the sends that wait
at `t`. -/
structure FailedSends (t : RequestTable ρ) (first last : Request) (older : List Bool)
    (sending failing : List Event) : Prop where
  mem : first ∈ t.requests
  head : (sends (t.history first.node sending)).head? = some first
  getLast : (sends (t.history first.node sending)).getLast? = some last
  priority : ∀ e ∈ sends (t.history first.node sending), e.query.priority.toNat ≤ priorityBound
  length_older : older.length = (t.awaiting first.node).length
  /-- None of the sends gets its verdict before all are made. -/
  unanswered : (verdicts (t.history first.node sending)).length ≤ older.length
  /-- Nothing but verdicts happens to the request then. -/
  judged : ∀ turn ∈ (sending.foldl handle t).history first.node failing, turn.verdict?.isSome
  failed : verdicts (t.history first.node (sending ++ failing)) =
    older ++ List.replicate (sends (t.history first.node sending)).length false

section FailedSends

variable {first last : Request} {older : List Bool} {sending failing : List Event}

theorem sends_of_judged {turns : List Turn} (h : ∀ turn ∈ turns, turn.verdict?.isSome) :
    sends turns = [] := by
  refine List.filterMap_eq_nil_iff.2 fun turn hturn => ?_
  have hsome := h turn hturn
  cases turn with
  | judged => rfl
  | visited | updated | halved => cases hsome

theorem FailedSends.sends_eq (h : t.FailedSends first last older sending failing) :
    sends (t.history first.node (sending ++ failing)) = sends (t.history first.node sending) := by
  rw [history_append, sends_append, sends_of_judged h.judged, List.append_nil]

theorem FailedSends.sends_ne_nil (h : t.FailedSends first last older sending failing) :
    sends (t.history first.node sending) ≠ [] := by
  intro hnil
  have hhead := h.head
  rw [hnil] at hhead
  cases hhead

/-- The last that happens to the request is a failure. -/
theorem FailedSends.getLast?_history (h : t.FailedSends first last older sending failing) :
    (t.history first.node (sending ++ failing)).getLast? = some (.judged false) := by
  have hpos := List.length_pos_iff.2 h.sends_ne_nil
  have hfailed := h.failed
  have hunanswered := h.unanswered
  have hlast : (verdicts (t.history first.node (sending ++ failing))).getLast? = some false := by
    rw [hfailed, List.getLast?_append, List.getLast?_replicate, if_neg hpos.ne']
    rfl
  rw [history_append, verdicts_append] at hfailed hlast
  rw [history_append]
  rcases List.eq_nil_or_concat' ((sending.foldl handle t).history first.node failing) with
    hnil | ⟨init, turn, hconcat⟩
  · have hlength := congrArg List.length hfailed
    rw [hnil] at hlength
    simp only [verdicts, List.filterMap_nil, List.append_nil, List.length_append,
      List.length_replicate] at hlength hunanswered
    omega
  · have hjudged := h.judged turn (hconcat ▸ List.mem_append_right _ List.mem_cons_self)
    rw [hconcat] at hlast ⊢
    cases turn with
    | judged ok =>
      rw [verdicts_append, verdicts_singleton] at hlast
      simp only [Turn.verdict?, Option.toList_some, ← List.append_assoc, List.getLast?_concat,
        Option.some.injEq] at hlast
      rw [← List.append_assoc, List.getLast?_concat, hlast]
    | visited | updated | halved => cases hjudged

theorem FailedSends.restored (h : t.FailedSends first last older sending failing)
    {judged : List Unresolved} (haccounts : Accounts ⟨first, t.awaiting first.node⟩
      (t.history first.node (sending ++ failing)) s' judged) :
    s'.request.undo = last.undo ∧ s'.request.tries + older.count false = first.tries := by
  have hlength := haccounts.length
  have hqueue := haccounts.queue
  have htries := haccounts.tries
  have holder := h.length_older
  rw [h.sends_eq] at hqueue htries
  rw [h.failed] at hlength htries
  dsimp only at hqueue htries
  have hall := congrArg List.length hqueue
  simp only [List.length_append, List.length_map, List.length_replicate, List.count_append,
    List.count_replicate_self] at hall hlength htries
  -- Every send that waited at `t` or was made since has its verdict.
  have hnone : s'.awaiting = [] := List.eq_nil_of_length_eq_zero (by omega)
  rw [hnone, List.append_nil] at hqueue
  have hlast := haccounts.undone h.getLast?_history
  rw [← hqueue, List.getLast?_append, List.getLast?_map, h.getLast, Option.map_some,
    Option.some_or, Option.some.injEq] at hlast
  exact ⟨hlast.symm, by omega⟩

/-- Only earlier sends get their verdicts before all sends are made. -/
theorem FailedSends.verdicts_prefix (h : t.FailedSends first last older sending failing) :
    verdicts (t.history first.node sending) <+: older := by
  have hfailed := h.failed
  rw [history_append, verdicts_append] at hfailed
  exact List.prefix_of_prefix_length_le (hfailed ▸ List.prefix_append _ _)
    (List.prefix_append older _) h.unanswered

/-- The last of several sends is not made from what the first is made from. -/
theorem FailedSends.undo_eq_iff (h : t.FailedSends first last older sending failing)
    (hdecrement : 0 < t.decrement) (httl : 0 ≤ first.query.ttl.toInt) (hdue : t.isDue first = true)
    (hlate : ∀ e ∈ (sends (t.history first.node sending)).tail,
      Late (t.now + 2 * t.decrement) e) :
    last.undo = first.undo ↔ (sends (t.history first.node sending)).length = 1 := by
  have hhead := h.head
  have hgetLast := h.getLast
  rcases hsends : sends (t.history first.node sending) with _ | ⟨e, _ | ⟨e', later⟩⟩
  · exact absurd hsends h.sends_ne_nil
  · rw [hsends] at hhead hgetLast
    obtain rfl := Option.some.inj hhead
    obtain rfl := Option.some.inj hgetLast
    exact iff_of_true rfl rfl
  · refine iff_of_false (fun hundo => ?_) (by simp)
    have hmem : last ∈ e' :: later := by
      rw [hsends, List.getLast?_cons_cons] at hgetLast
      exact List.mem_of_getLast? hgetLast
    -- The last send finds a time at which the first would not have been due.
    obtain ⟨time, htime, hle⟩ := hlate last (hsends ▸ hmem)
    have hfirst : first.lastSend = some time := by
      rw [← htime]
      exact (congrArg (·.lastSend) hundo).symm
    rw [isDue, Request.expires, hfirst] at hdue
    have hexpired : time + first.query.ttl.toInt ≤ t.now - t.decrement := of_decide_eq_true hdue
    omega

end FailedSends

end Failed

end RequestTable

namespace Register

variable {ρ : Type} [RandomSource ρ] {x : Register ρ} {s : Strand}
  {events : List RequestTable.Event}

open RequestTable

theorem Traced.accounts (hx : x.Traced) (horderly : x.Orderly events)
    (hkeeps : ∀ e ∈ events, e.Keeps s.request.node) (hs : x.table.Carries s)
    (htries : s.awaiting.length ≤ s.request.tries)
    (hpriority : ∀ e ∈ sends (x.table.history s.request.node events),
      e.query.priority.toNat ≤ priorityBound) :
    ∃ s' judged, s'.request.node = s.request.node ∧ (x.run events).table.Carries s' ∧
      Accounts s (x.table.history s.request.node events) s' judged := by
  obtain ⟨s', hnode, hs', haccounts⟩ := hx.history_induction horderly hkeeps hs
    (P := fun turns s' => (∀ e ∈ sends turns, e.query.priority.toNat ≤ priorityBound) →
      ∃ judged, Accounts s turns s' judged)
    (fun _ => ⟨[], rfl, List.append_nil _, rfl, htries, nofun⟩)
    (by
      intro past _ turns s₁ turn s₂ ih hchanges hpriority
      rw [sends_append, sends_singleton, List.forall_mem_append] at hpriority
      obtain ⟨judged, haccounts⟩ := ih hpriority.1
      obtain ⟨more, hmore⟩ :=
        haccounts.step hchanges fun e he => hpriority.2 e (Option.mem_toList.2 he)
      exact ⟨judged ++ more, hmore⟩)
  obtain ⟨judged, hjudged⟩ := haccounts hpriority
  exact ⟨s', judged, hnode, hs', hjudged⟩

theorem tuning_run (x : Register ρ) (events : List RequestTable.Event) :
    (x.run events).table.tuning = x.table.tuning := by
  induction events generalizing x with
  | nil => rfl
  | cons e events ih => exact (ih (x.step e)).trans (tuning_handle x.table e)

/-- While the clock does not go back and no send fails, every send but the first is made from a
request that counts as sent two decrements after the start or later. -/
theorem Traced.late_of_sends (hx : x.Traced) (horderly : x.Orderly events)
    (hkeeps : ∀ e ∈ events, e.Keeps s.request.node) (hs : x.table.Carries s)
    (hclock : ∀ past, past <+: events → x.table.now ≤ (x.run past).table.now)
    (hok : false ∉ verdicts (x.table.history s.request.node events)) :
    ∀ e ∈ (sends (x.table.history s.request.node events)).tail,
      Late (x.table.now + 2 * x.table.decrement) e := by
  obtain ⟨s', -, -, hlate⟩ := hx.history_induction horderly hkeeps hs
    (P := fun turns s' => false ∉ verdicts turns →
      LateSends (x.table.now + 2 * x.table.decrement) turns s')
    (fun _ => ⟨nofun, fun h => absurd rfl h⟩)
    (by
      intro past hpast turns s₁ turn s₂ ih hchanges hok
      rw [verdicts_append, verdicts_singleton, List.mem_append, Option.mem_toList, not_or] at hok
      have hdecrement : (x.run past).table.decrement = x.table.decrement := by
        rw [decrement, decrement, tuning_run]
      refine (ih hok.1).step hchanges ?_ hok.2
      rw [hdecrement]
      exact Int.add_le_add_right (hclock past hpast) _)
  exact (hlate hok).tail

/-- Sends of a request that are accepted and then all fail leave the time to live, the priority and
the time of the send that the last of them started from, and the tries that the first started from,
less one for each earlier send that fails meanwhile. So they restore what the first started from
just if the last started from the same and no earlier send fails. While the clock does not go back
that is so for a single send and for no more than one. -/
theorem failed_sends_restore (tuning : Tuning) (random : ρ) (policy : Policy) (average : Nat)
    {past sending failing : List RequestTable.Event} {first last : Request} {older : List Bool}
    (horderly : (start tuning random policy average).Orderly (past ++ (sending ++ failing)))
    (hkeeps : ∀ e ∈ sending ++ failing, e.Keeps first.node)
    (hfailed : ((start tuning random policy average).run past).table.FailedSends first last older
      sending failing) :
    let x := (start tuning random policy average).run past
    ∃ e ∈ (x.run (sending ++ failing)).table.requests, e.node = first.node ∧
      e.undo = last.undo ∧ e.tries + older.count false = first.tries ∧
      (e.undo = first.undo ∧ e.tries = first.tries ↔
        last.undo = first.undo ∧ older.count false = 0) ∧
      (older.count false = 0 → 0 < x.table.decrement → 0 ≤ first.query.ttl.toInt →
        x.table.isDue first = true →
        (∀ before, before <+: sending → x.table.now ≤ (x.run before).table.now) →
          (last.undo = first.undo ↔
            (sends (x.table.history first.node sending)).length = 1)) := by
  intro x
  have hstart := traced_start tuning random policy average
  obtain ⟨hpast, hlater⟩ := orderly_append.1 horderly
  have hx : x.Traced := hstart.run hpast
  have hs : x.table.Carries ⟨first, x.table.awaiting first.node⟩ := ⟨hfailed.mem, rfl⟩
  have hroom : (x.table.awaiting first.node).length ≤ first.tries :=
    hstart.length_awaiting_le_tries nofun hpast first hfailed.mem
  obtain ⟨s', judged, hnode, hs', haccounts⟩ :=
    hx.accounts hlater hkeeps hs hroom (hfailed.sends_eq ▸ hfailed.priority)
  obtain ⟨hundo, htries⟩ := hfailed.restored haccounts
  refine ⟨s'.request, ?_, hnode, hundo, htries, ?_, ?_⟩
  · exact hs'.mem
  · rw [hundo]
    exact and_congr_right fun _ => by omega
  · intro hok hdecrement httl hdue hclock
    refine hfailed.undo_eq_iff hdecrement httl hdue ?_
    refine hx.late_of_sends (orderly_append.1 hlater).1
      (fun e he => hkeeps e (List.mem_append_left _ he)) hs hclock fun hfalse => ?_
    exact List.count_eq_zero.1 hok (hfailed.verdicts_prefix.subset hfalse)

/-- The second send is made from what the first one left. -/
theorem two_failed_sends :
    let request : List RequestTable.Event :=
      [.upkeep (.call (.request 0 .own (.new [zeroDigest])))]
    let sending : List RequestTable.Event :=
      [.pass fun _ _ => true, .upkeep (.tick 20000), .pass fun _ _ => true]
    let failing : List RequestTable.Event := [.sendFailed, .sendFailed]
    let first : Request := ⟨0, .own, .new [zeroDigest], none, 0, 0⟩
    let last : Request := ⟨0, .own, ⟨1, 5000, [zeroDigest]⟩, some 10000, 1, 0⟩
    let x := (start Tuning.default () .open 0).run request
    (start Tuning.default () .open 0).Orderly (request ++ (sending ++ failing)) ∧
      (∀ e ∈ sending ++ failing, e.Keeps 0) ∧ x.table.FailedSends first last [] sending failing ∧
      ∃ e ∈ (x.run (sending ++ failing)).table.requests, e.undo = last.undo ∧ e.tries = 0 := by
  intro request sending failing first last x
  have horderly : (start Tuning.default () .open 0).Orderly (request ++ (sending ++ failing)) := by
    decide
  have hkeeps : ∀ e ∈ sending ++ failing, e.Keeps first.node := by
    simp [sending, failing, Event.Keeps]
  have hfailed : x.table.FailedSends first last [] sending failing :=
    ⟨by decide, by decide +kernel, by decide +kernel, by decide +kernel, by decide,
      by decide +kernel, by decide +kernel, by decide +kernel⟩
  obtain ⟨e, he, -, hundo, htries, -⟩ :=
    failed_sends_restore Tuning.default () .open 0 horderly hkeeps hfailed
  exact ⟨horderly, hkeeps, hfailed, e, he, hundo, htries⟩

/-- Two sends are accepted and both fail. The request has no try left, and still it counts as sent
and keeps the time to live of its first send. -/
theorem sent_after_two_failures :
    let first : Request := ⟨0, .own, .new [zeroDigest], none, 0, 0⟩
    let x := (start Tuning.default () .open 0).run
      [.upkeep (.call (.request 0 .own (.new [zeroDigest])))]
    let events : List RequestTable.Event :=
      [.pass fun _ _ => true, .upkeep (.tick 20000), .pass fun _ _ => true, .sendFailed,
        .sendFailed]
    x.table.requests = [first] ∧ (sends (x.table.history 0 events)).length = 2 ∧
      verdicts (x.table.history 0 events) = [false, false] ∧
      (x.run events).table.requests =
        [{ first with query := ⟨1, 5000, [zeroDigest]⟩, lastSend := some 10000 }] := by
  decide +kernel

end Register

end ContentTree

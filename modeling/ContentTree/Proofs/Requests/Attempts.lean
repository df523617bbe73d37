import ContentTree.Proofs.Requests.Histories

/-!
# Which requests a pass attempts

A pass attempts only requests that are due. It attempts one for certain when the requests that were
in flight before the pass and the attempts made so far do not exceed the window. Requests that it
does not attempt stay as they are. An attempt asks the policy, and hands the query to the sender
just if the policy lets it through. Unless the sender refuses the query, the request counts as sent
from two decrements after the pass.
-/

namespace ContentTree

namespace RequestTable

/-- The request is sent, or would be if the policy let it. -/
def Visit.attempted (v : Visit) : Bool := v.outcome ≠ .left

/-- The query is handed to the sender. -/
def Visit.offered (v : Visit) : Bool := v.outcome.offered?.isSome

/-- The policy after the visit. It is asked whenever the request is attempted. -/
def Visit.asks (p : Policy) (v : Visit) : Policy :=
  if v.attempted then (p.permits .query v.request.query.wireSize).2 else p

/-- The request was never sent, or its time to live and a decrement are over. -/
def Due {ρ : Type} (t : RequestTable ρ) (e : Request) : Prop :=
  ∀ last, e.lastSend = some last → last + e.query.ttl.toInt + t.decrement ≤ t.now

section Due

variable {ρ : Type} {t : RequestTable ρ} {e : Request}

theorem isDue_iff : t.isDue e = true ↔ t.Due e := by
  unfold isDue Due Request.expires
  cases e.lastSend with
  | none => simp
  | some last =>
    simp only [Option.map_some, decide_eq_true_eq, Option.some.injEq, forall_eq']
    omega

end Due

/-! ### Room in the window -/

section Room

variable {ρ : Type} [RandomSource ρ] {t t' : RequestTable ρ} {p : Pass ρ} {j : Nat} {e : Request}
  {o : Outcome}

omit [RandomSource ρ] in
theorem Attempt.outcome_ne_left (a : Attempt ρ) : a.outcome ≠ .left := by
  unfold Attempt.outcome
  split <;> nofun

theorem hasRoom_of_le {pending : Int} (h : pending ≤ t.window) : (t.hasRoom pending).1 = true := by
  unfold hasRoom
  dsimp only
  rw [if_pos (by omega)]

theorem attempted_outcome (accepts : Nat → Query → Bool) (p : Pass ρ) (j : Nat) (e : Request) :
    Visit.attempted ⟨e, p.outcome accepts j e⟩ = true ↔
      p.table.isDue e = true ∧ (p.table.hasRoom p.pending).1 = true := by
  unfold Visit.attempted Pass.outcome
  dsimp only
  split
  · rename_i hboth
    simpa [hboth] using Attempt.outcome_ne_left _
  · rename_i hnot
    simpa using hnot

/-- What a pass does not touch of the state of congestion control. -/
structure Steady (t t' : RequestTable ρ) : Prop where
  window : t'.window = t.window
  threshold : t'.threshold = t.threshold
  lastCongestion : t'.lastCongestion = t.lastCongestion

omit [RandomSource ρ] in
theorem Steady.trans {t'' : RequestTable ρ} (h : t.Steady t') (h' : t'.Steady t'') :
    t.Steady t'' :=
  ⟨h'.window.trans h.window, h'.threshold.trans h.threshold,
    h'.lastCongestion.trans h.lastCongestion⟩

omit [RandomSource ρ] in
theorem steady_settle_false (t : RequestTable ρ) (u : Unresolved) :
    t.Steady (t.settle u false) := by
  obtain ⟨requests, hsettle, -⟩ := t.settle_false u
  rw [hsettle]
  exact ⟨rfl, rfl, rfl⟩

theorem Becomes.steady (h : t.Becomes j e o t') : t.Steady t' := by
  cases h with
  | refused =>
    refine .trans ?_ (steady_settle_false _ _)
    exact ⟨rfl, rfl, rfl⟩
  | left | vetoed | accepted => exact ⟨rfl, rfl, rfl⟩

theorem steady_schedule (accepts : Nat → Query → Bool) (t : RequestTable ρ) :
    t.Steady (t.schedule accepts).2 :=
  schedule_induction (P := fun _ t' => t.Steady t') accepts t (fun _ => ⟨rfl, rfl, rfl⟩)
    fun _ _ _ _ _ _ hsteady _ hbecomes => hsteady.trans hbecomes.steady

end Room

/-! ### A pass up to a visit -/

section Progress

variable {ρ : Type} [RandomSource ρ] {p q : Pass ρ} {j : Nat} {e : Request}

omit [RandomSource ρ] in
theorem Attempt.offered?_outcome (a : Attempt ρ) : a.outcome.offered? = a.offered := by
  unfold Attempt.outcome
  cases a.offered <;> rfl

omit [RandomSource ρ] in
theorem policy_settle_false (t : RequestTable ρ) (u : Unresolved) :
    (t.settle u false).policy = t.policy := by
  obtain ⟨requests, hsettle, -⟩ := t.settle_false u
  rw [hsettle]

/-- The policy is asked once, and decides whether the query is handed over. -/
theorem attempt_asks (accepts : Query → Bool) (t : RequestTable ρ) (j : Nat) (e : Request) :
    let permission := t.policy.permits .query e.query.wireSize
    let a := t.attempt accepts j e
    a.table.policy = permission.2 ∧ a.offered.isSome = permission.1 ∧
      ∀ query, a.offered = some query → a.accepted = accepts query := by
  intro permission a
  unfold a
  rw [attempt_eq]
  dsimp only
  by_cases hpermitted : permission.1 = true
  · rw [if_neg (not_not.2 hpermitted), hpermitted]
    unfold offer
    dsimp only
    split
    · rename_i haccepts
      exact ⟨rfl, rfl, fun query hquery => Option.some.inj hquery ▸ haccepts.symm⟩
    · rename_i hrefuses
      refine ⟨policy_settle_false _ _, rfl, fun query hquery => ?_⟩
      exact Option.some.inj hquery ▸ (Bool.eq_false_iff.2 hrefuses).symm
  · rw [if_pos hpermitted]
    exact ⟨rfl, (Bool.eq_false_iff.2 hpermitted).symm, nofun⟩

/-- The pass `q` is what `p` has become after these visits. -/
structure Pass.Reaches (p : Pass ρ) (visits : List Visit) (q : Pass ρ) : Prop where
  alike : p.table.Alike q.table
  steady : p.table.Steady q.table
  pending : q.pending = p.pending + visits.countP Visit.attempted
  offered : q.offered = p.offered + visits.countP Visit.offered
  policy : q.table.policy = visits.foldl Visit.asks p.table.policy

omit [RandomSource ρ] in
theorem Pass.Reaches.refl (p : Pass ρ) : p.Reaches [] p :=
  ⟨.refl _, ⟨rfl, rfl, rfl⟩, (Int.add_zero _).symm, rfl, rfl⟩

omit [RandomSource ρ] in
theorem Pass.Reaches.trans {p' : Pass ρ} {visits later : List Visit} (h : p.Reaches visits p')
    (h' : p'.Reaches later q) : p.Reaches (visits ++ later) q where
  alike := h.alike.trans h'.alike
  steady := h.steady.trans h'.steady
  pending := by
    rw [h'.pending, h.pending, List.countP_append]
    push_cast
    exact Int.add_assoc _ _ _
  offered := by rw [h'.offered, h.offered, List.countP_append, Nat.add_assoc]
  policy := by rw [h'.policy, h.policy, List.foldl_append]

theorem outcome_of_room (accepts : Nat → Query → Bool) (j : Nat) (hdue : p.table.isDue e = true)
    (hroom : (p.table.hasRoom p.pending).1 = true) :
    p.outcome accepts j e = (attempt (accepts p.offered)
      { p.table with random := (p.table.hasRoom p.pending).2 } j e).outcome := by
  unfold Pass.outcome
  exact if_pos ⟨hdue, hroom⟩

theorem reaches_visit (accepts : Nat → Query → Bool) (he : p.table.requests[j]? = some e) :
    p.Reaches [⟨e, p.outcome accepts j e⟩] (p.visit accepts j) := by
  have hbecomes := becomes_visit accepts p he
  have hcounts : (p.visit accepts j).pending =
        p.pending + [Visit.mk e (p.outcome accepts j e)].countP Visit.attempted ∧
      (p.visit accepts j).offered =
        p.offered + [Visit.mk e (p.outcome accepts j e)].countP Visit.offered ∧
      (p.visit accepts j).table.policy =
        Visit.asks p.table.policy ⟨e, p.outcome accepts j e⟩ := by
    simp only [List.countP_singleton, Visit.asks]
    by_cases hattempted : Visit.attempted ⟨e, p.outcome accepts j e⟩ = true
    · obtain ⟨hdue, hroom⟩ := (attempted_outcome accepts p j e).1 hattempted
      obtain ⟨hpolicy, -, -⟩ := attempt_asks (accepts p.offered)
        { p.table with random := (p.table.hasRoom p.pending).2 } j e
      rw [if_pos hattempted, if_pos hattempted, Visit.offered, outcome_of_room accepts j hdue hroom,
        Attempt.offered?_outcome]
      unfold Pass.visit
      simp only [he, hdue, hroom, if_true]
      refine ⟨rfl, ?_, hpolicy⟩
      split <;> rfl
    · have hleft : p.outcome accepts j e = .left := by simpa [Visit.attempted] using hattempted
      have hnot : ¬ (p.table.isDue e = true ∧ (p.table.hasRoom p.pending).1 = true) :=
        fun h => hattempted ((attempted_outcome accepts p j e).2 h)
      rw [if_neg hattempted, if_neg hattempted, hleft]
      unfold Pass.visit
      rw [he]
      by_cases hdue : p.table.isDue e = true
      · have hfull : ¬ (p.table.hasRoom p.pending).1 = true := fun h => hnot ⟨hdue, h⟩
        simp [hdue, hfull, Visit.offered, Outcome.offered?]
      · simp [hdue, Visit.offered, Outcome.offered?]
  exact ⟨hbecomes.alike, hbecomes.steady, hcounts.1, hcounts.2.1, hcounts.2.2⟩

/-- The pass when it comes to one of its visits. -/
theorem exists_pass_of_split (accepts : Nat → Query → Bool) {order : List Nat} {p : Pass ρ}
    {before after : List Visit} {v : Visit}
    (hsplit : visitsOf accepts p order = before ++ v :: after) :
    ∃ q j, p.Reaches before q ∧ q.table.requests[j]? = some v.request ∧
      v.outcome = q.outcome accepts j v.request := by
  induction order generalizing p before with
  | nil => exact absurd (congrArg List.length hsplit) (by simp [visitsOf])
  | cons j order ih =>
    rw [visitsOf] at hsplit
    cases he : p.table.requests[j]? with
    | none =>
      rw [he, visit_of_none accepts he] at hsplit
      exact ih hsplit
    | some e =>
      rw [he] at hsplit
      cases before with
      | nil =>
        obtain ⟨rfl, -⟩ := List.cons.inj hsplit
        exact ⟨p, j, .refl p, he, rfl⟩
      | cons first before =>
        obtain ⟨rfl, hrest⟩ := List.cons.inj hsplit
        obtain ⟨q, i, hreaches, hget, houtcome⟩ := ih hrest
        exact ⟨q, i, (reaches_visit accepts he).trans hreaches, hget, houtcome⟩

theorem reaches_visits (accepts : Nat → Query → Bool) (order : List Nat) (p : Pass ρ) :
    p.Reaches (visitsOf accepts p order) (order.foldl (Pass.visit accepts) p) := by
  induction order generalizing p with
  | nil => exact .refl p
  | cons j order ih =>
    rw [visitsOf, List.foldl_cons]
    cases he : p.table.requests[j]? with
    | none =>
      rw [visit_of_none accepts he]
      exact ih p
    | some e => exact (reaches_visit accepts he).trans (ih _)

/-- A due request is attempted when it is visited with what is pending within the window. -/
theorem attempted_of_pending_le (accepts : Nat → Query → Bool) {order : List Nat}
    {before after : List Visit} {v : Visit}
    (hsplit : visitsOf accepts p order = before ++ v :: after)
    (hdue : p.table.isDue v.request = true)
    (hpending : p.pending + before.countP Visit.attempted ≤ p.table.window) :
    v.attempted = true := by
  obtain ⟨q, j, hreaches, -, houtcome⟩ := exists_pass_of_split accepts hsplit
  have hvisit : v = ⟨v.request, q.outcome accepts j v.request⟩ := houtcome ▸ rfl
  rw [hvisit]
  refine (attempted_outcome accepts q j v.request).2 ⟨hreaches.alike.isDue.trans hdue, ?_⟩
  refine hasRoom_of_le ?_
  rwa [hreaches.pending, hreaches.steady.window]

/-- The policy, asked by every attempt before, decides whether an attempt hands its query over, and
the sender answers queries in the order in which it gets them. -/
theorem asks_of_split (accepts : Nat → Query → Bool) {order : List Nat} {before after : List Visit}
    {v : Visit} (hsplit : visitsOf accepts p order = before ++ v :: after)
    (hattempted : v.attempted = true) :
    v.offered = ((before.foldl Visit.asks p.table.policy).permits .query
        v.request.query.wireSize).1 ∧
      ∀ query accepted, v.outcome = .offered query accepted →
        accepted = accepts (p.offered + before.countP Visit.offered) query := by
  obtain ⟨q, j, hreaches, -, houtcome⟩ := exists_pass_of_split accepts hsplit
  have hvisit : v = ⟨v.request, q.outcome accepts j v.request⟩ := houtcome ▸ rfl
  rw [hvisit] at hattempted
  obtain ⟨hdue, hroom⟩ := (attempted_outcome accepts q j v.request).1 hattempted
  obtain ⟨-, hoffered, hanswer⟩ := attempt_asks (accepts q.offered)
    { q.table with random := (q.table.hasRoom q.pending).2 } j v.request
  rw [outcome_of_room accepts j hdue hroom] at houtcome
  rw [Visit.offered, houtcome, Attempt.offered?_outcome, hoffered, ← hreaches.policy,
    ← hreaches.offered]
  refine ⟨rfl, fun query accepted hquery => ?_⟩
  generalize (attempt (accepts q.offered) _ j v.request : Attempt ρ) = a at hanswer hquery
  unfold Attempt.outcome at hquery
  split at hquery
  · cases hquery
  · rename_i hsome
    obtain ⟨rfl, rfl⟩ := Outcome.offered.inj hquery
    exact hanswer _ hsome

end Progress

/-! ### The pass -/

section Pass

variable {ρ : Type} [RandomSource ρ] {t : RequestTable ρ} {e : Request}

theorem due_of_attempted (accepts : Nat → Query → Bool) (t : RequestTable ρ) :
    ∀ v ∈ t.visits accepts, v.attempted = true → t.isDue v.request = true := by
  refine forall_visits accepts t fun t₁ t₂ j e o halike hbecomes hattempted => ?_
  rw [← halike.isDue]
  cases hbecomes with
  | left => cases hattempted
  | vetoed policy random hdue => exact hdue
  | accepted policy random stats hdue => exact hdue
  | refused policy random stats hdue => exact hdue

theorem exists_visit (accepts : Nat → Query → Bool) (hnodup : t.nodes.Nodup)
    (he : e ∈ t.requests) : ∃ v ∈ t.visits accepts, v.request = e :=
  List.mem_map.1 ((perm_visits accepts hnodup).mem_iff.2 he)

theorem changes_of_visit (accepts : Nat → Query → Bool) (hnodup : t.nodes.Nodup) {v : Visit}
    (hv : v ∈ t.visits accepts) :
    ∃ s', t.Changes ⟨v.request, t.awaiting v.request.node⟩ (.visited v) s' ∧
      (t.schedule accepts).2.Carries s' := by
  have hmem : v.request ∈ t.requests :=
    (perm_visits accepts hnodup).mem_iff.1 (List.mem_map_of_mem hv)
  have hcarried : t.Carries ⟨v.request, t.awaiting v.request.node⟩ := ⟨hmem, rfl⟩
  exact changes_of_mem_visits accepts hnodup hcarried hv rfl

/-- Requests stay at their positions. -/
theorem getElem?_schedule (accepts : Nat → Query → Bool) (hnodup : t.nodes.Nodup) {j : Nat}
    (he : t.requests[j]? = some e) {e' : Request} (he' : e' ∈ (t.schedule accepts).2.requests)
    (hnode : e'.node = e.node) : (t.schedule accepts).2.requests[j]? = some e' := by
  obtain ⟨i, hi⟩ := List.mem_iff_getElem?.1 he'
  have hbefore : t.nodes[j]? = some e.node := by rw [nodes, List.getElem?_map, he, Option.map_some]
  have hafter : t.nodes[i]? = some e.node := by
    rw [← nodes_schedule accepts, nodes, List.getElem?_map, hi, Option.map_some, hnode]
  have hlt := (List.getElem?_eq_some_iff.1 hafter).1
  obtain rfl := (List.getElem?_inj hlt hnodup).1 (hafter.trans hbefore.symm)
  exact hi

theorem policy_schedule (accepts : Nat → Query → Bool) (t : RequestTable ρ) :
    (t.schedule accepts).2.policy = (t.visits accepts).foldl Visit.asks t.policy := by
  by_cases hempty : t.requests = []
  · rw [schedule_of_nil accepts hempty, visits, opened_of_nil hempty]
    rfl
  · rw [schedule_of_ne_nil accepts hempty]
    exact (reaches_visits accepts t.opened.1 t.opened.2).policy

/-- A request that was attempted counts as sent, unless the sender refused its query. -/
theorem Changes.counts {s s' : Strand} {v : Visit} (h : t.Changes s (.visited v) s')
    (hattempted : v.attempted = true) (hkept : ∀ query, v.outcome ≠ .offered query false) :
    Late (t.now + 2 * t.decrement) s'.request ∧
      (s.request.tries ≤ 1 → s'.request.lastSend = some (t.now + 2 * t.decrement)) := by
  have hcounts : ∀ e' : Request, (∃ r, e'.lastSend = some (t.sendTime s.request r).1) →
      Late (t.now + 2 * t.decrement) e' ∧
        (s.request.tries ≤ 1 → e'.lastSend = some (t.now + 2 * t.decrement)) := by
    rintro e' ⟨r, hlast⟩
    refine ⟨⟨_, hlast, t.le_sendTime s.request r⟩, fun htries => ?_⟩
    rw [hlast, t.sendTime_of_tries_le htries r]
  cases h with
  | left => cases hattempted
  | vetoed hdelays => exact hcounts _ hdelays.lastSend
  | accepted hsends => exact hcounts _ hsends.lastSend
  | refused => exact absurd rfl (hkept _)

/-- What a pass does with a request that it attempts after these visits. -/
structure Attempted (accepts : Nat → Query → Bool) (t : RequestTable ρ) (before : List Visit)
    (v : Visit) : Prop where
  /-- The policy, asked by the attempts before, decides whether the query is handed over. -/
  permitted : v.offered =
    ((before.foldl Visit.asks t.policy).permits .query v.request.query.wireSize).1
  offers : ∀ query accepted, v.outcome = .offered query accepted →
    query.hashes = v.request.query.hashes ∧
      accepted = accepts (before.countP Visit.offered) query
  changes : ∃ s', t.Changes ⟨v.request, t.awaiting v.request.node⟩ (.visited v) s' ∧
    (t.schedule accepts).2.Carries s'
  counts : (∀ query, v.outcome ≠ .offered query false) →
    ∃ e' ∈ (t.schedule accepts).2.requests, e'.node = v.request.node ∧
      Late (t.now + 2 * t.decrement) e' ∧
      (v.request.tries ≤ 1 → e'.lastSend = some (t.now + 2 * t.decrement))

theorem attempted_of_split (accepts : Nat → Query → Bool) (hnodup : t.nodes.Nodup)
    {before after : List Visit} {v : Visit} (hsplit : t.visits accepts = before ++ v :: after)
    (hattempted : v.attempted = true) : t.Attempted accepts before v := by
  obtain ⟨hpermitted, hanswer⟩ := asks_of_split accepts hsplit hattempted
  have hv : v ∈ t.visits accepts := hsplit ▸ List.mem_append_right _ List.mem_cons_self
  obtain ⟨s', hchanges, hcarries⟩ := changes_of_visit accepts hnodup hv
  refine ⟨hpermitted, fun query accepted hquery => ⟨?_, ?_⟩, ⟨s', hchanges, hcarries⟩, ?_⟩
  · obtain ⟨e, o⟩ := v
    obtain rfl : o = .offered query accepted := hquery
    cases hchanges with
    | accepted hsends => exact hsends.question.2.2
    | refused hsends => exact hsends.question.2.2
  · have hstart : t.opened.2.offered = 0 := rfl
    rw [hanswer query accepted hquery, hstart, Nat.zero_add]
  · exact fun hkept =>
      ⟨s'.request, hcarries.mem, hchanges.node, hchanges.counts hattempted hkept⟩

/-- A pass over a table with one request of each node visits each request once, and sends what the
sender accepts on these visits. It attempts due requests only, any that finds room in the window
among them; what it does not attempt it leaves as it is. If a request is due and none is in flight,
it attempts one. What is attempted is handed to the sender if the policy permits it, and counts as
sent unless the sender refuses it. -/
theorem pass_attempts (accepts : Nat → Query → Bool) (t : RequestTable ρ) (hnodup : t.nodes.Nodup) :
    let visits := t.visits accepts
    (visits.map (·.request)).Perm t.requests ∧
    (t.schedule accepts).1.sent = visits.filterMap (·.outcome.sent?) ∧
    (∀ v ∈ visits, v.attempted = true → t.Due v.request) ∧
    (∀ before v after, visits = before ++ v :: after → t.Due v.request →
      t.requests.countP t.inFlight + before.countP Visit.attempted ≤ t.window →
        v.attempted = true) ∧
    (∀ (j : Nat) e v, t.requests[j]? = some e → v ∈ visits → v.request = e → v.attempted = false →
      (t.schedule accepts).2.requests[j]? = some e) ∧
    ((∃ e ∈ t.requests, t.Due e) → (∀ e ∈ t.requests, t.inFlight e = false) →
      ∃ v ∈ visits, v.attempted = true) ∧
    (∀ before v after, visits = before ++ v :: after → v.attempted = true →
      t.Attempted accepts before v) ∧
    (t.schedule accepts).2.policy = visits.foldl Visit.asks t.policy := by
  intro visits
  have hroom : ∀ before v after, visits = before ++ v :: after → t.Due v.request →
      t.requests.countP t.inFlight + before.countP Visit.attempted ≤ t.window →
        v.attempted = true := by
    intro before v after hsplit hdue hle
    refine attempted_of_pending_le accepts hsplit (isDue_iff.2 hdue) ?_
    change (t.requests.countP t.inFlight : Int) + before.countP Visit.attempted ≤ t.window
    exact_mod_cast hle
  refine ⟨perm_visits accepts hnodup, sent_schedule accepts t, fun v hv hattempted =>
    isDue_iff.1 (due_of_attempted accepts t v hv hattempted), hroom, ?_, ?_,
    fun before v after => attempted_of_split accepts hnodup, policy_schedule accepts t⟩
  · rintro j _ ⟨e, o⟩ he hv rfl hleft
    obtain rfl : o = .left := by simpa [Visit.attempted] using hleft
    obtain ⟨s', hchanges, hcarries⟩ := changes_of_visit accepts hnodup hv
    cases hchanges
    exact getElem?_schedule accepts hnodup he hcarries.mem rfl
  · rintro ⟨e, he, hdue⟩ hflight
    by_contra hnone
    have hleft : ∀ v ∈ visits, ¬ v.attempted = true := fun v hv hattempted =>
      hnone ⟨v, hv, hattempted⟩
    obtain ⟨v, hv, rfl⟩ := exists_visit accepts hnodup he
    obtain ⟨before, after, hsplit⟩ : ∃ before after, visits = before ++ v :: after :=
      List.append_of_mem hv
    -- With no attempt before it nothing is pending.
    have hbefore : before.countP Visit.attempted = 0 := by
      refine List.countP_eq_zero.2 fun w hw => hleft w ?_
      rw [hsplit]
      exact List.mem_append_left _ hw
    have hpending : t.requests.countP t.inFlight = 0 :=
      List.countP_eq_zero.2 fun d hd => Bool.eq_false_iff.1 (hflight d hd)
    refine hleft v hv (hroom before v after hsplit hdue ?_)
    rw [hbefore, hpending]
    exact Nat.zero_le _

/-- Of two requests that were never sent one is attempted first: with no demand for cover its query
goes to the sender, and it counts as sent two decrements later. -/
theorem pass_attempts_first_sends :
    let t := [SchedulerCall.request 0 .own ⟨7, 1, [zeroDigest]⟩, .request 1 .own ⟨7, 1, []⟩].foldl
      call (new Tuning.default () .open 0)
    t.nodes.Nodup ∧ ∃ v ∈ t.visits fun _ _ => true, v.attempted = true ∧ v.offered = true ∧
      ∃ e' ∈ (t.schedule fun _ _ => true).2.requests, e'.node = v.request.node ∧
        e'.lastSend = some 10000 := by
  intro t
  have hnodup : t.nodes.Nodup := by decide
  obtain ⟨-, -, -, -, -, -, hattempt, -⟩ := pass_attempts (fun _ _ => true) t hnodup
  have hall : ∀ v ∈ t.visits fun _ _ => true, v.attempted = true ∧
      v.outcome.sent?.isSome = true ∧ v.request.tries = 0 := by decide
  obtain ⟨v, rest, hvisits⟩ :=
    List.exists_cons_of_ne_nil (by decide : t.visits (fun _ _ => true) ≠ [])
  have hv : v ∈ t.visits fun _ _ => true := hvisits ▸ List.mem_cons_self
  obtain ⟨hattempted, hsent, htries⟩ := hall v hv
  have hdoes := hattempt [] v rest hvisits hattempted
  have hkept : ∀ query, v.outcome ≠ .offered query false := by
    intro query hrefused
    rw [hrefused] at hsent
    cases hsent
  obtain ⟨e', he', hnode, -, hcounts⟩ := hdoes.counts hkept
  have hlast : e'.lastSend = some 10000 := (hcounts (by omega)).trans (by decide)
  exact ⟨hnodup, v, hv, hattempted, hdoes.permitted, e', he', hnode, hlast⟩

end Pass

end RequestTable

end ContentTree

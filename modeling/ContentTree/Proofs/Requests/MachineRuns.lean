import ContentTree.Proofs.Requests.Headroom
import ContentTree.Settings.Text

/-!
# Runs in machine numbers

A run of the request table is the same in machine numbers if the settings leave room for it. In a
pass each request is visited once, so that one pass adds one try at most to each. Settings with very
large numbers do not leave room: the cap on the time to live is cut to 64 bits without sign and then
read with a sign.
-/

namespace ContentTree

open MachineType

namespace RequestTable

variable {ρ : Type}

/-! ### Sends -/

section Sends

variable [RandomSource ρ] {c : Tuning} {events n m : Nat} {t : RequestTable ρ} {e : Request}

theorem drawFrom?_eq {base bound : Int} (r : ρ) (hleast : -2 ^ 31 ≤ base)
    (hlargest : base + max (bound - 1) 0 < 2 ^ 63) :
    drawFrom? base bound r = some (base + (drawBelow bound r).1, (drawBelow bound r).2) := by
  have hdraw := drawBelow_mem bound r
  unfold drawFrom?
  dsimp only [Option.bind_eq_bind]
  rw [i64_bind (by omega) (by omega)]
  rfl

theorem Within.grownTtl?_eq (ht : t.Within c events n) (hc : c.LeavesRoom events) (e : Request) :
    t.grownTtl? e = some (t.grownTtl e) := by
  obtain ⟨hinitial?, hinitial⟩ := ht.initial?_eq hc
  have hroom := hc.decrement
  have hmaxTtl := hc.maxTtl
  have hleast := e.query.ttl.le_toInt
  have hlargest := e.query.ttl.toInt_lt
  have hcap : signed64 t.tuning.maxTtl = c.maxTtl := by rw [ht.tuning, signed64_of_lt hmaxTtl]
  have hcap? : i64.hold? t.tuning.maxTtl = some (c.maxTtl : Int) := by
    rw [ht.tuning, i64_hold? (by omega) (by omega)]
  unfold grownTtl? grownTtl
  rw [decrement?_eq ht.tuning hc, hinitial?, hcap?, decrement_eq ht.tuning hc, hinitial, hcap]
  dsimp only [Option.bind_eq_bind, Option.bind_some]
  by_cases hfirst : e.lastSend.isNone
  · rw [if_pos hfirst, if_pos hfirst]
    rfl
  rw [if_neg hfirst, if_neg hfirst]
  by_cases hcapped : e.query.ttl.toInt > c.maxTtl
  · rw [if_pos hcapped, if_pos hcapped, i32_hold? (by omega) (by omega), Option.bind_some,
      i64_bind (by omega) (by omega), drawFrom?_eq _ (by omega) (by omega)]
    rfl
  rw [if_neg hcapped, if_neg hcapped]
  by_cases hslow : e.query.ttl.toInt > t.initialTtl
  · have hstep : ∀ steps : Int, 0 ≤ (c.ttlDecrement : Int).tdiv (max steps 1) ∧
        (c.ttlDecrement : Int).tdiv (max steps 1) ≤ c.ttlDecrement := fun steps =>
      ⟨Int.tdiv_nonneg (Int.natCast_nonneg _) (by omega), Int.tdiv_le_self _ (Int.natCast_nonneg _)⟩
    rw [if_pos hslow, if_pos hslow]
    by_cases hzero : (t.initialTtl : Int) = 0
    · obtain ⟨hstepNonneg, hstepLe⟩ := hstep e.query.ttl.toInt
      rw [if_pos hzero, if_pos hzero, i64_quotient? (by omega) (by omega) (by omega),
        Option.bind_some, i64_bind (by omega) (by omega),
        drawFrom?_eq _ (by omega) (by omega)]
      rfl
    · obtain ⟨hstepNonneg, hstepLe⟩ := hstep (e.query.ttl.toInt.tdiv t.initialTtl)
      rw [if_neg hzero, if_neg hzero, i64_quotient? (by omega) (by omega) (by omega),
        Option.bind_some, i64_quotient? (by omega) (by omega) (by omega),
        Option.bind_some, i64_bind (by omega) (by omega),
        drawFrom?_eq _ (by omega) (by omega)]
      rfl
  · rw [if_neg hslow, if_neg hslow, i64_bind (by omega) (by omega),
      i64_bind (by omega) (by omega), drawFrom?_eq _ (by omega) (by omega)]
    rfl

theorem wait_le (hn : n < events) (he : e.Within c events n) :
    (0 : Int) ≤ c.ttlDecrement * (1 + e.tries) ∧
      (c.ttlDecrement * (1 + e.tries) : Int) ≤ events * c.ttlDecrement := by
  have htries := he.tries
  constructor
  · exact Int.mul_nonneg (Int.natCast_nonneg _) (by omega)
  · rw [Int.mul_comm]
    exact Int.mul_le_mul_of_nonneg_right (by omega) (Int.natCast_nonneg _)

theorem Within.sendTime?_eq (ht : t.Within c events m) (hn : n < events) (hc : c.LeavesRoom events)
    (he : e.Within c events n) (r : ρ) : t.sendTime? e r = some (t.sendTime e r) := by
  have hroom := hc.decrement
  have hclock := ht.clock
  have htries := he.tries
  have hwindow := hc.window
  have hwait := wait_le hn he
  unfold sendTime? sendTime
  rw [decrement?_eq ht.tuning hc, decrement_eq ht.tuning hc]
  dsimp only [Option.bind_eq_bind, Option.bind_some]
  rw [i64_bind (by omega) (by omega), i64_bind (by omega) (by omega),
    i64_bind (by omega) (by omega)]
  by_cases hchance : (drawBelow (1 + e.tries) r).1 > 1
  · rw [if_pos hchance, if_pos hchance, i64_bind (by omega) (by omega),
      drawFrom?_eq _ (by omega) (by omega)]
  · rw [if_neg hchance, if_neg hchance]
    rfl

theorem Within.sendTime_timely (ht : t.Within c events m) (hn : n < events)
    (hc : c.LeavesRoom events) (he : e.Within c events n) (r : ρ) :
    c.Timely events (t.sendTime e r).1 := by
  have hclock := ht.clock
  have hroom := hc.decrement
  have hwait := wait_le hn he
  unfold sendTime
  rw [decrement_eq ht.tuning hc]
  dsimp only
  rw [Tuning.Timely]
  split
  · have hdraw := drawBelow_mem (c.ttlDecrement * (1 + e.tries)) (drawBelow (1 + e.tries) r).2
    dsimp only
    omega
  · dsimp only
    omega

theorem maxPriority_lt (average : Nat) : maxPriority average < 2 ^ 32 :=
  Nat.lt_of_le_of_lt (Nat.min_le_right _ _) (by decide)

theorem fanOut_le (q : Query) : fanOut q ≤ q.hashes.length := by
  unfold fanOut
  split <;> omega

theorem grownPriority?_eq (t : RequestTable ρ) {q : Query} {base : Int} {tries : Nat} (r : ρ)
    (hq : q.hashes.length ≤ 2 ^ 31) (hbase : 0 ≤ base ∧ base ≤ priorityBound)
    (htries : tries < 2 ^ 32) :
    t.grownPriority? q base tries r = some (t.grownPriority q base tries r) := by
  have hbound : (priorityBound : Int) = 2 ^ 24 - 1 := by decide
  have hfan := (fanOut_le q).trans hq
  have hmul : maxPriority t.average * fanOut q ≤ (2 ^ 32 - 1) * 2 ^ 31 :=
    Nat.mul_le_mul (Nat.le_pred_of_lt (maxPriority_lt t.average)) hfan
  have hlimit : (maxPriority t.average * fanOut q : Int) < 2 ^ 63 := by omega
  have hnonneg : (0 : Int) ≤ maxPriority t.average * fanOut q :=
    Int.mul_nonneg (Int.natCast_nonneg _) (Int.natCast_nonneg _)
  unfold grownPriority? grownPriority
  rw [drawFrom?_eq _ (by omega) (by omega)]
  dsimp only [Option.bind_eq_bind, Option.bind_some]
  rw [i64_bind (by omega) (by omega), i64_bind (by omega) (by omega)]
  generalize (maxPriority t.average * fanOut q : Int) = limit at *
  have hhalf : 0 ≤ limit.tdiv 2 ∧ 2 * limit.tdiv 2 ≤ limit := by
    rw [Int.tdiv_eq_ediv_of_nonneg hnonneg]
    omega
  by_cases hraised : base + (drawBelow tries r).1 > limit
  · rw [if_pos hraised, if_pos hraised, i64_quotient? hnonneg hlimit (by omega), Option.bind_some,
      i64_bind (by omega) (by omega), drawFrom?_eq _ (by omega) (by omega)]
  · rw [if_neg hraised, if_neg hraised]
    rfl

/-- The priority that a send starts from is not above the bound. -/
theorem startPriority_mem (priority : UInt32) (r : ρ) :
    0 ≤ (startPriority priority r).1 ∧ (startPriority priority r).1 ≤ priorityBound := by
  have hbound : (priorityBound : Int) = 2 ^ 24 - 1 := by decide
  unfold startPriority
  split
  · have hdraw := drawBelow_mem priorityBound r
    omega
  · dsimp only
    omega

theorem resent?_eq (htuning : t.tuning = c) (hc : c.LeavesRoom events) {held : Request}
    {base : Int} {tries : Nat} (grown : Int) (r : ρ) (hq : held.query.hashes.length ≤ 2 ^ 31)
    (hbase : 0 ≤ base ∧ base ≤ priorityBound) (htries : tries < 2 ^ 32) :
    t.resent? held grown base tries r = some (t.resent held grown base tries r) := by
  have hbound : (priorityBound : Int) = 2 ^ 24 - 1 := by decide
  have hpriority := hc.priority
  have hnonneg : 0 ≤ (base + 8) * c.ttlDecrement :=
    Int.mul_nonneg (by omega) (Int.natCast_nonneg _)
  have hle : (base + 8) * c.ttlDecrement ≤ (2 ^ 24 + 8) * c.ttlDecrement :=
    Int.mul_le_mul_of_nonneg_right (by omega) (Int.natCast_nonneg _)
  have hgrown := grownPriority?_eq t r hq hbase htries
  unfold resent? resent
  rw [decrement?_eq htuning hc, hgrown, decrement_eq htuning hc]
  generalize t.grownPriority held.query base tries r = raised
  by_cases hreplies : held.replies > 0
  · rw [if_pos hreplies, if_pos hreplies]
    rfl
  · rw [if_neg hreplies, if_neg hreplies]
    dsimp only [Option.bind_eq_bind]
    rw [i64_bind (by omega) (by omega), Option.bind_some,
      i64_bind (by omega) (by omega), Option.bind_some]
    rfl

omit [RandomSource ρ] in
theorem offer?_eq (htuning : t.tuning = c) (hlength : t.requests.length < 2 ^ 32)
    (hc : c.LeavesRoom events) (accepts : Query → Bool) (j : Nat) (e : Request) (base : Int)
    (tries : Nat) (sending : Int × Request × ρ) :
    t.offer? accepts j e base tries sending = some (t.offer accepts j e base tries sending) := by
  obtain ⟨ttl, sending, r⟩ := sending
  unfold offer? offer
  dsimp only [Option.bind_eq_bind]
  rw [u32_bind hlength, htuning, hc.triesPerWarning?, Option.bind_some,
    settle?_false, Option.bind_some]
  split <;> rfl

theorem Within.attempt?_eq (ht : t.Within c events m) (hm : m ≤ events) (hn : n < events)
    (hc : c.LeavesRoom events) (he : e.Within c events n) (accepts : Query → Bool) (j : Nat) :
    t.attempt? accepts j e = some (t.attempt accepts j e) := by
  have hwindow := hc.window
  have htries := he.tries
  have hlength := ht.length
  have hbound : (priorityBound : Int) = 2 ^ 24 - 1 := by decide
  unfold attempt?
  rw [attempt_eq, ht.grownTtl?_eq hc e]
  -- The draws are taken as they come: unfolding them would only run the random source.
  generalize t.grownTtl e = growth
  obtain ⟨⟨grown, kept⟩, r⟩ := growth
  dsimp only [Option.bind_eq_bind, Option.bind_some]
  rw [ht.sendTime?_eq hn hc he]
  generalize t.sendTime e r = send
  obtain ⟨sendAt, r⟩ := send
  dsimp only [Option.bind_some]
  generalize t.policy.permits .query e.query.wireSize = permission
  obtain ⟨permitted, policy⟩ := permission
  dsimp only
  by_cases hpermitted : permitted = true
  · have hbase := startPriority_mem e.query.priority r
    rw [if_neg (not_not.2 hpermitted), if_neg (not_not.2 hpermitted)]
    generalize startPriority e.query.priority r = start at *
    rw [u32_hold? (by omega) (by omega), Option.bind_some, u32_bind (by omega),
      resent?_eq ?_ hc _ _ ?_ hbase (by omega), Option.bind_some, offer?_eq ?_ ?_ hc]
    · exact ht.tuning
    · rw [List.length_set]
      omega
    · exact ht.tuning
    · exact he.hashes
  · rw [if_pos hpermitted, if_pos hpermitted]
    rfl

theorem Within.hasRoom?_eq (ht : t.Within c events m) (hm : m ≤ events) (hc : c.LeavesRoom events)
    {pending : Int} (hnonneg : 0 ≤ pending) (hpending : pending < 2 ^ 33) :
    t.hasRoom? pending = some (t.hasRoom pending) := by
  have hwindow := hc.window
  have hheld := ht.window
  have hlength := ht.length
  unfold hasRoom? hasRoom
  rw [Option.bind_eq_bind, i64_bind (by omega) (by omega)]
  by_cases hexcess : pending - t.window ≤ 0
  · rw [if_pos hexcess]
    exact congrArg some (if_pos hexcess).symm
  · rw [if_neg hexcess, i64_bind (by omega) (by omega)]
    refine Eq.trans ?_ (congrArg some (if_neg hexcess).symm)
    generalize boundedMul (boundedMul (boundedMul (pending - t.window) (pending - t.window))
      (pending - t.window)) t.requests.length = bound
    dsimp only
    split <;> rfl

theorem Within.retimed (ht : t.Within c events m) (hn : n < events) (hc : c.LeavesRoom events)
    (he : e.Within c events n) {e' : Request} (hretimed : t.Retimed e e') (hnm : n ≤ m)
    (htries : e'.tries ≤ m) : e'.Within c events m where
  tries := htries
  replies := hretimed.replies.trans (he.replies.trans hnm)
  lastSend last hlast := by
    obtain ⟨r, hsend⟩ := hretimed.lastSend
    obtain rfl := Option.some.inj (hsend.symm.trans hlast)
    exact ht.sendTime_timely hn hc he r
  hashes := by
    rw [hretimed.question.2.2]
    exact he.hashes

omit [RandomSource ρ] in
theorem Within.set (ht : t.Within c events m) {e' : Request} (he' : e'.Within c events m)
    (j : Nat) : { t with requests := t.requests.set j e' }.Within c events m := by
  refine ht.requests (by rw [List.length_set]; exact ht.length) fun e he => ?_
  rcases List.mem_or_eq_of_mem_set he with hold | rfl
  · exact ht.request e hold
  · exact he'

/-- An attempt keeps the table within bounds, and the other requests too. -/
theorem Within.attempt (ht : t.Within c events m) (hn : n < events) (hnm : n < m)
    (hc : c.LeavesRoom events) (he : e.Within c events n) (accepts : Query → Bool) (j : Nat) :
    (t.attempt accepts j e).table.Within c events m ∧
      ∀ i ≠ j, (∀ e', t.requests[i]? = some e' → e'.Within c events n) →
        ∀ e', (t.attempt accepts j e).table.requests[i]? = some e' → e'.Within c events n := by
  obtain ⟨held, policy, random, hheld, htries, hattempt⟩ |
    ⟨sending, undo, policy, random, count, ttl, unavailable, hsending, htries, -, hundo,
      hattempt⟩ := t.attempt_cases accepts j e
  · have hwithin := ht.retimed hn hc he hheld hnm.le (htries.le.trans (he.tries.trans hnm.le))
    rw [hattempt]
    refine ⟨{ ht.set hwithin j with }, fun i hi hold e' he' => ?_⟩
    rw [List.getElem?_set_ne (Ne.symm hi)] at he'
    exact hold e' he'
  · have hwithin := ht.retimed hn hc he hsending hnm.le (by have := he.tries; omega)
    have hsent : Within c events m { t with
        requests := t.requests.set j sending
        policy := policy
        random := random
        stats := { t.stats with pending := count, sent := count, currentTtl := ttl } } :=
      { ht.set hwithin j with }
    have htimely : ∀ last, undo.lastSend = some last → c.Timely events last := by
      rw [hundo]
      exact he.lastSend
    rw [hattempt]
    by_cases haccepts : accepts sending.query
    · simp only [haccepts, if_true]
      refine ⟨{ hsent with unresolved := ?_ }, fun i hi hold e' he' => ?_⟩
      · intro u hu
        rcases List.mem_append.1 hu with hu | hu
        · exact ht.unresolved u hu
        · rw [List.mem_singleton.1 hu]
          exact htimely
      · rw [List.getElem?_set_ne (Ne.symm hi)] at he'
        exact hold e' he'
    · -- The undone send goes by its node, so it may change a request at another position.
      simp only [haccepts, Bool.false_eq_true, if_false]
      refine ⟨hsent.revert htimely, fun i hi hold e' => reverted_within htimely fun e he => ?_⟩
      rw [List.getElem?_set_ne (Ne.symm hi)] at he
      exact hold e he

end Sends

/-! ### Passes -/

/-- The pass is within bounds, and the requests still to be visited are as small as before it. -/
structure Pass.Within (c : Tuning) (events n : Nat) (rest : List Nat) (p : Pass ρ) : Prop where
  table : p.table.Within c events (n + 1)
  request : ∀ j ∈ rest, ∀ e, p.table.requests[j]? = some e → e.Within c events n
  pending : 0 ≤ p.pending ∧ p.pending + rest.length ≤ 2 * n
  sleep : p.sleep < 2 ^ 63

section Passes

variable [RandomSource ρ] {c : Tuning} {events n : Nat} {t : RequestTable ρ} {p : Pass ρ} {j : Nat}
  {rest : List Nat}

omit [RandomSource ρ] in
theorem Pass.Within.tail (hp : p.Within c events n (j :: rest)) : p.Within c events n rest where
  table := hp.table
  request i hi := hp.request i (List.mem_cons_of_mem j hi)
  pending := by
    have hpending := hp.pending
    rw [List.length_cons] at hpending
    omega
  sleep := hp.sleep

theorem Pass.Within.visit (hp : p.Within c events n (j :: rest)) (hj : j ∉ rest) (hn : n < events)
    (hc : c.LeavesRoom events) (accepts : Nat → Query → Bool) :
    p.visit? accepts j = some (p.visit accepts j) ∧ (p.visit accepts j).Within c events n rest := by
  have hwindow := hc.window
  have hpending := hp.pending
  have hsleep := hp.sleep
  rw [List.length_cons] at hpending
  unfold Pass.visit? Pass.visit
  cases hget : p.table.requests[j]? with
  | none => exact ⟨rfl, hp.tail⟩
  | some e =>
    have he := hp.request j List.mem_cons_self e hget
    have hleast := e.query.ttl.le_toInt
    have hlargest := e.query.ttl.toInt_lt
    dsimp only
    rw [hp.table.isDue?_eq he hc, Option.bind_eq_bind, Option.bind_some]
    by_cases hdue : p.table.isDue e = true
    · rw [if_pos hdue, if_pos hdue, hp.table.hasRoom?_eq hn hc (by omega) (by omega)]
      generalize p.table.hasRoom p.pending = room
      obtain ⟨room, r⟩ := room
      dsimp only [Option.bind_eq_bind, Option.bind_some]
      have htable : { p.table with random := r }.Within c events (n + 1) := { hp.table with }
      by_cases hroom : room = true
      · obtain ⟨hattempt, hothers⟩ :=
          htable.attempt hn (Nat.lt_succ_self n) hc he (accepts p.offered) j
        rw [if_pos hroom, if_pos hroom, htable.attempt?_eq hn hn hc he, Option.bind_some,
          i64_bind (by omega) (by omega), i64_bind (by omega) (by omega)]
        refine ⟨rfl, hattempt, fun i hi => hothers i ?_ (hp.request i (List.mem_cons_of_mem j hi)),
          ?_, ?_⟩
        · rintro rfl
          exact hj hi
        · dsimp only
          omega
        · exact Int.lt_of_le_of_lt (Int.min_le_left _ _) hsleep
      · rw [if_neg hroom, if_neg hroom]
        refine ⟨rfl, { hp.tail with table := htable, sleep := ?_ }⟩
        exact Int.lt_of_le_of_lt (Int.min_le_left _ _) hsleep
    · rw [if_neg hdue, if_neg hdue, hp.table.delay?_eq he hc, Option.bind_eq_bind, Option.bind_some]
      refine ⟨rfl, { hp.tail with sleep := ?_ }⟩
      exact Int.lt_of_le_of_lt (Int.min_le_left _ _) hsleep

theorem Pass.Within.visits {order : List Nat} (hp : p.Within c events n order)
    (hnodup : order.Nodup) (hn : n < events) (hc : c.LeavesRoom events)
    (accepts : Nat → Query → Bool) :
    order.foldlM (Pass.visit? accepts) p = some (order.foldl (Pass.visit accepts) p) ∧
      (order.foldl (Pass.visit accepts) p).Within c events n [] := by
  induction order generalizing p with
  | nil => exact ⟨rfl, hp⟩
  | cons j order ih =>
    obtain ⟨hj, hrest⟩ := List.nodup_cons.1 hnodup
    obtain ⟨hvisit, hwithin⟩ := hp.visit hj hn hc accepts
    rw [List.foldlM_cons, List.foldl_cons, hvisit]
    exact ih hwithin hrest

theorem mapM_eq_some {α β : Type} {f : α → Option β} {g : α → β} {as : List α}
    (h : ∀ a ∈ as, f a = some (g a)) : as.mapM f = some (as.map g) := by
  induction as with
  | nil => rfl
  | cons a as ih =>
    rw [List.forall_mem_cons] at h
    rw [List.mapM_cons, h.1, ih h.2]
    rfl

theorem Within.opened (ht : t.Within c events n) (hc : c.LeavesRoom events) :
    t.opened.2.Within c events n t.opened.1 := by
  have hperm := RandomSource.shuffle_perm t.requests.length t.random
  have hsleep := hc.maxSleep
  have hmore := ht.mono (Nat.le_add_right n 1)
  refine ⟨{ hmore with }, fun j _ e he => ht.request e (List.mem_of_getElem? he), ?_, ?_⟩
  · have hcount := List.countP_le_length (p := t.inFlight) (l := t.requests)
    have hlength := ht.length
    have horder := hperm.length_eq
    rw [List.length_range] at horder
    dsimp only [RequestTable.opened]
    omega
  · dsimp only [RequestTable.opened]
    rw [ht.tuning, signed64_of_lt hsleep]
    omega

theorem Within.opened?_eq (ht : t.Within c events n) (hn : n < events) (hc : c.LeavesRoom events) :
    t.opened? = some t.opened := by
  have hlength := ht.length
  have hwindow := hc.window
  have hsleep := hc.maxSleep
  have hcount := List.countP_le_length (p := t.inFlight) (l := t.requests)
  have hflying : t.requests.mapM t.inFlight? = some (t.requests.map t.inFlight) :=
    mapM_eq_some fun e he => inFlight?_eq t (ht.request e he) hc
  unfold opened? RequestTable.opened
  dsimp only [Option.bind_eq_bind]
  rw [decrement?_eq ht.tuning hc, Option.bind_some, i64_bind (by omega) (by omega), hflying,
    Option.bind_some, ht.tuning, signed64_of_lt hsleep]
  generalize RandomSource.shuffle t.requests.length t.random = shuffled
  obtain ⟨order, r⟩ := shuffled
  have htrue : (t.requests.map t.inFlight).count true = t.requests.countP t.inFlight := by
    rw [List.count, List.countP_map]
    refine List.countP_congr fun e _ => ?_
    simp
  rw [htrue, i64_bind (by omega) (by omega), i64_bind (by omega) (by omega)]
  rfl

/-- A pass does not run over, and it keeps the table within bounds. -/
theorem Within.schedule (ht : t.Within c events n) (hn : n < events) (hc : c.LeavesRoom events)
    (accepts : Nat → Query → Bool) :
    t.schedule? accepts = some (t.schedule accepts) ∧
      (t.schedule accepts).2.Within c events (n + 1) := by
  have hmore := ht.mono (Nat.le_add_right n 1)
  by_cases hempty : t.requests = []
  · rw [schedule_of_nil accepts hempty, schedule?, if_pos (by simp [hempty])]
    exact ⟨rfl, { hmore with }⟩
  · have hnodup : t.opened.1.Nodup :=
      (RandomSource.shuffle_perm t.requests.length t.random).nodup_iff.2 List.nodup_range
    obtain ⟨hvisits, hwithin⟩ := (ht.opened hc).visits hnodup hn hc accepts
    have hsleep := hwithin.sleep
    have hminSleep := hc.minSleep
    have hopened := ht.opened?_eq hn hc
    rw [schedule_of_ne_nil accepts hempty, schedule?, if_neg (by simpa using hempty), hopened]
    refine ⟨?_, hwithin.table⟩
    generalize t.opened = opened at *
    obtain ⟨order, start⟩ := opened
    dsimp only [Option.bind_eq_bind, Option.bind_some] at *
    rw [hvisits, Option.bind_some, ht.tuning, signed64_of_lt hminSleep,
      i64_bind (by omega) (by omega), u64_hold? (by omega) (by omega),
      Option.bind_some, unsigned64_of_nonneg (by omega) (by omega)]
    rfl

end Passes

/-! ### Events -/

/-- Clocks stay below 2^53, and the hashes of a query are as many as memory can hold. -/
def Event.Moderate : Event → Prop
  | .upkeep (.tick now) => 0 ≤ now ∧ now < 2 ^ 53
  | .upkeep (.call (.request _ _ query)) => query.hashes.length ≤ 2 ^ 31
  | .upkeep (.call (.update _ (some query))) => query.hashes.length ≤ 2 ^ 31
  | _ => True

section Events

variable {c : Tuning} {events n : Nat} {t : RequestTable ρ}

/-- Continuations are blanked and their times stay. -/
theorem Within.blanked (ht : t.Within c events n) (blank : Unresolved → Unresolved)
    (hblank : ∀ u, (blank u).lastSend = u.lastSend) :
    ∀ u ∈ t.unresolved.map blank, ∀ last, u.lastSend = some last → c.Timely events last := by
  rw [List.forall_mem_map]
  intro u hu last hlast
  exact ht.unresolved u hu last (hblank u ▸ hlast)

theorem Within.remove (ht : t.Within c events n) (node : NodeId) :
    (t.remove node).Within c events n := by
  unfold RequestTable.remove
  split
  · rename_i j _
    unfold removeAt
    split
    · exact ht
    · rename_i e he
      have hperm := perm_swapRemove he
      have hlength := hperm.length_eq
      rw [List.length_cons] at hlength
      have hheld := ht.length
      refine { ht with length := ?_, request := ?_, unresolved := ?_, currentRetries := ?_ }
      · dsimp only
        omega
      · exact fun e' he' => ht.request e' (hperm.mem_iff.2 (List.mem_cons_of_mem e he'))
      · refine ht.blanked _ fun u => ?_
        split <;> rfl
      · exact (Nat.sub_le _ _).trans ht.currentRetries
  · exact ht

theorem Within.settle (ht : t.Within c events n) {u : Unresolved}
    (hu : ∀ last, u.lastSend = some last → c.Timely events last) (ok : Bool) :
    (t.settle u ok).Within c events (n + 1) := by
  cases ok with
  | false => exact (ht.revert hu).mono (Nat.le_add_right n 1)
  | true =>
    have hcool := ht.cool
    have hmore := hcool.mono (Nat.le_add_right n 1)
    unfold RequestTable.settle
    split
    · exact ht.mono (Nat.le_add_right n 1)
    · simp only [if_true]
      split
      · exact { hmore with
          totalRetries := Nat.succ_le_succ hcool.totalRetries
          currentRetries := Nat.succ_le_succ hcool.currentRetries }
      · exact ht.mono (Nat.le_add_right n 1)

theorem Within.settleOldest (ht : t.Within c events n) (hn : n < events) (hc : c.LeavesRoom events)
    (ok : Bool) : t.settleOldest? ok = some (t.settleOldest ok) ∧
      (t.settleOldest ok).Within c events (n + 1) := by
  unfold settleOldest? RequestTable.settleOldest
  cases hunresolved : t.unresolved with
  | nil => exact ⟨rfl, ht.mono (Nat.le_add_right n 1)⟩
  | cons u us =>
    have hall := ht.unresolved
    rw [hunresolved, List.forall_mem_cons] at hall
    have hrest : { t with unresolved := us }.Within c events n := { ht with unresolved := hall.2 }
    exact ⟨hrest.settle?_eq hn hc u ok, hrest.settle hall.1 ok⟩

theorem Within.matchReply (ht : t.Within c events n) (hc : c.LeavesRoom events) (s : Suite)
    (reply : Block) : (t.matchReply s reply).2.Within c events (n + 1) := by
  have hmore := ht.mono (Nat.le_add_right n 1)
  unfold RequestTable.matchReply
  dsimp only
  split
  · exact ht.duplicate.cool
  · rename_i e hfind
    have he := ht.request e (List.mem_reverse.1 (List.mem_of_find?_eq_some hfind))
    split
    · exact hmore
    · rename_i last hlast
      have htimely := he.lastSend last (Option.filter_eq_some_iff.1 hlast).1
      have hestimate := (ht.nextEstimate?_eq hc e.query.ttl htimely).2
      have hwindow := ht.window
      generalize t.nextEstimate e.query.ttl.toInt last = estimate at *
      refine { hmore with window := ?_, estimate := hestimate }
      dsimp only
      split <;> omega

theorem Within.call (ht : t.Within c events n) (hc : c.LeavesRoom events) {call : SchedulerCall}
    (hcall : Event.Moderate (.upkeep (.call call))) : (t.call call).Within c events (n + 1) := by
  have hmore := ht.mono (Nat.le_add_right n 1)
  cases call with
  | request node handler query =>
    refine { hmore with length := ?_, request := ?_ }
    · change (t.requests ++ [_]).length ≤ n + 1
      rw [List.length_append, List.length_singleton]
      exact Nat.succ_le_succ ht.length
    · intro e he
      rcases List.mem_append.1 he with he | he
      · exact hmore.request e he
      · rw [List.mem_singleton.1 he]
        exact ⟨Nat.zero_le _, Nat.zero_le _, fun last hlast => (by cases hlast), hcall⟩
  | update node query =>
    cases query with
    | none => exact hmore.remove node
    | some query =>
      refine hmore.requests (length_modifyFirst.le.trans hmore.length) fun e' he' => ?_
      obtain ⟨i, hi⟩ := List.mem_iff_getElem?.1 he'
      obtain ⟨e, he, rfl | rfl⟩ := getElem?_modifyFirst hi
      · exact hmore.request e' (List.mem_of_getElem? he)
      · have hold := ht.request e (List.mem_of_getElem? he)
        refine ⟨hold.tries.trans (Nat.le_succ n), Nat.succ_le_succ hold.replies, ?_, hcall⟩
        rintro last hlast
        obtain rfl := Option.some.inj hlast
        have hclock := ht.clock
        have hroom := hc.decrement
        rw [decrement_eq ht.tuning hc, Tuning.Timely]
        omega
  | endgame =>
    refine hmore.requests (by rw [List.length_map]; exact hmore.length) ?_
    rw [List.forall_mem_map]
    exact fun e he => { hmore.request e he with }
  | release node => exact hmore.remove node

variable [RandomSource ρ]

/-- No event runs over, and each lets what the table counts grow by a few at most. -/
theorem Within.handle (ht : t.Within c events n) (hn : n < events) (hc : c.LeavesRoom events)
    {e : Event} (he : e.Moderate) :
    t.handle? e = some (t.handle e) ∧ (t.handle e).Within c events (n + 1) := by
  have hmore := ht.mono (Nat.le_add_right n 1)
  cases e with
  | upkeep u =>
    cases u with
    | call call =>
      refine ⟨?_, ht.call hc he⟩
      cases call with
      | update node query =>
        cases query with
        | none => rfl
        | some query => exact ht.replace?_eq hn hc node query
      | request node handler query => rfl
      | endgame => rfl
      | release node => rfl
    | tick now => exact ⟨rfl, { hmore with clock := he }⟩
    | observe average => exact ⟨rfl, { hmore with }⟩
    | record kind bytes peers => exact ⟨rfl, { hmore with }⟩
    | reply s block => exact ⟨ht.matchReply?_eq hn hc s block, ht.matchReply hc s block⟩
    | abort =>
      refine ⟨rfl, { hmore with length := Nat.zero_le _, request := ?_, unresolved := ?_ }⟩
      · rintro e he
        cases he
      · exact hmore.blanked _ fun _ => rfl
  | pass accepts =>
    obtain ⟨hschedule, hwithin⟩ := ht.schedule hn hc accepts
    exact ⟨congrArg (Option.map Prod.snd) hschedule, hwithin⟩
  | returnValue value => exact ht.settleOldest hn hc _
  | sendFailed => exact ht.settleOldest hn hc false

theorem Within.run {past : List Event} (ht : t.Within c events n) (hn : n + past.length ≤ events)
    (hc : c.LeavesRoom events) (hpast : ∀ e ∈ past, e.Moderate) :
    past.foldlM handle? t = some (past.foldl RequestTable.handle t) := by
  induction past generalizing t n with
  | nil => rfl
  | cons e past ih =>
    rw [List.length_cons] at hn
    rw [List.forall_mem_cons] at hpast
    obtain ⟨hhandle, hwithin⟩ := ht.handle (by omega) hc hpast.1
    rw [List.foldlM_cons, List.foldl_cons, hhandle]
    exact ih hwithin (by omega) hpast.2

omit [RandomSource ρ] in
theorem within_new (c : Tuning) (events : Nat) (random : ρ) (policy : Policy) (average : Nat) :
    (RequestTable.new c random policy average).Within c events 0 where
  tuning := rfl
  clock := ⟨Int.le_refl 0, (by decide : (0 : Int) < 2 ^ 53)⟩
  length := Nat.le_refl 0
  request e he := by cases he
  unresolved u hu := by cases hu
  window := Nat.le_max_left _ _
  estimate := Nat.le_max_left _ _
  congestion last hlast := by cases hlast
  duplicates := Nat.le_refl 0
  totalRetries := Nat.le_refl 0
  currentRetries := Nat.le_refl 0

/-- Settings that leave room for the events of a run let nothing run over in it, change no number in
a cast and divide by nothing that is zero: the run is the same in machine numbers. -/
theorem run_in_machine_numbers (s : SchedulerSettings) (random : ρ) (policy : Policy)
    (average : Nat) (events : List Event) (hroom : (Tuning.ofSettings s).LeavesRoom events.length)
    (hevents : ∀ e ∈ events, e.Moderate) :
    let t := RequestTable.new (Tuning.ofSettings s) random policy average
    events.foldlM handle? t = some (events.foldl RequestTable.handle t) :=
  (within_new (Tuning.ofSettings s) events.length random policy average).run
    (Nat.zero_add _).le hroom hevents

end Events

/-- A request is sent twice and answered. -/
def answeredRun : List Event :=
  [.upkeep (.call (.request 0 .own (.new [zeroDigest]))), .pass fun _ _ => true,
    .upkeep (.tick 20000), .pass fun _ _ => true, .returnValue returnOk, .returnValue returnOk,
    .upkeep (.call (.update 0 none))]

theorem answeredRun_in_machine_numbers :
    let t := RequestTable.new Tuning.default () .open 0
    Tuning.default.LeavesRoom answeredRun.length ∧ (∀ e ∈ answeredRun, e.Moderate) ∧
      answeredRun.foldlM handle? t = some (answeredRun.foldl RequestTable.handle t) := by
  have hroom : Tuning.default.LeavesRoom answeredRun.length := Tuning.default_leavesRoom (by decide)
  have hmoderate : ∀ e ∈ answeredRun, e.Moderate := by
    simp [answeredRun, Event.Moderate, Query.new]
  exact ⟨hroom, hmoderate,
    run_in_machine_numbers SchedulerSettings.default () .open 0 answeredRun hroom hmoderate⟩

/-- The largest factor that a file of settings can have makes the cap saturate at the largest number
of 64 bits without sign, which is minus one with a sign. -/
theorem cap_runs_over :
    let s : SchedulerSettings :=
      { SchedulerSettings.default with maxTtlFactor := 9223372036854775807 }
    let events : List Event :=
      [.upkeep (.call (.request 0 .own (.new [zeroDigest]))), .pass fun _ _ => true]
    (Settings.parse? "[scheduler]\nmax_ttl_factor = 9223372036854775807").map (·.scheduler) =
        some s ∧
      (∀ e ∈ events, e.Moderate) ∧ signed64 (Tuning.ofSettings s).maxTtl = -1 ∧
      (events.foldlM handle? (RequestTable.new (Tuning.ofSettings s) () .open 0)).isNone := by
  refine ⟨by decide +kernel, ?_, by decide, by decide⟩
  simp [Event.Moderate, Query.new]

end RequestTable

end ContentTree

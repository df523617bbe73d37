import ContentTree.Proofs.Requests.Attempts
import ContentTree.Proofs.Requests.Operations
import ContentTree.Proofs.Requests.TimeToLive
import ContentTree.Proofs.Requests.Undoing

/-!
# How long to sleep after a pass

A pass waits no longer than any request that it left alone needs until it is due. For one that it
attempted it waits the time to live of before the attempt. If the sender refuses the query the
request is due at once, and the next pass comes late unless it comes after the least sleep.

Times and what is added to them are integers. In a run of moderate events (`Event.Moderate`) that the
settings leave room for (`Tuning.LeavesRoom`) no sum is too large for 64 bits, and a pass in machine
numbers sleeps as long.
-/

namespace ContentTree

theorem le_foldl_min {a x : Int} {l : List Int} : x ≤ l.foldl min a ↔ x ≤ a ∧ ∀ b ∈ l, x ≤ b :=
  (List.le_min?_iff List.min?_cons').trans List.forall_mem_cons

namespace RequestTable

/-- Milliseconds until the request is due. -/
def untilDue {ρ : Type} (t : RequestTable ρ) (e : Request) : Int :=
  match e.expires with
  | none => 0
  | some expiry => expiry + t.decrement - t.now

/-- No request is due before the delay is over, or only the least sleep keeps it waiting. -/
def OnTime {ρ : Type} (t : RequestTable ρ) (delay : Nat) : Prop :=
  ∀ e ∈ t.requests, delay ≤ max (t.tuning.minSleep : Int) (t.untilDue e)

instance {ρ : Type} (t : RequestTable ρ) (delay : Nat) : Decidable (t.OnTime delay) :=
  inferInstanceAs (Decidable (∀ e ∈ t.requests, _))

/-- Milliseconds that a visit lets the pass sleep. -/
def sleepAfter {ρ : Type} (t : RequestTable ρ) (v : Visit) : Int :=
  if v.attempted then v.request.query.ttl.toInt + 10 else max (t.untilDue v.request) 0

/-! ### The delay -/

section Delay

variable {ρ : Type} [RandomSource ρ] {t t' : RequestTable ρ} {p : Pass ρ} {j : Nat} {e : Request}

omit [RandomSource ρ] in
theorem untilDue_le_iff : t.untilDue e ≤ 0 ↔ t.Due e := by
  unfold untilDue Due Request.expires
  cases e.lastSend with
  | none => simp
  | some last =>
    simp only [Option.map_some, Option.some.injEq, forall_eq']
    omega

omit [RandomSource ρ] in
theorem Alike.untilDue (h : t.Alike t') (e : Request) : t'.untilDue e = t.untilDue e := by
  unfold RequestTable.untilDue
  rw [h.now, h.decrement]

theorem sleep_visit (accepts : Nat → Query → Bool) (he : p.table.requests[j]? = some e) :
    (p.visit accepts j).sleep =
      min p.sleep (p.table.sleepAfter ⟨e, p.outcome accepts j e⟩) := by
  have hwait := (untilDue_le_iff (t := p.table) (e := e)).trans isDue_iff.symm
  unfold sleepAfter
  simp only [attempted_outcome]
  unfold Pass.visit
  rw [he]
  dsimp only
  by_cases hdue : p.table.isDue e = true
  · by_cases hroom : (p.table.hasRoom p.pending).1 = true
    · simp [hdue, hroom]
    · simp [hdue, hroom, hwait.2 hdue]
  · have hlater : 0 < p.table.untilDue e := Int.not_le.1 fun hle => hdue (hwait.1 hle)
    simp only [hdue, false_and, if_false, Bool.false_eq_true]
    rw [max_eq_left hlater.le]
    rfl

theorem sleep_visits (accepts : Nat → Query → Bool) (order : List Nat) (p : Pass ρ)
    (halike : t.Alike p.table) :
    (order.foldl (Pass.visit accepts) p).sleep =
      ((visitsOf accepts p order).map t.sleepAfter).foldl min p.sleep := by
  induction order generalizing p with
  | nil => rfl
  | cons j order ih =>
    rw [List.foldl_cons, visitsOf]
    cases he : p.table.requests[j]? with
    | none =>
      rw [visit_of_none accepts he]
      exact ih p halike
    | some e =>
      have hsame : p.table.sleepAfter = t.sleepAfter := by
        funext v
        unfold sleepAfter
        rw [halike.untilDue]
      rw [ih _ (halike.trans (becomes_visit accepts p he).alike), sleep_visit accepts he, hsame]
      rfl

theorem next_schedule (accepts : Nat → Query → Bool) (hne : t.requests ≠ []) :
    (t.schedule accepts).1.next = some (unsigned64 (max
      (((t.visits accepts).map t.sleepAfter).foldl min (signed64 t.tuning.maxSleep))
      (signed64 t.tuning.minSleep))) := by
  have hsleep := sleep_visits (t := t) accepts t.opened.1 t.opened.2 ⟨rfl, rfl, rfl, rfl⟩
  have hstart : t.opened.2.sleep = signed64 t.tuning.maxSleep := by
    unfold opened
    generalize signed64 t.tuning.maxSleep = limit
    rfl
  rw [schedule_of_ne_nil accepts hne]
  dsimp only
  rw [hsleep, hstart, visits]

/-- Whatever the sign of the limits is when they are read as signed numbers, the delay is between
them. -/
theorem unsigned64_max_mem {low high : Nat} {delay : Int} (hle : low ≤ high)
    (hhigh : high < UInt64.size) (hdelay : delay ≤ signed64 high) :
    low ≤ unsigned64 (max delay (signed64 low)) ∧
      unsigned64 (max delay (signed64 low)) ≤ high := by
  have hsize : UInt64.size = 2 ^ 64 := by decide
  unfold unsigned64
  unfold signed64 at hdelay ⊢
  rw [Int.bmod_def] at hdelay ⊢
  simp only [hsize] at hhigh hdelay ⊢
  omega

theorem visit_of_after (accepts : Nat → Query → Bool) (hnodup : t.nodes.Nodup) {e' : Request}
    (he' : e' ∈ (t.schedule accepts).2.requests) :
    ∃ v ∈ t.visits accepts, ∃ us,
      t.Changes ⟨v.request, t.awaiting v.request.node⟩ (.visited v) ⟨e', us⟩ := by
  have hnode : e'.node ∈ t.nodes := by
    rw [← nodes_schedule accepts]
    exact List.mem_map_of_mem he'
  obtain ⟨e, he, hsame⟩ := List.mem_map.1 hnode
  obtain ⟨v, hv, rfl⟩ := exists_visit accepts hnodup he
  obtain ⟨s', hchanges, hcarries⟩ := changes_of_visit accepts hnodup hv
  have hnodup' : (t.schedule accepts).2.nodes.Nodup := by rwa [nodes_schedule]
  have heq : s'.request = e' :=
    List.inj_on_of_nodup_map hnodup' hcarries.mem he' (hchanges.node.trans hsame)
  exact ⟨v, hv, s'.awaiting, heq ▸ hchanges⟩

end Delay

/-! ### After the visits -/

section After

variable {ρ : Type} [RandomSource ρ] {t : RequestTable ρ} {e e' : Request} {base : Nat}
  {grown : Int} {kept : Int32}

theorem Grows.kept_nonneg (h : t.Grows e grown kept) (hcap : t.tuning.maxTtl < 2 ^ 31)
    (hdecrement : 0 ≤ t.decrement) (httl : 0 ≤ e.query.ttl.toInt) : 0 ≤ kept.toInt := by
  obtain ⟨r, hgrown⟩ := h
  have hsigned : signed64 t.tuning.maxTtl = t.tuning.maxTtl := signed64_of_lt (by omega)
  have hgrowth := growth_grownTtl (t := { t with random := r }) rfl hsigned rfl
    (Int.natCast_nonneg _) (by omega) hdecrement httl
  rw [hgrown] at hgrowth
  dsimp only at hgrowth
  cases hgrowth with
  | first | capped | slow | fast => omega

theorem Sends.ttl_nonneg (h : t.Sends e e' base) (hcap : t.tuning.maxTtl < 2 ^ 31)
    (hdecrement : 0 ≤ t.decrement) (httl : 0 ≤ e.query.ttl.toInt) : 0 ≤ e'.query.ttl.toInt := by
  obtain ⟨grown, kept, hgrows, hkept⟩ := h.ttl
  split at hkept
  · rw [hkept]
    exact hgrows.kept_nonneg hcap hdecrement httl
  · rw [hkept]
    unfold clampTo
    exact le_max_left _ _

omit [RandomSource ρ] in
theorem untilDue_of_late {bound : Int} (h : Late bound e) (httl : 0 ≤ e.query.ttl.toInt) :
    bound + t.decrement - t.now ≤ t.untilDue e := by
  obtain ⟨last, hlast, hle⟩ := h
  unfold untilDue Request.expires
  rw [hlast]
  dsimp only [Option.map_some]
  omega

/-- What a pass makes of an attempted request is due three decrements later at the earliest, if the
sender did not refuse the query. -/
theorem Changes.untilDue {v : Visit} {us us' : List Unresolved}
    (h : t.Changes ⟨v.request, us⟩ (.visited v) ⟨e', us'⟩) (hattempted : v.attempted = true)
    (hrefused : ∀ query, v.outcome ≠ .offered query false) (hcap : t.tuning.maxTtl < 2 ^ 31)
    (hdecrement : 0 ≤ t.decrement) (httl : 0 ≤ v.request.query.ttl.toInt) : 3 * t.decrement ≤ t.untilDue e' := by
  have hlater : ∀ d : Request, Late (t.now + 2 * t.decrement) d → 0 ≤ d.query.ttl.toInt →
      3 * t.decrement ≤ t.untilDue d := by
    intro d hlate hnonneg
    have hle := untilDue_of_late (t := t) hlate hnonneg
    omega
  obtain ⟨e, o⟩ := v
  cases h with
  | left => cases hattempted
  | vetoed hdelays =>
    obtain ⟨⟨r, hlast⟩, grown, kept, hgrows, heq⟩ := hdelays
    refine hlater e' ⟨_, hlast, t.le_sendTime e r⟩ ?_
    rw [heq]
    exact hgrows.kept_nonneg hcap hdecrement httl
  | accepted hsends => exact hlater e' (hsends.late le_rfl) (hsends.ttl_nonneg hcap hdecrement httl)
  | refused hsends => exact absurd rfl (hrefused _)

/-- A request whose query is refused is due as it was before. -/
theorem Changes.untilDue_of_refused {query : Query} {us us' : List Unresolved}
    (h : t.Changes ⟨e, us⟩ (.visited ⟨e, .offered query false⟩) ⟨e', us'⟩) :
    t.untilDue e' = t.untilDue e := by
  cases h with
  | refused hsends =>
    rw [hsends.reverted]
    rfl

end After

/-! ### The pass -/

section Pass

variable {ρ : Type} [RandomSource ρ] {t : RequestTable ρ} {accepts : Nat → Query → Bool}
  {delay : Nat}

/-- A pass that sleeps too long does so because of a request that it attempted. -/
theorem onTime_iff (hnodup : t.nodes.Nodup) (hleast : t.tuning.minSleep ≤ delay)
    (hdelay : ∀ v ∈ t.visits accepts, delay ≤ max (t.tuning.minSleep : Int) (t.sleepAfter v)) :
    let t' := (t.schedule accepts).2
    t'.OnTime delay ↔ delay = t.tuning.minSleep ∨
      ∀ v ∈ t.visits accepts, v.attempted = true → ∀ e ∈ t'.requests,
        e.node = v.request.node → delay ≤ t'.untilDue e := by
  intro t'
  have halike : t.Alike t' := alike_schedule accepts t
  have htuning : t'.tuning = t.tuning := halike.tuning
  unfold OnTime
  rw [htuning]
  constructor
  · intro hontime
    refine or_iff_not_imp_left.2 fun hlate v _ _ e he _ => ?_
    have hle := hontime e he
    omega
  · rintro (hle | hattempts) e' he'
    · omega
    · obtain ⟨v, hv, us, hchanges⟩ := visit_of_after accepts hnodup he'
      by_cases hattempted : v.attempted = true
      · exact (hattempts v hv hattempted e' he' hchanges.node).trans (le_max_right _ _)
      · have hle := hdelay v hv
        unfold sleepAfter at hle
        rw [if_neg hattempted] at hle
        obtain ⟨e, o⟩ := v
        obtain rfl : o = .left := by simpa [Visit.attempted] using hattempted
        cases hchanges
        rw [halike.untilDue]
        omega

/-- If the delay is three decrements at most, the pass sleeps too long because of a request whose
query was refused. -/
theorem onTime_iff_not_refused (hnodup : t.nodes.Nodup) (hleast : t.tuning.minSleep ≤ delay)
    (hdelay : ∀ v ∈ t.visits accepts, delay ≤ max (t.tuning.minSleep : Int) (t.sleepAfter v))
    (hshort : delay ≤ 3 * t.decrement) (hcap : t.tuning.maxTtl < 2 ^ 31)
    (httl : ∀ e ∈ t.requests, 0 ≤ e.query.ttl.toInt) :
    (t.schedule accepts).2.OnTime delay ↔ delay = t.tuning.minSleep ∨
      ∀ v ∈ t.visits accepts, ∀ query, v.outcome ≠ .offered query false := by
  have halike : t.Alike (t.schedule accepts).2 := alike_schedule accepts t
  refine (onTime_iff hnodup hleast hdelay).trans ⟨?_, ?_⟩
  · rintro (hle | hattempts)
    · exact .inl hle
    refine or_iff_not_imp_left.2 fun hlate v hv query hrefused => hlate ?_
    obtain ⟨s', hchanges, hcarries⟩ := changes_of_visit accepts hnodup hv
    have hattempted : v.attempted = true := by
      unfold Visit.attempted
      rw [hrefused]
      rfl
    have hle := hattempts v hv hattempted s'.request hcarries.mem hchanges.node
    have hdue := untilDue_le_iff.2 (isDue_iff.1 (due_of_attempted accepts t v hv hattempted))
    obtain ⟨e, o⟩ := v
    obtain rfl : o = .offered query false := hrefused
    rw [halike.untilDue, hchanges.untilDue_of_refused] at hle
    dsimp only at hdue hle
    omega
  · rintro (hle | hnone)
    · exact .inl hle
    refine .inr fun v hv hattempted e' he' hnode => ?_
    obtain ⟨w, hw, us, hchanges⟩ := visit_of_after accepts hnodup he'
    obtain rfl : w = v := List.inj_on_of_nodup_map (nodup_visits accepts hnodup) hw hv
      (hchanges.node.symm.trans hnode)
    have hmem : w.request ∈ t.requests :=
      (perm_visits accepts hnodup).mem_iff.1 (List.mem_map_of_mem hw)
    rw [halike.untilDue]
    exact hshort.trans
      (hchanges.untilDue hattempted (hnone w hw) hcap (by omega) (httl _ hmem))

/-- The delay until the next pass is within its limits. It is short enough for every request that
the pass did not attempt, and if the limit is three decrements at most then it is short enough for
all requests just if it is the least sleep or the sender refused no query. -/
theorem delay_of_pass (accepts : Nat → Query → Bool) (t : RequestTable ρ) (hne : t.requests ≠ [])
    (hlimits : t.tuning.minSleep ≤ t.tuning.maxSleep) (hsize : t.tuning.maxSleep < UInt64.size) :
    let visits := t.visits accepts
    let t' := (t.schedule accepts).2
    ∃ delay, (t.schedule accepts).1.next = some delay ∧
      t.tuning.minSleep ≤ delay ∧ delay ≤ t.tuning.maxSleep ∧
      (t.nodes.Nodup → t.tuning.maxSleep < 2 ^ 63 →
        (t'.OnTime delay ↔ delay = t.tuning.minSleep ∨
          ∀ v ∈ visits, v.attempted = true → ∀ e ∈ t'.requests,
            e.node = v.request.node → delay ≤ t'.untilDue e) ∧
        (t.tuning.maxSleep ≤ 3 * t.decrement → t.tuning.maxTtl < 2 ^ 31 →
          (∀ e ∈ t.requests, 0 ≤ e.query.ttl.toInt) →
            (t'.OnTime delay ↔ delay = t.tuning.minSleep ∨
              ∀ v ∈ visits, ∀ query, v.outcome ≠ .offered query false))) := by
  intro visits t'
  have hle := (le_foldl_min (l := visits.map t.sleepAfter) (a := signed64 t.tuning.maxSleep)).1
    le_rfl
  have hnext := next_schedule accepts hne
  generalize (visits.map t.sleepAfter).foldl min (signed64 t.tuning.maxSleep) = sleep at hle hnext
  obtain ⟨hlimit, hvisits⟩ := hle
  obtain ⟨hleast, hmost⟩ := unsigned64_max_mem hlimits hsize hlimit
  refine ⟨_, hnext, hleast, hmost, fun hnodup hsmall => ?_⟩
  have hdelay : (unsigned64 (max sleep (signed64 t.tuning.minSleep)) : Int) =
      max sleep t.tuning.minSleep := by
    rw [signed64_of_lt (by omega)] at hlimit ⊢
    rw [unsigned64_of_nonneg (by omega) (by omega)]
    omega
  generalize unsigned64 (max sleep (signed64 t.tuning.minSleep)) = delay at hleast hmost hdelay ⊢
  have hshort : ∀ v ∈ visits, delay ≤ max (t.tuning.minSleep : Int) (t.sleepAfter v) := by
    intro v hv
    have hsleep := hvisits _ (List.mem_map_of_mem hv)
    omega
  exact ⟨onTime_iff hnodup hleast hshort, fun hdecrement hcap httl =>
    onTime_iff_not_refused hnodup hleast hshort (by omega) hcap httl⟩

/-- A request that is due again 20 seconds after its first send. -/
theorem delay_of_pass_due_again :
    let ops : List Operation :=
      [.event (.upkeep (.call (.request 0 .own (.new [zeroDigest])))),
        .event (.pass fun _ _ => true), .event (.returnValue returnOk),
        .event (.upkeep (.tick 20000))]
    let t := (new Tuning.default () .open 0).after ops
    ∃ delay, (t.schedule fun _ _ => true).1.next = some delay ∧ 100 ≤ delay ∧ delay ≤ 5000 ∧
      (t.schedule fun _ _ => true).2.OnTime delay := by
  intro ops t
  have hne : t.requests ≠ [] := by decide
  have hnodup : t.nodes.Nodup := by decide
  have httl : ∀ e ∈ t.requests, 0 ≤ e.query.ttl.toInt := by decide
  have hsent : ∀ v ∈ t.visits fun _ _ => true, v.outcome.sent? ≠ none := by decide +kernel
  obtain ⟨delay, hnext, hleast, hmost, hontime⟩ :=
    delay_of_pass (fun _ _ => true) t hne (by decide) (by decide)
  obtain ⟨-, hrefused⟩ := hontime hnodup (by decide)
  refine ⟨delay, hnext, hleast, hmost, (hrefused (by decide) (by decide) httl).2 (.inr ?_)⟩
  intro v hv query hoffered
  refine hsent v hv ?_
  rw [hoffered]
  rfl

/-- The sender refuses the query of a request that is due again. The request stays due, and the next
pass comes after five seconds. -/
theorem late_after_refusal :
    let ops : List Operation :=
      [.event (.upkeep (.call (.request 0 .own (.new [zeroDigest])))),
        .event (.pass fun _ _ => true), .event (.returnValue returnOk),
        .event (.upkeep (.tick 20000))]
    let t := (new Tuning.default () .open 0).after ops
    let pass := t.schedule fun _ _ => false
    t.tuning.minSleep = 100 ∧ t.tuning.maxSleep = 5000 ∧ pass.1.next = some 5000 ∧
      pass.2.requests.map pass.2.isDue = [true] ∧ ¬ pass.2.OnTime 5000 := by
  decide +kernel

end Pass

end RequestTable

end ContentTree

import ContentTree.Proofs.Requests.Headroom

/-!
# What a pass makes of each request

A pass visits each request once, in random order, as it was before the pass. A request that is not
due is left alone, and so is one that the window has no room for. Any other counts as sent from a
new time on, and then the policy holds its query back, or the query is handed to the sender, which
accepts it or not.
-/

namespace ContentTree

namespace RequestTable

inductive Outcome
  /-- Not due, or no room in the window. -/
  | left
  /-- The policy holds the query back. -/
  | vetoed
  /-- The query is handed to the sender. -/
  | offered (query : Query) (accepted : Bool)
  deriving DecidableEq

namespace Outcome

def offered? : Outcome → Option Query
  | .offered query _ => some query
  | _ => none

def sent? : Outcome → Option Query
  | .offered query true => some query
  | _ => none

end Outcome

/-- A request as a visit finds it, and what becomes of it. -/
structure Visit where
  request : Request
  outcome : Outcome
  deriving DecidableEq

variable {ρ : Type} [RandomSource ρ]

def Attempt.outcome (a : Attempt ρ) : Outcome :=
  match a.offered with
  | none => .vetoed
  | some query => .offered query a.accepted

def Pass.outcome (accepts : Nat → Query → Bool) (p : Pass ρ) (j : Nat) (e : Request) : Outcome :=
  let (room, r) := p.table.hasRoom p.pending
  if p.table.isDue e ∧ room then
    (attempt (accepts p.offered) { p.table with random := r } j e).outcome
  else .left

def visitsOf (accepts : Nat → Query → Bool) : Pass ρ → List Nat → List Visit
  | _, [] => []
  | p, j :: order =>
    (p.table.requests[j]?.map fun e => ⟨e, p.outcome accepts j e⟩).toList ++
      visitsOf accepts (p.visit accepts j) order

def visits (accepts : Nat → Query → Bool) (t : RequestTable ρ) : List Visit :=
  visitsOf accepts t.opened.2 t.opened.1

/-! ### What a visit does -/

/-- What undoes a send of `e` that started from the priority `base`. -/
def undoing (e : Request) (base : Nat) : Unresolved :=
  ⟨some e.node, e.query.ttl, UInt32.ofNat base, e.lastSend⟩

/-- The time to live that `e` grows to, and the one that it keeps meanwhile. -/
def Grows (t : RequestTable ρ) (e : Request) (grown : Int) (kept : Int32) : Prop :=
  ∃ r : ρ, ({ t with random := r }.grownTtl e).1 = (grown, kept)

/-- The request `e'` is what is left of `e` when the policy holds its query back. -/
structure Delays (t : RequestTable ρ) (e e' : Request) : Prop where
  lastSend : ∃ r, e'.lastSend = some (t.sendTime e r).1
  kept : ∃ grown kept, t.Grows e grown kept ∧
    e' = { e with query := { e.query with ttl := kept }, lastSend := e'.lastSend }

/-- The request `e'` goes out for `e`, which starts from the priority `base`. -/
structure Sends (t : RequestTable ρ) (e e' : Request) (base : Nat) : Prop where
  question : SameQuestion e e'
  lastSend : ∃ r, e'.lastSend = some (t.sendTime e r).1
  tries : e'.tries = e.tries + 1
  replies : e'.replies = e.replies / 2
  base_eq : e.query.priority.toNat ≤ priorityBound → base = e.query.priority.toNat
  base_lt : priorityBound < e.query.priority.toNat → base < priorityBound
  ttl : ∃ grown kept, t.Grows e grown kept ∧
    if 0 < e.replies then e'.query.ttl = kept
    else e'.query.ttl.toInt =
      clampTo 0 Int32.maxValue.toInt (min grown ((base + 8) * t.decrement))
  priority :
    if 0 < e.replies then e'.query.priority = e.query.priority
    else ∃ r, (e'.query.priority.toNat : Int) =
      clampTo 0 (UInt32.size - 1) (t.grownPriority e.query base e'.tries r).1

/-- What becomes of the table when the request `e` at position `j` is visited with this outcome. -/
inductive Becomes (t : RequestTable ρ) (j : Nat) (e : Request) : Outcome → RequestTable ρ → Prop
  | left (random : ρ) : Becomes t j e .left { t with random := random }
  | vetoed {e' : Request} (policy : Policy) (random : ρ) (hdue : t.isDue e = true)
      (hdelays : t.Delays e e') :
      Becomes t j e .vetoed
        { t with requests := t.requests.set j e', policy := policy, random := random }
  | accepted {e' : Request} {base : Nat} (policy : Policy) (random : ρ) (stats : RequestStats)
      (hdue : t.isDue e = true) (hsends : t.Sends e e' base) :
      Becomes t j e (.offered e'.query true)
        { t with
          requests := t.requests.set j e'
          unresolved := t.unresolved ++ [undoing e base]
          policy := policy
          random := random
          stats := stats }
  | refused {e' : Request} {base : Nat} (policy : Policy) (random : ρ) (stats : RequestStats)
      (hdue : t.isDue e = true) (hsends : t.Sends e e' base) :
      Becomes t j e (.offered e'.query false)
        (settle
          { t with
            requests := t.requests.set j e'
            policy := policy
            random := random
            stats := stats }
          (undoing e base) false)

/-- The request counts as sent at this time or later. -/
def Late (bound : Int) (e : Request) : Prop := ∃ last, e.lastSend = some last ∧ bound ≤ last

theorem le_sendTime (t : RequestTable ρ) (e : Request) (r : ρ) :
    t.now + 2 * t.decrement ≤ (t.sendTime e r).1 := by
  unfold sendTime
  split
  rename_i r' _
  split
  · split
    rename_i hextra
    have hdraw := (drawBelow_mem (t.decrement * (1 + e.tries)) r').1
    rw [hextra] at hdraw
    exact Int.le_add_of_nonneg_right hdraw
  · exact Int.le_refl _

theorem sendTime_of_tries_le (t : RequestTable ρ) {e : Request} (h : e.tries ≤ 1) (r : ρ) :
    (t.sendTime e r).1 = t.now + 2 * t.decrement := by
  have hdraw := (drawBelow_mem (1 + e.tries) r).2
  unfold sendTime
  split
  rename_i chance r' hchance
  rw [hchance] at hdraw
  dsimp only at hdraw
  rw [if_neg (by omega)]

theorem startPriority_spec (priority : UInt32) (r : ρ) :
    0 ≤ (startPriority priority r).1 ∧
      (priority.toNat ≤ priorityBound → (startPriority priority r).1 = priority.toNat) ∧
      (priorityBound < priority.toNat → (startPriority priority r).1 < priorityBound) := by
  unfold startPriority
  by_cases hlt : priorityBound < priority.toNat
  · have hbound : (0 : Int) < priorityBound := by decide
    have hdraw := RandomSource.below_lt priorityBound r (by decide)
    rw [if_pos hlt, drawBelow, if_neg (Int.not_le.2 hbound)]
    exact ⟨Int.natCast_nonneg _, fun hle => absurd hlt (Nat.not_lt.2 hle),
      fun _ => Int.ofNat_lt.2 hdraw⟩
  · rw [if_neg hlt]
    exact ⟨Int.natCast_nonneg _, fun _ => rfl, fun hgt => absurd hgt hlt⟩

theorem toInt_clamped (i : Int) :
    (Int32.ofInt (clampTo 0 Int32.maxValue.toInt i)).toInt = clampTo 0 Int32.maxValue.toInt i := by
  have hmax : Int32.maxValue.toInt = 2 ^ 31 - 1 := by decide
  have hclamp : 0 ≤ clampTo 0 Int32.maxValue.toInt i ∧
      clampTo 0 Int32.maxValue.toInt i < 2 ^ 31 := by
    unfold clampTo
    omega
  exact Int32.toInt_ofInt_of_le (by omega) hclamp.2

theorem toNat_clamped (i : Int) :
    ((UInt32.ofNat (clampTo 0 (UInt32.size - 1) i).toNat).toNat : Int) =
      clampTo 0 (UInt32.size - 1) i := by
  have hclamp : 0 ≤ clampTo 0 (UInt32.size - 1) i ∧ clampTo 0 (UInt32.size - 1) i < 2 ^ 32 := by
    have hsize : (UInt32.size : Int) = 2 ^ 32 := by decide
    unfold clampTo
    omega
  rw [UInt32.toNat_ofNat_of_lt' (by change _ < 2 ^ 32; omega)]
  omega

theorem sends_resent (t : RequestTable ρ) {e : Request} {grown base sendAt : Int} {kept : Int32}
    (requests : List Request) (policy : Policy) (random r : ρ) (hgrows : t.Grows e grown kept)
    (hsend : ∃ r, sendAt = (t.sendTime e r).1) (hnonneg : 0 ≤ base)
    (hbase : e.query.priority.toNat ≤ priorityBound → base = e.query.priority.toNat)
    (hdrawn : priorityBound < e.query.priority.toNat → base < priorityBound) :
    let held : Request :=
      { e with query := { e.query with ttl := kept }, lastSend := some sendAt }
    let t' := { t with requests := requests, policy := policy, random := random }
    t.Sends e (t'.resent held grown base (e.tries + 1) r).2.1 base.toNat := by
  intro held t'
  obtain ⟨base, rfl⟩ := Int.eq_ofNat_of_zero_le hnonneg
  obtain ⟨r', hsend⟩ := hsend
  have hnow : some sendAt = some (t.sendTime e r').1 := congrArg some hsend
  unfold resent
  -- As long as replies are counted the query goes out as it is kept.
  by_cases hreplies : 0 < e.replies
  · rw [if_pos hreplies]
    refine ⟨⟨rfl, rfl, rfl⟩, ⟨r', hnow⟩, rfl, rfl, ?_, ?_, ?_, ?_⟩
    · exact fun hle => Int.ofNat.inj (hbase hle)
    · exact fun hlt => Int.ofNat_lt.1 (hdrawn hlt)
    · exact ⟨grown, kept, hgrows, by rw [if_pos hreplies]⟩
    · rw [if_pos hreplies]
  · rw [if_neg hreplies]
    refine ⟨⟨rfl, rfl, rfl⟩, ⟨r', hnow⟩, rfl, ?_, ?_, ?_, ?_, ?_⟩
    · change e.replies = e.replies / 2
      omega
    · exact fun hle => Int.ofNat.inj (hbase hle)
    · exact fun hlt => Int.ofNat_lt.1 (hdrawn hlt)
    · refine ⟨grown, kept, hgrows, ?_⟩
      rw [if_neg hreplies]
      exact toInt_clamped _
    · rw [if_neg hreplies]
      exact ⟨r, toNat_clamped _⟩

theorem becomes_offer {t : RequestTable ρ} {j : Nat} {e held : Request} {base : Int}
    {sending : Int × Request × ρ} (accepts : Query → Bool) (policy : Policy) (random : ρ)
    (tries : Nat) (hdue : t.isDue e = true) (hsends : t.Sends e sending.2.1 base.toNat) :
    let t' := { t with requests := t.requests.set j held, policy := policy, random := random }
    let a := t'.offer accepts j e base tries sending
    t.Becomes j e a.outcome a.table := by
  intro t' a
  unfold a offer
  simp only [t', List.set_set]
  by_cases haccepts : accepts sending.2.1.query = true
  · simp only [haccepts, if_true]
    exact .accepted policy sending.2.2 _ hdue hsends
  · simp only [haccepts]
    exact .refused policy sending.2.2 _ hdue hsends

theorem becomes_attempt (accepts : Query → Bool) (t : RequestTable ρ) (j : Nat) {e : Request}
    (hdue : t.isDue e = true) :
    t.Becomes j e (t.attempt accepts j e).outcome (t.attempt accepts j e).table := by
  rw [attempt_eq]
  -- All draws up to the policy's answer are made whether or not it permits the query.
  have hgrows : t.Grows e (t.grownTtl e).1.1 (t.grownTtl e).1.2 := ⟨t.random, rfl⟩
  generalize t.grownTtl e = growth at hgrows ⊢
  obtain ⟨⟨grown, kept⟩, r⟩ := growth
  dsimp only at hgrows ⊢
  have hsend : ∃ r', (t.sendTime e r).1 = (t.sendTime e r').1 := ⟨r, rfl⟩
  generalize t.sendTime e r = send at hsend ⊢
  obtain ⟨sendAt, r⟩ := send
  dsimp only at hsend ⊢
  generalize t.policy.permits .query e.query.wireSize = permission
  obtain ⟨permitted, policy⟩ := permission
  dsimp only
  by_cases hpermitted : permitted = true
  · obtain ⟨hnonneg, hbase, hdrawn⟩ := startPriority_spec e.query.priority r
    rw [if_neg (not_not.2 hpermitted)]
    refine becomes_offer accepts policy r _ hdue ?_
    exact t.sends_resent _ policy r _ hgrows hsend hnonneg hbase hdrawn
  · obtain ⟨r', hsend⟩ := hsend
    rw [if_pos hpermitted]
    exact .vetoed policy r hdue ⟨⟨r', congrArg some hsend⟩, grown, kept, hgrows, rfl⟩

/-- The tables have in common what decides when and how a request is sent. -/
structure Alike (t t' : RequestTable ρ) : Prop where
  tuning : t'.tuning = t.tuning
  now : t'.now = t.now
  initialTtl : t'.initialTtl = t.initialTtl
  average : t'.average = t.average

namespace Alike

variable {t t' t'' : RequestTable ρ} {e e' : Request}

omit [RandomSource ρ] in
theorem refl (t : RequestTable ρ) : t.Alike t := ⟨rfl, rfl, rfl, rfl⟩

omit [RandomSource ρ] in
theorem trans (h : t.Alike t') (h' : t'.Alike t'') : t.Alike t'' :=
  ⟨h'.tuning.trans h.tuning, h'.now.trans h.now, h'.initialTtl.trans h.initialTtl,
    h'.average.trans h.average⟩

omit [RandomSource ρ] in
theorem decrement (h : t.Alike t') : t'.decrement = t.decrement := by
  rw [RequestTable.decrement, RequestTable.decrement, h.tuning]

omit [RandomSource ρ] in
theorem isDue (h : t.Alike t') : t'.isDue e = t.isDue e := by
  unfold RequestTable.isDue
  rw [h.now, h.decrement]

theorem sendTime (h : t.Alike t') (r : ρ) : t'.sendTime e r = t.sendTime e r := by
  unfold RequestTable.sendTime
  rw [h.now, h.decrement]

theorem grownTtl (h : t.Alike t') (hrandom : t'.random = t.random) :
    t'.grownTtl e = t.grownTtl e := by
  unfold RequestTable.grownTtl
  rw [h.decrement, h.tuning, h.initialTtl, hrandom]

omit [RandomSource ρ] in
theorem with_random (h : t.Alike t') (r : ρ) :
    { t with random := r }.Alike { t' with random := r } :=
  ⟨h.tuning, h.now, h.initialTtl, h.average⟩

theorem grows {grown : Int} {kept : Int32} (h : t.Alike t') (hgrows : t'.Grows e grown kept) :
    t.Grows e grown kept := by
  obtain ⟨r, hgrown⟩ := hgrows
  refine ⟨r, ?_⟩
  rw [← hgrown, (h.with_random r).grownTtl rfl]

theorem grownPriority (h : t.Alike t') (q : Query) (base : Int) (tries : Nat) (r : ρ) :
    t'.grownPriority q base tries r = t.grownPriority q base tries r := by
  unfold RequestTable.grownPriority
  rw [h.average]

theorem delays (h : t.Alike t') (hdelays : t'.Delays e e') : t.Delays e e' := by
  obtain ⟨⟨r, hsend⟩, grown, kept, hgrows, heq⟩ := hdelays
  exact ⟨⟨r, h.sendTime r ▸ hsend⟩, grown, kept, h.grows hgrows, heq⟩

theorem sends {base : Nat} (h : t.Alike t') (hsends : t'.Sends e e' base) : t.Sends e e' base := by
  obtain ⟨r, hsend⟩ := hsends.lastSend
  obtain ⟨grown, kept, hgrows, hkept⟩ := hsends.ttl
  rw [h.decrement] at hkept
  refine ⟨hsends.question, ⟨r, h.sendTime r ▸ hsend⟩, hsends.tries, hsends.replies, hsends.base_eq,
    hsends.base_lt, ⟨grown, kept, h.grows hgrows, hkept⟩, ?_⟩
  have hpriority := hsends.priority
  simp only [h.grownPriority] at hpriority
  exact hpriority

end Alike

theorem Becomes.of_random {t t' : RequestTable ρ} {r : ρ} {j : Nat} {e : Request} {o : Outcome}
    (h : Becomes { t with random := r } j e o t') : t.Becomes j e o t' := by
  have halike : t.Alike { t with random := r } := ⟨rfl, rfl, rfl, rfl⟩
  cases h with
  | left random => exact .left random
  | vetoed policy random hdue hdelays =>
    exact .vetoed policy random (halike.isDue ▸ hdue) (halike.delays hdelays)
  | accepted policy random stats hdue hsends =>
    exact .accepted policy random stats (halike.isDue ▸ hdue) (halike.sends hsends)
  | refused policy random stats hdue hsends =>
    exact .refused policy random stats (halike.isDue ▸ hdue) (halike.sends hsends)

theorem becomes_visit (accepts : Nat → Query → Bool) (p : Pass ρ) {j : Nat} {e : Request}
    (he : p.table.requests[j]? = some e) :
    p.table.Becomes j e (p.outcome accepts j e) (p.visit accepts j).table := by
  unfold Pass.outcome Pass.visit
  rw [he]
  dsimp only
  by_cases hdue : p.table.isDue e = true
  · rw [if_pos hdue]
    by_cases hroom : (p.table.hasRoom p.pending).1 = true
    · rw [if_pos ⟨hdue, hroom⟩, if_pos hroom]
      have halike : p.table.Alike { p.table with random := (p.table.hasRoom p.pending).2 } :=
        ⟨rfl, rfl, rfl, rfl⟩
      exact (becomes_attempt (accepts p.offered) _ j (halike.isDue.trans hdue)).of_random
    · rw [if_neg fun h => hroom h.2, if_neg hroom]
      exact .left _
  · rw [if_neg fun h => hdue h.1, if_neg hdue]
    exact .left p.table.random

omit [RandomSource ρ] in
theorem alike_congestion (t : RequestTable ρ) : t.Alike t.congestion := by
  unfold congestion
  dsimp only
  split <;> split <;> exact ⟨rfl, rfl, rfl, rfl⟩

omit [RandomSource ρ] in
theorem alike_settle (t : RequestTable ρ) (u : Unresolved) (ok : Bool) :
    t.Alike (t.settle u ok) := by
  unfold settle
  split
  · exact .refl t
  · cases ok with
    | true =>
      simp only [if_true]
      have halike := alike_congestion t
      split
      · exact ⟨halike.tuning, halike.now, halike.initialTtl, halike.average⟩
      · exact .refl t
    | false => exact ⟨rfl, rfl, rfl, rfl⟩

theorem Becomes.alike {t t' : RequestTable ρ} {j : Nat} {e : Request} {o : Outcome}
    (h : t.Becomes j e o t') : t.Alike t' := by
  cases h with
  | refused =>
    refine .trans ?_ (alike_settle _ _ false)
    exact ⟨rfl, rfl, rfl, rfl⟩
  | left | vetoed | accepted => exact ⟨rfl, rfl, rfl, rfl⟩

/-- No request before position `j` is of this node. -/
def Foremost (es : List Request) (j : Nat) (node : NodeId) : Prop :=
  ∀ i < j, ∀ e, es[i]? = some e → e.node ≠ node

section Foremost

variable {es : List Request} {j : Nat} {e e' : Request} {node : NodeId} {f : Request → Request}

omit [RandomSource ρ]

theorem foremost_of_nodup (hnodup : (es.map (·.node)).Nodup) (he : es[j]? = some e) :
    Foremost es j e.node := by
  intro i hij e' he' hnode
  have hi : (es.map (·.node))[i]? = some e.node := by
    rw [List.getElem?_map, he', Option.map_some, hnode]
  have hj : (es.map (·.node))[j]? = some e.node := by rw [List.getElem?_map, he, Option.map_some]
  have hlt := (List.getElem?_eq_some_iff.1 hi).1
  exact hij.ne ((List.getElem?_inj hlt hnodup).1 (hi.trans hj.symm))

theorem Foremost.tail (h : Foremost (e :: es) (j + 1) node) :
    e.node ≠ node ∧ Foremost es j node :=
  ⟨h 0 (Nat.succ_pos j) e rfl, fun i hi e' he' => h (i + 1) (Nat.succ_lt_succ hi) e' he'⟩

theorem foremost_set : Foremost (es.set j e) j node ↔ Foremost es j node := by
  unfold Foremost
  refine forall₂_congr fun i hi => ?_
  rw [List.getElem?_set_ne hi.ne']

theorem Foremost.modifyFirst_set (h : Foremost es j e'.node) :
    modifyFirst f e'.node (es.set j e') = es.set j (f e') := by
  induction es generalizing j with
  | nil => rfl
  | cons a es ih =>
    cases j with
    | zero => simp [modifyFirst]
    | succ j =>
      obtain ⟨hne, hrest⟩ := h.tail
      rw [List.set_cons_succ, List.set_cons_succ, modifyFirst, if_neg hne, ih hrest]

/-- What comes later is not changed. -/
theorem getElem?_modifyFirst_of_not_foremost (h : ¬ Foremost es j node) :
    (modifyFirst f node es)[j]? = es[j]? := by
  induction es generalizing j with
  | nil => rfl
  | cons a es ih =>
    cases j with
    | zero => exact absurd (fun i hi => absurd hi (Nat.not_lt_zero i)) h
    | succ j =>
      unfold modifyFirst
      split
      · rfl
      · rename_i hne
        rw [List.getElem?_cons_succ, List.getElem?_cons_succ]
        refine ih fun hrest => h ?_
        intro i hi e he
        cases i with
        | zero =>
          obtain rfl : a = e := Option.some.inj he
          exact hne
        | succ i => exact hrest i (Nat.lt_of_succ_lt_succ hi) e he

end Foremost

omit [RandomSource ρ] in
/-- A send of a node is undone in the first request of it. -/
theorem settle_false_eq {u : Unresolved} {node : NodeId} (t : RequestTable ρ)
    (hnode : u.node = some node) :
    t.settle u false = { t with requests := modifyFirst (reverted u) node t.requests } := by
  unfold settle
  rw [hnode, Option.bind_some]
  cases hfind : t.requests.find? (·.node = node) with
  | none => rw [modifyFirst_of_none _ hfind]
  | some e =>
    have he : e.node = node := by simpa using List.find?_some hfind
    rw [← he]
    rfl

omit [RandomSource ρ] in
theorem settle_undoing {t : RequestTable ρ} {j : Nat} {e e' : Request} (base : Nat)
    (hnode : e'.node = e.node) (hfirst : Foremost t.requests j e.node) (policy : Policy)
    (random : ρ) (stats : RequestStats) :
    settle { t with
        requests := t.requests.set j e'
        policy := policy
        random := random
        stats := stats } (undoing e base) false =
      { t with
        requests := t.requests.set j (reverted (undoing e base) e')
        policy := policy
        random := random
        stats := stats } := by
  rw [← hnode] at hfirst
  rw [settle_false_eq _ (congrArg some hnode.symm)]
  dsimp only
  rw [hfirst.modifyFirst_set]

/-- A visit changes no other request. -/
theorem Becomes.requests_eq {t t' : RequestTable ρ} {j : Nat} {e : Request} {o : Outcome}
    (h : t.Becomes j e o t') (he : t.requests[j]? = some e)
    (hfirst : Foremost t.requests j e.node) :
    ∃ e', t'.requests = t.requests.set j e' := by
  cases h with
  | left =>
    obtain ⟨hlt, rfl⟩ := List.getElem?_eq_some_iff.1 he
    exact ⟨_, (List.set_getElem_self hlt).symm⟩
  | @vetoed e' => exact ⟨e', rfl⟩
  | @accepted e' => exact ⟨e', rfl⟩
  | @refused e' base policy random stats hdue hsends =>
    rw [settle_undoing base hsends.question.1 hfirst]
    exact ⟨_, rfl⟩

theorem Becomes.getElem?_of_ne {t t' : RequestTable ρ} {i j : Nat} {e : Request} {o : Outcome}
    (h : t.Becomes j e o t') (he : t.requests[j]? = some e)
    (hfirst : Foremost t.requests j e.node) (hij : i ≠ j) : t'.requests[i]? = t.requests[i]? := by
  obtain ⟨e', hset⟩ := h.requests_eq he hfirst
  rw [hset, List.getElem?_set_ne hij.symm]

theorem visit_of_none (accepts : Nat → Query → Bool) {p : Pass ρ} {j : Nat}
    (h : p.table.requests[j]? = none) : p.visit accepts j = p := by
  unfold Pass.visit
  rw [h]

theorem opened_of_nil {t : RequestTable ρ} (h : t.requests = []) : t.opened.1 = [] := by
  have hperm := RandomSource.shuffle_perm t.requests.length t.random
  rw [h] at hperm
  unfold opened
  rw [h]
  exact List.perm_nil.1 hperm

/-- What holds at the start of a pass and is kept by every visit holds at its end. -/
theorem schedule_induction {P : List Visit → RequestTable ρ → Prop}
    (accepts : Nat → Query → Bool) (t : RequestTable ρ)
    (hstart : ∀ r, P [] { t with wake := false, random := r })
    (hstep : ∀ vs t t' j e o, P vs t → t.requests[j]? = some e → t.Becomes j e o t' →
      P (vs ++ [⟨e, o⟩]) t') :
    P (t.visits accepts) (t.schedule accepts).2 := by
  have hvisits : ∀ order (p : Pass ρ) vs, P vs p.table →
      P (vs ++ visitsOf accepts p order) (order.foldl (Pass.visit accepts) p).table := by
    intro order
    induction order with
    | nil =>
      intro p vs hp
      rwa [visitsOf, List.append_nil]
    | cons j order ih =>
      intro p vs hp
      rw [visitsOf, List.foldl_cons, ← List.append_assoc]
      apply ih
      cases he : p.table.requests[j]? with
      | none =>
        rw [visit_of_none accepts he]
        simpa using hp
      | some e => exact hstep vs _ _ j e _ hp he (becomes_visit accepts p he)
  by_cases hempty : t.requests = []
  · rw [schedule_of_nil accepts hempty, visits, opened_of_nil hempty]
    exact hstart t.random
  · rw [schedule_of_ne_nil accepts hempty]
    exact hvisits t.opened.1 t.opened.2 [] (hstart _)

theorem map_request_visitsOf (accepts : Nat → Query → Bool) (es : List Request) {order : List Nat}
    (horder : order.Nodup) (p : Pass ρ) (hnodup : p.table.nodes.Nodup)
    (hsame : ∀ j ∈ order, p.table.requests[j]? = es[j]?) :
    (visitsOf accepts p order).map (·.request) = order.filterMap (es[·]?) := by
  induction order generalizing p with
  | nil => rfl
  | cons j order ih =>
    obtain ⟨hj, horder⟩ := List.nodup_cons.1 horder
    have hnodes : (p.visit accepts j).table.nodes.Nodup := by rwa [nodes_visit]
    -- The visit to `j` changes no position that is still to come.
    have hrest : ∀ i ∈ order, (p.visit accepts j).table.requests[i]? = es[i]? := by
      intro i hi
      rw [← hsame i (List.mem_cons_of_mem j hi)]
      cases he : p.table.requests[j]? with
      | none => rw [visit_of_none accepts he]
      | some e =>
        refine (becomes_visit accepts p he).getElem?_of_ne he (foremost_of_nodup hnodup he) ?_
        rintro rfl
        exact hj hi
    rw [visitsOf, List.map_append, ih horder _ hnodes hrest, List.filterMap_cons,
      ← hsame j List.mem_cons_self]
    cases p.table.requests[j]? <;> rfl

omit [RandomSource ρ] in
theorem filterMap_getElem?_range (es : List Request) :
    (List.range es.length).filterMap (es[·]?) = es := by
  have hmap : (List.range es.length).map (es[·]?) = es.map some := by
    apply List.ext_getElem
    · simp
    · intro i hi hi'
      simp
  calc (List.range es.length).filterMap (es[·]?)
      = ((List.range es.length).map (es[·]?)).filterMap id := by
        rw [List.filterMap_map, Function.id_comp]
    _ = (es.map some).filterMap id := by rw [hmap]
    _ = es := by simp

/-- A pass visits every request once, as it is before the pass. -/
theorem perm_visits (accepts : Nat → Query → Bool) {t : RequestTable ρ} (hnodup : t.nodes.Nodup) :
    ((t.visits accepts).map (·.request)).Perm t.requests := by
  have horder : t.opened.1.Perm (List.range t.requests.length) :=
    RandomSource.shuffle_perm t.requests.length t.random
  have hmap := map_request_visitsOf accepts t.requests (horder.nodup_iff.2 List.nodup_range)
    t.opened.2 hnodup fun _ _ => rfl
  rw [visits, hmap]
  exact (horder.filterMap _).trans (.of_eq (filterMap_getElem?_range t.requests))

theorem sent_visit (accepts : Nat → Query → Bool) (p : Pass ρ) {j : Nat} {e : Request}
    (he : p.table.requests[j]? = some e) :
    (p.visit accepts j).sent = p.sent ++ (p.outcome accepts j e).sent?.toList := by
  unfold Pass.visit Pass.outcome
  rw [he]
  dsimp only
  by_cases hdue : p.table.isDue e = true
  · by_cases hroom : (p.table.hasRoom p.pending).1 = true
    · simp only [hdue, hroom, if_true, and_self]
      generalize (attempt (accepts p.offered) _ j e : Attempt ρ) = a
      obtain ⟨table, offered, accepted, unavailable⟩ := a
      cases offered <;> cases accepted <;> simp [Attempt.outcome, Outcome.sent?]
    · simp [hdue, hroom, Outcome.sent?]
  · simp [hdue, Outcome.sent?]

theorem sent_visits (accepts : Nat → Query → Bool) (order : List Nat) (p : Pass ρ) :
    (order.foldl (Pass.visit accepts) p).sent =
      p.sent ++ (visitsOf accepts p order).filterMap (·.outcome.sent?) := by
  induction order generalizing p with
  | nil => exact (List.append_nil _).symm
  | cons j order ih =>
    rw [List.foldl_cons, ih, visitsOf, List.filterMap_append, ← List.append_assoc]
    cases he : p.table.requests[j]? with
    | none =>
      rw [visit_of_none accepts he]
      simp
    | some e =>
      rw [sent_visit accepts p he]
      cases hsent : (p.outcome accepts j e).sent? <;> simp [hsent]

/-- The queries that a pass sends are those that the sender accepts on its visits. -/
theorem sent_schedule (accepts : Nat → Query → Bool) (t : RequestTable ρ) :
    (t.schedule accepts).1.sent = (t.visits accepts).filterMap (·.outcome.sent?) := by
  by_cases hempty : t.requests = []
  · rw [schedule_of_nil accepts hempty, visits, opened_of_nil hempty]
    rfl
  · rw [schedule_of_ne_nil accepts hempty]
    exact sent_visits accepts t.opened.1 t.opened.2

/-! ### What no event changes -/

theorem alike_schedule (accepts : Nat → Query → Bool) (t : RequestTable ρ) :
    t.Alike (t.schedule accepts).2 :=
  schedule_induction (P := fun _ t' => t.Alike t') accepts t (fun _ => ⟨rfl, rfl, rfl, rfl⟩)
    fun _ _ _ _ _ _ halike _ hbecomes => halike.trans hbecomes.alike

/-- What every visit to a table like this one shows, the visits of a pass over it show. -/
theorem forall_visits {P : Visit → Prop} (accepts : Nat → Query → Bool) (t : RequestTable ρ)
    (hvisit : ∀ t₁ t₂ j e o, t.Alike t₁ → t₁.Becomes j e o t₂ → P ⟨e, o⟩) :
    ∀ v ∈ t.visits accepts, P v := by
  have hpass := schedule_induction (P := fun vs t' => t.Alike t' ∧ ∀ v ∈ vs, P v) accepts t
    (fun _ => ⟨⟨rfl, rfl, rfl, rfl⟩, nofun⟩)
    fun vs t₁ t₂ j e o hall _ hbecomes =>
      ⟨hall.1.trans hbecomes.alike, List.forall_mem_append.2
        ⟨hall.2, List.forall_mem_singleton.2 (hvisit t₁ t₂ j e o hall.1 hbecomes)⟩⟩
  exact hpass.2

omit [RandomSource ρ] in
theorem alike_settleOldest (t : RequestTable ρ) (ok : Bool) : t.Alike (t.settleOldest ok) := by
  unfold settleOldest
  split
  · exact .refl t
  · rename_i u us _
    have halike := alike_settle { t with unresolved := us } u ok
    exact ⟨halike.tuning, halike.now, halike.initialTtl, halike.average⟩

omit [RandomSource ρ] in
theorem alike_remove (t : RequestTable ρ) (node : NodeId) : t.Alike (t.remove node) := by
  unfold remove
  split
  · unfold removeAt
    split <;> exact ⟨rfl, rfl, rfl, rfl⟩
  · exact .refl t

omit [RandomSource ρ] in
theorem tuning_matchReply (s : Suite) (t : RequestTable ρ) (reply : Block) :
    (t.matchReply s reply).2.tuning = t.tuning := by
  unfold matchReply
  dsimp only
  split
  · exact (alike_congestion _).tuning
  · split <;> rfl

/-- The settings stay what they are. -/
theorem tuning_handle (t : RequestTable ρ) (ev : Event) : (t.handle ev).tuning = t.tuning := by
  cases ev with
  | upkeep u =>
    cases u with
    | call c =>
      cases c with
      | update node query =>
        cases query with
        | none => exact (alike_remove t node).tuning
        | some query => rfl
      | request | endgame => rfl
      | release node => exact (alike_remove t node).tuning
    | tick | observe | record | abort => rfl
    | reply suite block => exact tuning_matchReply suite t block
  | pass accepts => exact (alike_schedule accepts t).tuning
  | returnValue value => exact (alike_settleOldest t _).tuning
  | sendFailed => exact (alike_settleOldest t false).tuning

end RequestTable

end ContentTree

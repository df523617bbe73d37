import ContentTree.Proofs.Requests.Histories

/-!
# How long queries live

A time to live within the estimate and the cap grows to twice itself and two decrements at most.
Beyond the estimate it grows by less, and above the cap it falls back to it. So it stays below twice
the cap and two decrements. The cap and two decrements are a bound only while the estimate is at
most half the cap.
-/

namespace ContentTree

/-- The first estimate is within the cap, and the numbers are of a size to be counted with. -/
structure Tuning.Capped (c : Tuning) : Prop where
  initial : c.initialTtl ≤ c.maxTtl
  cap : 2 * c.ttlDecrement + c.maxTtl < 2 ^ 31
  weight : c.ttlWeight < 2 ^ 31
  weightFast : c.ttlWeightFast < 2 ^ 31

/-- No query lives longer. -/
def Tuning.longestTtl (c : Tuning) : Nat :=
  max (2 * c.maxTtl + 2 * c.ttlDecrement) (c.maxTtl + max c.ttlDecrement 1 + 49)

namespace RequestTable

variable {ρ : Type} [RandomSource ρ]

/-- A time to live that a request or an undone send can have. Without a send it has not grown. -/
structure Lives (bound : Int) (ttl : Int32) (lastSend : Option Int) : Prop where
  nonneg : 0 ≤ ttl.toInt
  le : ttl.toInt ≤ bound
  fresh : lastSend = none → ttl.toInt ≤ 1

section Growth

/-- How a time to live grows, and what the request keeps of it meanwhile: it starts from the
estimate, falls back to the cap, grows slowly beyond the estimate or fast within it. -/
inductive Growth (estimate cap decrement : Int) (e : Request) (grown kept : Int) : Prop
  | first (hfresh : e.lastSend = none) (hgrown : grown = estimate)
      (hkept : kept = e.query.ttl.toInt)
  | capped (hover : cap < e.query.ttl.toInt) (hkept : kept = cap) (hle : cap ≤ grown)
      (hgrown : grown ≤ cap + 2 * decrement)
  | slow (hcap : e.query.ttl.toInt ≤ cap) (hkept : kept = e.query.ttl.toInt) (hle : kept ≤ grown)
      (hgrown : grown ≤ kept + max decrement 1 + 49)
  | fast (hcap : e.query.ttl.toInt ≤ cap) (hestimate : e.query.ttl.toInt ≤ estimate)
      (hkept : kept = e.query.ttl.toInt) (hle : kept ≤ grown)
      (hgrown : grown ≤ 2 * kept + 2 * decrement)

variable {t : RequestTable ρ} {e : Request} {estimate cap decrement : Int}

theorem growth_grownTtl (hestimate : signed64 t.initialTtl = estimate)
    (hcap : signed64 t.tuning.maxTtl = cap) (hdecrement : t.decrement = decrement)
    (hcapNonneg : 0 ≤ cap) (hcapLt : cap < 2 ^ 31) (hdecrementNonneg : 0 ≤ decrement)
    (hnonneg : 0 ≤ e.query.ttl.toInt) :
    Growth estimate cap decrement e (t.grownTtl e).1.1 (t.grownTtl e).1.2.toInt := by
  unfold grownTtl
  rw [hestimate, hcap, hdecrement]
  by_cases hfirst : e.lastSend.isNone
  · rw [if_pos hfirst]
    exact .first (Option.isNone_iff_eq_none.1 hfirst) rfl rfl
  rw [if_neg hfirst]
  by_cases hover : e.query.ttl.toInt > cap
  · rw [if_pos hover]
    have hdraw := drawBelow_mem (2 * decrement) t.random
    have hkept : (Int32.ofInt cap).toInt = cap := Int32.toInt_ofInt_of_le (by omega) hcapLt
    exact .capped hover hkept (by dsimp only; omega) (by dsimp only; omega)
  rw [if_neg hover]
  have hwithin := Int.not_lt.1 hover
  by_cases hslow : e.query.ttl.toInt > estimate
  · have hstep (steps : Int) : decrement.tdiv (max steps 1) ≤ decrement :=
      Int.tdiv_le_self _ hdecrementNonneg
    rw [if_pos hslow]
    generalize (if estimate = 0 then _ else _) = steps
    have hsteps := hstep steps
    have hdraw := drawBelow_mem (50 + max (decrement.tdiv (max steps 1)) 1) t.random
    exact .slow hwithin rfl (by dsimp only; omega) (by dsimp only; omega)
  · rw [if_neg hslow]
    have hdraw := drawBelow_mem (e.query.ttl.toInt + 2 * decrement) t.random
    exact .fast hwithin (Int.not_lt.1 hslow) rfl (by dsimp only; omega) (by dsimp only; omega)

end Growth

/-- What the table has of times to live is within bounds. -/
structure Bounds (c : Tuning) (t : RequestTable ρ) : Prop where
  tuning : t.tuning = c
  estimate : t.initialTtl + c.ttlDecrement ≤ c.longestTtl
  request : ∀ e ∈ t.requests, Lives c.longestTtl e.query.ttl e.lastSend
  unresolved : ∀ u ∈ t.unresolved, Lives c.longestTtl u.ttl u.lastSend

section Bounds

variable {c : Tuning} {t t' : RequestTable ρ} {e : Request}

omit [RandomSource ρ]

theorem Bounds.decrement (ht : t.Bounds c) (hc : c.Capped) : t.decrement = c.ttlDecrement := by
  have hcap := hc.cap
  rw [RequestTable.decrement, ht.tuning, signed64_of_lt (by omega)]

theorem Bounds.initial (ht : t.Bounds c) (hc : c.Capped) :
    signed64 t.initialTtl = t.initialTtl := by
  have hcap := hc.cap
  have hestimate := ht.estimate
  unfold Tuning.longestTtl at hestimate
  rw [signed64_of_lt (by omega)]

theorem Bounds.cap (ht : t.Bounds c) (hc : c.Capped) :
    signed64 t.tuning.maxTtl = c.maxTtl := by
  have hcap := hc.cap
  rw [ht.tuning, signed64_of_lt (by omega)]

/-- The estimate leaves room for one decrement more. -/
theorem Bounds.nextEstimate (ht : t.Bounds c) (hc : c.Capped) {ttl : Int}
    (httl : ttl ≤ c.longestTtl) (last : Int) :
    t.nextEstimate ttl last + c.ttlDecrement ≤ c.longestTtl := by
  have hcap := hc.cap
  have hestimate := ht.estimate
  have hweights := hc.weight
  have hweightFast := hc.weightFast
  have hlongest : c.longestTtl < 2 ^ 33 := by
    unfold Tuning.longestTtl
    omega
  unfold RequestTable.nextEstimate
  rw [ht.initial hc, ht.decrement hc]
  dsimp only
  generalize hweight : (if max (ttl - c.ttlDecrement) 0 > 4 * t.initialTtl ∧
    t.now - last < t.initialTtl then t.tuning.ttlWeightFast else t.tuning.ttlWeight) = weight
  have hlt : weight < 2 ^ 63 := by
    rw [← hweight, ht.tuning]
    split <;> omega
  -- The next estimate is a weighted mean of the old one and of the time to live less a decrement.
  have holdLe : (t.initialTtl : Int) ≤ c.longestTtl - c.ttlDecrement := by omega
  have hnewLe : max (ttl - c.ttlDecrement) 0 ≤ c.longestTtl - c.ttlDecrement := by omega
  obtain ⟨hnonneg, hle⟩ := tdiv_mean_le (Int.natCast_nonneg _) (Int.le_max_right _ _)
    (Int.natCast_nonneg weight) holdLe hnewLe
  rw [signed64_of_lt hlt, unsigned64_of_nonneg hnonneg (by omega)]
  omega

theorem Bounds.congr (ht : t.Bounds c) (halike : t.Alike t')
    (hrequests : ∀ e ∈ t'.requests, Lives c.longestTtl e.query.ttl e.lastSend)
    (hunresolved : ∀ u ∈ t'.unresolved, Lives c.longestTtl u.ttl u.lastSend) : t'.Bounds c where
  tuning := halike.tuning.trans ht.tuning
  estimate := halike.initialTtl ▸ ht.estimate
  request := hrequests
  unresolved := hunresolved

theorem mem_modifyFirst {f : Request → Request} {node : NodeId} {es : List Request} {e' : Request}
    (h : e' ∈ modifyFirst f node es) : ∃ e ∈ es, e' = e ∨ e' = f e := by
  obtain ⟨i, hi⟩ := List.mem_iff_getElem?.1 h
  obtain ⟨e, he, heq⟩ := getElem?_modifyFirst hi
  exact ⟨e, List.mem_of_getElem? he, heq⟩

theorem Bounds.revert (ht : t.Bounds c) {u : Unresolved}
    (hu : Lives c.longestTtl u.ttl u.lastSend) : (t.settle u false).Bounds c := by
  refine ht.congr (alike_settle t u false) ?_ (unresolved_settle t u false ▸ ht.unresolved)
  obtain ⟨requests, hsettle, rfl | ⟨node, rfl⟩⟩ := t.settle_false u
  · exact hsettle ▸ ht.request
  · intro e' he'
    rw [hsettle] at he'
    obtain ⟨e, he, rfl | rfl⟩ := mem_modifyFirst he'
    · exact ht.request e' he
    · exact hu

theorem Bounds.settleOldest (ht : t.Bounds c) (ok : Bool) : (t.settleOldest ok).Bounds c := by
  unfold RequestTable.settleOldest
  split
  · exact ht
  · rename_i u us hunresolved
    have hall := hunresolved ▸ ht.unresolved
    have hrest : { t with unresolved := us }.Bounds c :=
      ht.congr ⟨rfl, rfl, rfl, rfl⟩ ht.request fun u hu => hall u (List.mem_cons_of_mem _ hu)
    cases ok with
    | false => exact hrest.revert (hall u List.mem_cons_self)
    | true =>
      refine hrest.congr (alike_settle _ u true) ?_ ?_
      · rw [requests_settle_true]
        exact hrest.request
      · rw [unresolved_settle]
        exact hrest.unresolved

end Bounds

section Passes

variable {c : Tuning} {t t' : RequestTable ρ} {e e' : Request} {o : Outcome}

/-- What a query's time to live is bounded by when the sender gets it. -/
structure Offers (c : Tuning) (estimate : Nat) (ttl : Int32) : Prop where
  nonneg : 0 ≤ ttl.toInt
  le : ttl.toInt ≤ c.longestTtl
  /-- The cap and two decrements are a bound while growth beyond the cap cannot start. -/
  le_cap : 49 ≤ c.ttlDecrement → 2 * estimate ≤ c.maxTtl →
    ttl.toInt ≤ c.maxTtl + 2 * c.ttlDecrement

omit [RandomSource ρ] in
theorem clampTo_min_mem {i : Int} (hi : 0 ≤ i) (high j : Int) :
    0 ≤ clampTo 0 high (min i j) ∧ clampTo 0 high (min i j) ≤ i := by
  unfold clampTo
  omega

theorem Bounds.growth (ht : t.Bounds c) (hc : c.Capped) {bound grown : Int} {kept : Int32}
    (he : Lives bound e.query.ttl e.lastSend) (h : t.Grows e grown kept) :
    Growth t.initialTtl c.maxTtl c.ttlDecrement e grown kept.toInt := by
  obtain ⟨r, hgrown⟩ := h
  have hcap := hc.cap
  have hgrowth := growth_grownTtl (t := { t with random := r }) (ht.initial hc) (ht.cap hc)
    (ht.decrement hc) (by omega) (by omega) (by omega) he.nonneg
  rw [hgrown] at hgrowth
  exact hgrowth

/-- What a request keeps is within the cap, or has never grown. -/
theorem Growth.kept {estimate cap decrement bound grown kept : Int}
    (h : Growth estimate cap decrement e grown kept) (hcap : 0 ≤ cap)
    (he : Lives bound e.query.ttl e.lastSend) : 0 ≤ kept ∧ kept ≤ max cap 1 := by
  have hnonneg := he.nonneg
  cases h with
  | first hfresh hgrown hkept =>
    have hone := he.fresh hfresh
    omega
  | capped | slow | fast => omega

theorem Growth.grown {estimate cap decrement bound grown kept : Int}
    (h : Growth estimate cap decrement e grown kept) (hcap : 0 ≤ cap) (hestimate : 0 ≤ estimate)
    (he : Lives bound e.query.ttl e.lastSend) :
    0 ≤ grown ∧ (grown ≤ estimate ∨ grown ≤ cap + 2 * decrement ∨
      grown ≤ cap + max decrement 1 + 49 ∨
      grown ≤ 2 * cap + 2 * decrement ∧ grown ≤ 2 * estimate + 2 * decrement) := by
  have hnonneg := he.nonneg
  cases h with
  | first hfresh hgrown hkept => exact ⟨by omega, .inl hgrown.le⟩
  | capped hover hkept hle hgrown => exact ⟨by omega, .inr (.inl hgrown)⟩
  | slow hwithin hkept hle hgrown => exact ⟨by omega, .inr (.inr (.inl (by omega)))⟩
  | fast hwithin hestimate' hkept hle hgrown =>
    exact ⟨by omega, .inr (.inr (.inr ⟨by omega, by omega⟩))⟩

theorem Bounds.sends (ht : t.Bounds c) (hc : c.Capped) {bound : Int} {base : Nat}
    (he : Lives bound e.query.ttl e.lastSend) (h : t.Sends e e' base) :
    Offers c t.initialTtl e'.query.ttl := by
  obtain ⟨grown, kept, hgrows, httl⟩ := h.ttl
  have hgrowth := ht.growth hc he hgrows
  have hestimate := ht.estimate
  have htwice : 2 * c.maxTtl + 2 * c.ttlDecrement ≤ c.longestTtl := Nat.le_max_left _ _
  have hslow : c.maxTtl + max c.ttlDecrement 1 + 49 ≤ c.longestTtl := Nat.le_max_right _ _
  -- A reply holds back the time to live that is kept, else the grown one is cut.
  by_cases hreplies : 0 < e.replies
  · obtain ⟨hnonneg, hle⟩ := hgrowth.kept (Int.natCast_nonneg _) he
    rw [if_pos hreplies] at httl
    rw [← httl] at hnonneg hle
    exact ⟨hnonneg, by omega, by omega⟩
  · obtain ⟨hgrown, hle⟩ := hgrowth.grown (Int.natCast_nonneg _) (Int.natCast_nonneg _) he
    rw [if_neg hreplies] at httl
    obtain ⟨hnonneg, hcut⟩ := clampTo_min_mem hgrown Int32.maxValue.toInt ((base + 8) * t.decrement)
    rw [← httl] at hnonneg hcut
    exact ⟨hnonneg, by omega, by omega⟩

theorem Offers.lives {estimate : Nat} {ttl : Int32} {lastSend : Option Int}
    (h : Offers c estimate ttl) (hsent : lastSend ≠ none) : Lives c.longestTtl ttl lastSend :=
  ⟨h.nonneg, h.le, fun hnone => absurd hnone hsent⟩

theorem Delays.lives (h : t.Delays e e') (ht : t.Bounds c) (hc : c.Capped) {bound : Int}
    (he : Lives bound e.query.ttl e.lastSend) : Lives c.longestTtl e'.query.ttl e'.lastSend := by
  obtain ⟨⟨r, hlast⟩, grown, kept, hgrows, heq⟩ := h
  obtain ⟨hkept, hkeptLe⟩ := (ht.growth hc he hgrows).kept (Int.natCast_nonneg _) he
  have httl : e'.query.ttl = kept := by rw [heq]
  have hlongest : max c.maxTtl 1 ≤ c.longestTtl := by
    unfold Tuning.longestTtl
    omega
  rw [httl, hlast]
  exact ⟨hkept, by omega, nofun⟩

/-- A visit keeps the bounds, and what it offers is within them. -/
theorem Becomes.bounds {j : Nat} (h : t.Becomes j e o t') (ht : t.Bounds c) (hc : c.Capped)
    (he : t.requests[j]? = some e) :
    t'.Bounds c ∧ ∀ query, o.offered? = some query → Offers c t.initialTtl query.ttl := by
  have hlives := ht.request e (List.mem_of_getElem? he)
  have hset : ∀ e' : Request, Lives c.longestTtl e'.query.ttl e'.lastSend →
      ∀ d ∈ t.requests.set j e', Lives c.longestTtl d.query.ttl d.lastSend := by
    intro e' he' d hd
    rcases List.mem_or_eq_of_mem_set hd with hd | rfl
    · exact ht.request d hd
    · exact he'
  have hsent : ∀ {e' base}, t.Sends e e' base → e'.lastSend ≠ none := by
    intro e' base hsends hnone
    obtain ⟨r, hlast⟩ := hsends.lastSend
    exact nomatch hlast.symm.trans hnone
  cases h with
  | left => exact ⟨ht.congr ⟨rfl, rfl, rfl, rfl⟩ ht.request ht.unresolved, nofun⟩
  | vetoed policy random hdue hdelays =>
    refine ⟨ht.congr ⟨rfl, rfl, rfl, rfl⟩ (hset _ ?_) ht.unresolved, nofun⟩
    exact hdelays.lives ht hc hlives
  | accepted policy random stats hdue hsends =>
    have hoffers := ht.sends hc hlives hsends
    refine ⟨ht.congr ⟨rfl, rfl, rfl, rfl⟩ (hset _ (hoffers.lives (hsent hsends))) ?_, ?_⟩
    · exact List.forall_mem_append.2 ⟨ht.unresolved, List.forall_mem_singleton.2 hlives⟩
    · rintro query ⟨⟩
      exact hoffers
  | refused policy random stats hdue hsends =>
    have hoffers := ht.sends hc hlives hsends
    refine ⟨Bounds.revert ?_ hlives, ?_⟩
    · exact ht.congr ⟨rfl, rfl, rfl, rfl⟩ (hset _ (hoffers.lives (hsent hsends))) ht.unresolved
    · rintro query ⟨⟩
      exact hoffers

theorem Bounds.schedule (ht : t.Bounds c) (hc : c.Capped) (accepts : Nat → Query → Bool) :
    (t.schedule accepts).2.Bounds c ∧
      ∀ v ∈ t.visits accepts, ∀ query, v.outcome.offered? = some query →
        Offers c t.initialTtl query.ttl := by
  have hpass := schedule_induction (P := fun vs t' => t.Alike t' ∧ t'.Bounds c ∧
      ∀ v ∈ vs, ∀ query, v.outcome.offered? = some query → Offers c t.initialTtl query.ttl)
    accepts t
    (fun _ => ⟨⟨rfl, rfl, rfl, rfl⟩,
      ht.congr ⟨rfl, rfl, rfl, rfl⟩ ht.request ht.unresolved, nofun⟩)
    (by
      rintro vs t₁ t₂ j e o ⟨halike, ht₁, hall⟩ he hbecomes
      obtain ⟨ht₂, hoffers⟩ := hbecomes.bounds ht₁ hc he
      rw [halike.initialTtl] at hoffers
      refine ⟨halike.trans hbecomes.alike, ht₂, ?_⟩
      exact List.forall_mem_append.2 ⟨hall, List.forall_mem_singleton.2 hoffers⟩)
  exact hpass.2

end Passes

section Events

variable {c : Tuning} {t : RequestTable ρ}

omit [RandomSource ρ]

theorem Lives.halved {bound : Int} {ttl : Int32} {lastSend : Option Int}
    (h : Lives bound ttl lastSend) : Lives bound (Int32.ofInt (ttl.toInt.tdiv 2)) lastSend := by
  have hnonneg := h.nonneg
  have hle := h.le
  have hfresh := h.fresh
  have hlt := ttl.toInt_lt
  have hhalf : ttl.toInt.tdiv 2 = ttl.toInt / 2 := Int.tdiv_eq_ediv_of_nonneg hnonneg
  rw [hhalf]
  have htoInt : (Int32.ofInt (ttl.toInt / 2)).toInt = ttl.toInt / 2 :=
    Int32.toInt_ofInt_of_le (by omega) (by omega)
  refine ⟨by omega, by omega, fun hnone => ?_⟩
  have hone := hfresh hnone
  omega

theorem Bounds.remove (ht : t.Bounds c) (node : NodeId) : (t.remove node).Bounds c := by
  by_cases hnode : node ∈ t.nodes
  · obtain ⟨e, -, hperm, -, hunresolved⟩ := remove_of_mem hnode
    refine ht.congr (alike_remove t node) ?_ ?_
    · exact fun d hd => ht.request d (hperm.mem_iff.2 (List.mem_cons_of_mem e hd))
    · rw [hunresolved, List.forall_mem_map]
      intro u hu
      have hlives := ht.unresolved u hu
      split <;> exact hlives
  · rwa [remove_of_not_mem hnode]

theorem Bounds.matchReply (ht : t.Bounds c) (hc : c.Capped) (s : Suite) (reply : Block) :
    (t.matchReply s reply).2.Bounds c where
  tuning := (tuning_matchReply s t reply).trans ht.tuning
  request := requests_matchReply s t reply ▸ ht.request
  unresolved := unresolved_matchReply s t reply ▸ ht.unresolved
  estimate := by
    unfold RequestTable.matchReply
    dsimp only
    split
    · rw [(alike_congestion _).initialTtl]
      exact ht.estimate
    · rename_i e hfind
      split
      · exact ht.estimate
      · rename_i last _
        have he := ht.request e (List.mem_reverse.1 (List.mem_of_find?_eq_some hfind))
        have hnext := ht.nextEstimate hc he.le last
        generalize t.nextEstimate e.query.ttl.toInt last = estimate at hnext ⊢
        exact hnext

/-- Requests are made with fresh queries. -/
def Event.Plain : Event → Prop
  | .upkeep (.call (.request _ _ query)) => query = .new query.hashes
  | _ => True

theorem Bounds.call (ht : t.Bounds c) {call : SchedulerCall}
    (hplain : Event.Plain (.upkeep (.call call))) : (t.call call).Bounds c := by
  cases call with
  | request node handler query =>
    have hplain : query = .new query.hashes := hplain
    have hone : query.ttl.toInt = 1 := by
      rw [hplain]
      rfl
    have hlongest : 1 ≤ c.longestTtl := by
      unfold Tuning.longestTtl
      omega
    have hlives : Lives c.longestTtl query.ttl none := ⟨by omega, by omega, fun _ => hone.le⟩
    exact ht.congr ⟨rfl, rfl, rfl, rfl⟩
      (List.forall_mem_append.2 ⟨ht.request, List.forall_mem_singleton.2 hlives⟩) ht.unresolved
  | update node query =>
    cases query with
    | none => exact ht.remove node
    | some query =>
      refine ht.congr ⟨rfl, rfl, rfl, rfl⟩ ?_ ht.unresolved
      intro e' he'
      obtain ⟨e, he, rfl | rfl⟩ := mem_modifyFirst he'
      · exact ht.request e' he
      · exact ⟨(ht.request e he).nonneg, (ht.request e he).le, nofun⟩
  | endgame =>
    refine ht.congr ⟨rfl, rfl, rfl, rfl⟩ ?_ ht.unresolved
    exact List.forall_mem_map.2 fun e he => (ht.request e he).halved
  | release node => exact ht.remove node

end Events

section Runs

variable {c : Tuning} {t : RequestTable ρ}

theorem Bounds.handle (ht : t.Bounds c) (hc : c.Capped) {ev : Event} (hplain : ev.Plain) :
    (t.handle ev).Bounds c := by
  cases ev with
  | upkeep u =>
    cases u with
    | call call => exact ht.call hplain
    | tick | observe | record => exact ⟨ht.tuning, ht.estimate, ht.request, ht.unresolved⟩
    | reply s block => exact ht.matchReply hc s block
    | abort => exact ht.congr ⟨rfl, rfl, rfl, rfl⟩ nofun (List.forall_mem_map.2 ht.unresolved)
  | pass accepts => exact (ht.schedule hc accepts).1
  | returnValue value => exact ht.settleOldest _
  | sendFailed => exact ht.settleOldest false

theorem Bounds.run (ht : t.Bounds c) (hc : c.Capped) {events : List Event}
    (hplain : ∀ ev ∈ events, ev.Plain) : (events.foldl RequestTable.handle t).Bounds c := by
  induction events generalizing t with
  | nil => exact ht
  | cons ev events ih =>
    obtain ⟨hfirst, hrest⟩ := List.forall_mem_cons.1 hplain
    exact ih (ht.handle hc hfirst) hrest

omit [RandomSource ρ] in
theorem bounds_new (hc : c.Capped) (random : ρ) (policy : Policy) (average : Nat) :
    (RequestTable.new c random policy average).Bounds c where
  tuning := rfl
  estimate := by
    have hinitial := hc.initial
    change c.initialTtl + c.ttlDecrement ≤ c.longestTtl
    unfold Tuning.longestTtl
    omega
  request := nofun
  unresolved := nofun

/-- Every query that is handed to the sender lives for a time that is not negative and at most twice
the cap and two decrements, or the cap, a decrement and 49 if that is longer. With a decrement of 49
or more it is at most the cap and two decrements as long as the estimate is at most half the cap. -/
theorem offered_ttl_le (hc : c.Capped) (random : ρ) (policy : Policy) (average : Nat)
    {events : List Event} (hplain : ∀ ev ∈ events, ev.Plain) (accepts : Nat → Query → Bool) :
    let t := events.foldl RequestTable.handle (new c random policy average)
    ∀ v ∈ t.visits accepts, ∀ query, v.outcome.offered? = some query →
      0 ≤ query.ttl.toInt ∧ query.ttl.toInt ≤ c.longestTtl ∧
        (49 ≤ c.ttlDecrement → 2 * t.initialTtl ≤ c.maxTtl →
          query.ttl.toInt ≤ c.maxTtl + 2 * c.ttlDecrement) := by
  intro t v hv query hquery
  have ht : t.Bounds c := (bounds_new hc random policy average).run hc hplain
  have hoffers := (ht.schedule hc accepts).2 v hv query hquery
  exact ⟨hoffers.nonneg, hoffers.le, hoffers.le_cap⟩

end Runs

theorem capped_default : Tuning.default.Capped := ⟨by decide, by decide, by decide, by decide⟩

/-- A first send. -/
theorem first_offer_ttl_le :
    let c : Tuning := .default
    let events : List Event := [.upkeep (.call (.request 0 .own (.new [zeroDigest])))]
    let t := events.foldl handle (new c () .open 0)
    let query : Query := ⟨1, 5000, [zeroDigest]⟩
    c.Capped ∧ (∀ ev ∈ events, ev.Plain) ∧
      ⟨⟨0, .own, .new [zeroDigest], none, 0, 0⟩, .offered query true⟩ ∈ t.visits (fun _ _ => true) ∧
      0 ≤ query.ttl.toInt ∧ query.ttl.toInt ≤ c.longestTtl ∧
      query.ttl.toInt ≤ c.maxTtl + 2 * c.ttlDecrement := by
  intro c events t query
  have hplain : ∀ ev ∈ events, ev.Plain := by simp [events, Event.Plain, Query.new]
  have hv : ⟨⟨0, .own, .new [zeroDigest], none, 0, 0⟩, .offered query true⟩ ∈
      t.visits (fun _ _ => true) := by decide +kernel
  obtain ⟨hnonneg, hle, hcap⟩ :=
    offered_ttl_le capped_default () .open 0 hplain (fun _ _ => true) _ hv query rfl
  exact ⟨capped_default, hplain, hv, hnonneg, hle, hcap (by decide) (by decide)⟩

end RequestTable

/-- A source that always draws the largest number. -/
inductive Highest
  | source

instance Highest.random : RandomSource Highest where
  below n r := (n - 1, r)
  shuffle n r := (List.range n, r)
  below_lt _ _ h := Nat.sub_one_lt_of_lt h
  shuffle_perm _ _ := .refl _

namespace RequestTable

/-- The first time to live is the cap, and the second doubles it and adds two decrements. -/
theorem second_ttl_above_cap :
    let c : Tuning := { Tuning.default with maxTtlFactor := 1 }
    let events : List Event :=
      [.upkeep (.call (.request 0 .own (.new [zeroDigest]))), .pass fun _ _ => true,
        .upkeep (.tick 20000)]
    let t := events.foldl handle (new c Highest.source .open 0)
    c.Capped ∧ c.maxTtl + 2 * c.ttlDecrement = 15000 ∧
      (t.visits fun _ _ => true).map (·.outcome) =
        [.offered ⟨2, 19999, [zeroDigest]⟩ true] := by
  refine ⟨⟨by decide, by decide, by decide, by decide⟩, by decide, by decide +kernel⟩

end RequestTable

end ContentTree

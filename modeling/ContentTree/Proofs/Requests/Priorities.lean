import ContentTree.Proofs.Requests.Histories
import ContentTree.Proofs.Requests.Operations

/-!
# What priorities queries are sent with

A query goes out with a priority that what the daemon sees on average allows for each block that it
asks for. Only while replies are counted it goes out with the priority that it has, whatever the
average is by then and however few blocks it still asks for. Each such send halves the replies that
its request counts, and a request counts one more when its query is replaced, so there are no more
of them than replacements.
-/

namespace ContentTree

namespace RequestTable

/-- The priority of a query that a visit offers: bounded by the average, or held as it was while
replies are counted. -/
structure Visit.Priced (average : Nat) (v : Visit) (query : Query) : Prop where
  bounded : v.request.replies = 0 → query.priority.toNat ≤ maxPriority average * fanOut query
  held : 0 < v.request.replies → query.priority = v.request.query.priority

/-- The visit offers a query of `node` while replies are counted. -/
def Visit.holds (node : NodeId) (v : Visit) : Bool :=
  v.request.node = node && 0 < v.request.replies && v.outcome.offered?.isSome

/-- The operation replaces the query of a request of `node`. -/
def replaces {ρ : Type} (t : RequestTable ρ) (node : NodeId) : Operation → Bool
  | .event (.upkeep (.call (.update n (some _)))) => n = node && n ∈ t.nodes
  | _ => false

/-! ### The bound -/

section Bound

variable {ρ : Type} [RandomSource ρ] {t t' : RequestTable ρ} {j : Nat} {e e' : Request}
  {o : Outcome}

theorem grownPriority_le (t : RequestTable ρ) (q : Query) (base : Int) (tries : Nat) (r : ρ) :
    (t.grownPriority q base tries r).1 ≤ maxPriority t.average * fanOut q := by
  unfold grownPriority
  generalize drawBelow (tries : Int) r = draw
  obtain ⟨extra, r⟩ := draw
  dsimp only
  have hlimit : (0 : Int) ≤ maxPriority t.average * fanOut q :=
    Int.mul_nonneg (Int.natCast_nonneg _) (Int.natCast_nonneg _)
  generalize (maxPriority t.average * fanOut q : Int) = limit at hlimit ⊢
  split
  · have hhalf : limit.tdiv 2 = limit / 2 := Int.tdiv_eq_ediv_of_nonneg hlimit
    have hdraw := (drawBelow_mem (1 + limit.tdiv 2) r).2
    dsimp only
    omega
  · rename_i hle
    exact Int.not_lt.1 hle

theorem Sends.priced {base : Nat} (h : t.Sends e e' base) (o : Outcome) :
    Visit.Priced t.average ⟨e, o⟩ e'.query where
  bounded hreplies := by
    have hpriority := h.priority
    rw [if_neg (Nat.not_lt.2 hreplies.le)] at hpriority
    obtain ⟨r, hpriority⟩ := hpriority
    have hle := t.grownPriority_le e.query base e'.tries r
    have hsame : fanOut e'.query = fanOut e.query := by
      unfold fanOut
      rw [h.question.2.2]
    have hlimit : (0 : Int) ≤ maxPriority t.average * fanOut e.query :=
      Int.mul_nonneg (Int.natCast_nonneg _) (Int.natCast_nonneg _)
    unfold clampTo at hpriority
    rw [hsame]
    have hbound : (e'.query.priority.toNat : Int) ≤ maxPriority t.average * fanOut e.query := by
      omega
    exact_mod_cast hbound
  held hreplies := by
    have hpriority := h.priority
    rwa [if_pos hreplies] at hpriority

theorem Becomes.priced (h : t.Becomes j e o t') (query : Query) (hquery : o.offered? = some query) :
    Visit.Priced t.average ⟨e, o⟩ query := by
  cases h with
  | left => cases hquery
  | vetoed => cases hquery
  | accepted policy random stats hdue hsends =>
    obtain rfl := Option.some.inj hquery
    exact hsends.priced _
  | refused policy random stats hdue hsends =>
    obtain rfl := Option.some.inj hquery
    exact hsends.priced _

theorem priced_visits (accepts : Nat → Query → Bool) (t : RequestTable ρ) :
    ∀ v ∈ t.visits accepts, ∀ query, v.outcome.offered? = some query →
      v.Priced t.average query := by
  refine forall_visits accepts t fun t₁ t₂ j e o halike hbecomes => ?_
  have hpriced := hbecomes.priced
  rwa [halike.average] at hpriced

end Bound

/-! ### Replies that are counted -/

/-- Replies that the requests of `node` count. -/
def repliesOf (node : NodeId) (es : List Request) : Nat :=
  (es.map fun e => if e.node = node then e.replies else 0).sum

section Replies

variable {node n : NodeId} {es es' : List Request} {e e' : Request} {f : Request → Request}
  {j : Nat}

theorem repliesOf_cons :
    repliesOf node (e :: es) = (if e.node = node then e.replies else 0) + repliesOf node es := by
  simp [repliesOf]

theorem repliesOf_perm (h : es.Perm es') : repliesOf node es = repliesOf node es' :=
  (h.map _).sum_nat

theorem repliesOf_map (hf : ∀ e, (f e).node = e.node ∧ (f e).replies = e.replies) :
    repliesOf node (es.map f) = repliesOf node es := by
  simp only [repliesOf, List.map_map, Function.comp_def, hf]

theorem repliesOf_set (node : NodeId) (he : es[j]? = some e) (hnode : e'.node = e.node) :
    repliesOf node (es.set j e') + (if e.node = node then e.replies else 0) =
      repliesOf node es + if e.node = node then e'.replies else 0 := by
  induction es generalizing j with
  | nil => cases he
  | cons d es ih =>
    cases j with
    | zero =>
      obtain rfl : d = e := Option.some.inj he
      rw [List.set_cons_zero, repliesOf_cons, repliesOf_cons, hnode]
      omega
    | succ j =>
      rw [List.set_cons_succ, repliesOf_cons, repliesOf_cons]
      have hrest := ih he
      omega

theorem repliesOf_modifyFirst_le (k : Nat)
    (hf : ∀ e, (f e).node = e.node ∧ (f e).replies ≤ e.replies + k) :
    repliesOf node (modifyFirst f n es) ≤ repliesOf node es + if n = node then k else 0 := by
  induction es with
  | nil => exact Nat.zero_le _
  | cons d es ih =>
    obtain ⟨hnode, hreplies⟩ := hf d
    unfold modifyFirst
    split
    · rename_i hd
      rw [repliesOf_cons, repliesOf_cons, hnode, hd]
      split <;> omega
    · rw [repliesOf_cons, repliesOf_cons]
      omega

end Replies

section Count

variable {ρ : Type} {t t' : RequestTable ρ} {node : NodeId} {j : Nat} {e : Request} {o : Outcome}

theorem repliesOf_settle_false_le (t : RequestTable ρ) (u : Unresolved) (node : NodeId) :
    repliesOf node (t.settle u false).requests ≤ repliesOf node t.requests := by
  obtain ⟨requests, hsettle, rfl | ⟨n, rfl⟩⟩ := t.settle_false u
  · rw [hsettle]
  · rw [hsettle]
    have hle : repliesOf node (modifyFirst (reverted u) n t.requests) ≤
        repliesOf node t.requests + if n = node then 0 else 0 :=
      repliesOf_modifyFirst_le 0 fun _ => ⟨rfl, Nat.le_refl _⟩
    simpa using hle

theorem repliesOf_settleOldest_le (t : RequestTable ρ) (ok : Bool) (node : NodeId) :
    repliesOf node (t.settleOldest ok).requests ≤ repliesOf node t.requests := by
  unfold settleOldest
  split
  · exact Nat.le_refl _
  · cases ok with
    | true => rw [requests_settle_true]
    | false => exact repliesOf_settle_false_le _ _ node

theorem repliesOf_remove_le (t : RequestTable ρ) (n node : NodeId) :
    repliesOf node (t.remove n).requests ≤ repliesOf node t.requests := by
  by_cases hn : n ∈ t.nodes
  · obtain ⟨d, -, hperm, -, -⟩ := remove_of_mem hn
    rw [repliesOf_perm hperm, repliesOf_cons]
    exact Nat.le_add_left _ _
  · rw [remove_of_not_mem hn]

/-- Without a request of the node there is no query to replace. -/
theorem repliesOf_update_le (t : RequestTable ρ) (n node : NodeId) (query : Query) :
    repliesOf node (t.call (.update n (some query))).requests ≤ repliesOf node t.requests +
      if t.replaces node (.event (.upkeep (.call (.update n (some query))))) then 1 else 0 := by
  change repliesOf node (modifyFirst _ n t.requests) ≤ _
  by_cases hn : n ∈ t.nodes
  · refine (repliesOf_modifyFirst_le 1 ?_).trans_eq ?_
    · exact fun _ => ⟨rfl, Nat.le_refl _⟩
    · simp [replaces, hn]
  · have hnone : t.requests.find? (·.node = n) = none := by
      rw [List.find?_eq_none]
      intro e he
      rw [decide_eq_true_eq]
      rintro rfl
      exact hn (List.mem_map_of_mem he)
    rw [modifyFirst_of_none _ hnone]
    exact Nat.le_add_right _ _

theorem repliesOf_call_le (t : RequestTable ρ) (c : SchedulerCall) (node : NodeId) :
    repliesOf node (t.call c).requests ≤ repliesOf node t.requests +
      if t.replaces node (.event (.upkeep (.call c))) then 1 else 0 := by
  cases c with
  | request n handler query =>
    change repliesOf node (t.requests ++ [_]) ≤ _
    simp [repliesOf]
  | update n query =>
    cases query with
    | none => exact repliesOf_remove_le t n node
    | some query => exact repliesOf_update_le t n node query
  | endgame =>
    change repliesOf node (t.requests.map _) ≤ _
    exact le_of_eq (repliesOf_map fun _ => ⟨rfl, rfl⟩)
  | release n => exact repliesOf_remove_le t n node

variable [RandomSource ρ]

/-- A query that is offered while replies are counted takes one of them at least. -/
theorem Becomes.repliesOf_le (h : t.Becomes j e o t') (he : t.requests[j]? = some e)
    (node : NodeId) :
    repliesOf node t'.requests + (if Visit.holds node ⟨e, o⟩ then 1 else 0) ≤
      repliesOf node t.requests := by
  have hoffered : ∀ {e' base} (accepted : Bool), t.Sends e e' base →
      repliesOf node (t.requests.set j e') +
        (if Visit.holds node ⟨e, .offered e'.query accepted⟩ then 1 else 0) ≤
          repliesOf node t.requests := by
    intro e' base accepted hsends
    have hset := repliesOf_set node he hsends.question.1
    have hhalf := hsends.replies
    by_cases hholds : e.node = node ∧ 0 < e.replies
    · simp only [hholds.1, if_true] at hset
      simp only [Visit.holds, hholds.1, hholds.2, Outcome.offered?, Option.isSome_some,
        decide_true, Bool.and_self, if_true]
      omega
    · have hnot : ¬ Visit.holds node ⟨e, .offered e'.query accepted⟩ = true := by
        simp [Visit.holds, Outcome.offered?, -not_and, hholds]
      rw [if_neg hnot]
      split at hset <;> omega
  cases h with
  | left => simp [Visit.holds, Outcome.offered?]
  | @vetoed e' policy random hdue hdelays =>
    obtain ⟨-, grown, kept, -, heq⟩ := hdelays
    have hnode : e'.node = e.node := by rw [heq]
    have hreplies : e'.replies = e.replies := by rw [heq]
    have hset := repliesOf_set node he hnode
    simp only [Visit.holds, Outcome.offered?, Option.isSome_none, Bool.and_false,
      Bool.false_eq_true, if_false]
    rw [hreplies] at hset
    omega
  | accepted policy random stats hdue hsends => exact hoffered true hsends
  | refused policy random stats hdue hsends =>
    exact (Nat.add_le_add_right (repliesOf_settle_false_le _ _ node) _).trans
      (hoffered false hsends)

theorem repliesOf_schedule_le (accepts : Nat → Query → Bool) (t : RequestTable ρ) (node : NodeId) :
    repliesOf node (t.schedule accepts).2.requests +
      (t.visits accepts).countP (Visit.holds node) ≤ repliesOf node t.requests :=
  schedule_induction
    (P := fun vs t' => repliesOf node t'.requests + vs.countP (Visit.holds node) ≤
      repliesOf node t.requests)
    accepts t (fun _ => Nat.le_refl _)
    fun vs t₁ t₂ j e o hle he hbecomes => by
      have hvisit := hbecomes.repliesOf_le he node
      rw [List.countP_append, List.countP_singleton]
      omega

theorem repliesOf_perform_le (t : RequestTable ρ) (op : Operation) (node : NodeId) :
    repliesOf node (t.perform op).requests + (t.visitsBy op).countP (Visit.holds node) ≤
      repliesOf node t.requests + if t.replaces node op then 1 else 0 := by
  cases op with
  | event e =>
    cases e with
    | upkeep u =>
      cases u with
      | call c => exact repliesOf_call_le t c node
      | tick | observe | record => exact Nat.le_add_right _ _
      | reply s block =>
        change repliesOf node (t.matchReply s block).2.requests ≤ _
        rw [requests_matchReply]
        exact Nat.le_add_right _ _
      | abort => exact Nat.zero_le _
    | pass accepts => exact repliesOf_schedule_le accepts t node
    | returnValue value => exact repliesOf_settleOldest_le t _ node
    | sendFailed => exact repliesOf_settleOldest_le t false node
  | takeWake => exact Nat.le_add_right _ _
  | clear => exact Nat.zero_le _

/-- The requests of a node pay with a reply for each query that goes out with its priority held. -/
theorem repliesOf_after_le (t : RequestTable ρ) (ops : List Operation) (node : NodeId) :
    repliesOf node (t.after ops).requests +
        ((t.course ops).flatMap fun s => s.1.visitsBy s.2).countP (Visit.holds node) ≤
      repliesOf node t.requests + (t.course ops).countP fun s => s.1.replaces node s.2 := by
  induction ops generalizing t with
  | nil => exact Nat.le_refl _
  | cons op ops ih =>
    have hrest := ih (t.perform op)
    have hfirst := t.repliesOf_perform_le op node
    rw [course, List.flatMap_cons, List.countP_append, List.countP_cons]
    dsimp only
    change repliesOf node ((t.perform op).after ops).requests +
      ((t.visitsBy op).countP _ + _) ≤ _
    omega

/-- Every query that is offered while its request counts no reply has a priority that the average
allows for the blocks that it asks for; one that is offered while replies are counted has the
priority that it had. Of a node no more queries are offered so than were replaced. -/
theorem offered_priority_le (tuning : Tuning) (random : ρ) (policy : Policy) (average : Nat)
    (ops : List Operation) :
    let course := (new tuning random policy average).course ops
    (∀ s ∈ course, ∀ v ∈ s.1.visitsBy s.2, ∀ query, v.outcome.offered? = some query →
      v.Priced s.1.average query) ∧
    ∀ node, (course.flatMap fun s => s.1.visitsBy s.2).countP (Visit.holds node) ≤
      course.countP fun s => s.1.replaces node s.2 := by
  intro course
  constructor
  · intro s _ v hv
    obtain ⟨t, op⟩ := s
    cases op with
    | event e =>
      cases e with
      | pass accepts => exact priced_visits accepts t v hv
      | upkeep | returnValue | sendFailed => cases hv
    | takeWake | clear => cases hv
  · intro node
    have hle := (new tuning random policy average).repliesOf_after_le ops node
    exact (Nat.le_add_left _ _).trans (hle.trans_eq (Nat.zero_add _))

end Count

/-- A reply comes, and before the next send the average falls from 1000 to nothing. -/
theorem held_priority_above_average :
    let ops : List Operation :=
      [.event (.upkeep (.observe 1000)),
        .event (.upkeep (.call (.request 0 .own ⟨1000, 1, [zeroDigest]⟩))),
        .event (.pass fun _ _ => true),
        .event (.upkeep (.call (.update 0 (some (.new [zeroDigest]))))),
        .event (.upkeep (.observe 0)), .event (.upkeep (.tick 30000))]
    let t := (new Tuning.default () .open 0).after ops
    let query : Query := ⟨1000, 5000, [zeroDigest]⟩
    (t.visits fun _ _ => true).map (·.outcome) = [.offered query true] ∧
      maxPriority t.average * fanOut query = 4 := by
  decide +kernel

end RequestTable

end ContentTree

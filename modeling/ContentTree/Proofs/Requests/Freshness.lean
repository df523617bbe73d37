import ContentTree.Proofs.Requests.Histories

/-!
# The first send of a request

The time to live starts from the estimate as long as a request counts as never sent. A request that
is passed over, or whose query the sender refuses, counts as never sent still. One that the policy
holds back waits as if it was sent, and so does one whose query is replaced: its first query goes
out with a time to live that has grown from the least, or that has not grown at all.

The sums and products are those of the integers. Machine numbers give the same in every run that
the settings leave room for (`Tuning.LeavesRoom`), as long as its events are moderate
(`Event.Moderate`).
-/

namespace ContentTree

namespace RequestTable

/-- The turn makes the request count as sent without a send. -/
def Turn.Ages : Turn → Prop
  | .visited ⟨_, .vetoed⟩ => True
  | .updated => True
  | _ => False

variable {ρ : Type} [RandomSource ρ] {t : RequestTable ρ} {s s' : Strand} {e : Request}

theorem Changes.offered {query : Query} {ok : Bool}
    (h : t.Changes s (.visited ⟨e, .offered query ok⟩) s') :
    s.request = e ∧ ∃ e' base, t.Sends e e' base ∧ e'.query = query := by
  cases h with
  | accepted hsends => exact ⟨rfl, _, _, hsends, rfl⟩
  | refused hsends => exact ⟨rfl, _, _, hsends, rfl⟩

theorem grownTtl_of_fresh (t : RequestTable ρ) (hfresh : e.lastSend = none) :
    t.grownTtl e = ((signed64 t.initialTtl, e.query.ttl), t.random) := by
  unfold grownTtl
  rw [if_pos (Option.isNone_iff_eq_none.2 hfresh)]

theorem Grows.of_fresh {grown : Int} {kept : Int32} (h : t.Grows e grown kept)
    (hfresh : e.lastSend = none) : grown = signed64 t.initialTtl := by
  obtain ⟨r, hgrown⟩ := h
  rw [grownTtl_of_fresh _ hfresh, Prod.mk.injEq] at hgrown
  exact hgrown.1.symm

/-- A request that counts as never sent starts from the estimate. -/
theorem Sends.ttl_of_fresh {e' : Request} {base : Nat} (h : t.Sends e e' base)
    (hfresh : e.lastSend = none) (hreplies : e.replies = 0) :
    e'.query.ttl.toInt = clampTo 0 Int32.maxValue.toInt
      (min (signed64 t.initialTtl) ((base + 8) * t.decrement)) := by
  obtain ⟨grown, kept, hgrows, httl⟩ := h.ttl
  rw [if_neg (by omega)] at httl
  rw [httl, hgrows.of_fresh hfresh]

/-- Before the first send nothing waits, and no reply comes while the request counts as never
sent. -/
structure Unsent (turns : List Turn) (s : Strand) : Prop where
  awaiting : s.awaiting = []
  fresh : s.request.lastSend = none ↔ ∀ turn ∈ turns, ¬ turn.Ages
  replies : s.request.lastSend = none → s.request.replies = 0

theorem Unsent.kept {turns : List Turn} {turn : Turn} (h : Unsent turns s)
    (hage : ¬ turn.Ages) (hawaiting : s'.awaiting = s.awaiting)
    (hlast : s'.request.lastSend = s.request.lastSend)
    (hreplies : s'.request.replies ≤ s.request.replies) : Unsent (turns ++ [turn]) s' where
  awaiting := hawaiting.trans h.awaiting
  fresh := by
    rw [hlast, h.fresh, List.forall_mem_append, List.forall_mem_singleton]
    exact (and_iff_left hage).symm
  replies hfresh := by
    have hnone := h.replies (hlast ▸ hfresh)
    omega

theorem Unsent.aged {turns : List Turn} {turn : Turn} {time : Int} (h : Unsent turns s)
    (hage : turn.Ages) (hawaiting : s'.awaiting = s.awaiting)
    (hlast : s'.request.lastSend = some time) : Unsent (turns ++ [turn]) s' where
  awaiting := hawaiting.trans h.awaiting
  fresh := by
    rw [hlast]
    exact iff_of_false nofun fun hall => hall turn (by simp) hage
  replies hfresh := nomatch hlast.symm.trans hfresh

theorem Unsent.step {turns : List Turn} {turn : Turn} (h : Unsent turns s)
    (hchanges : t.Changes s turn s') (hunsent : turn.sent? = none) :
    Unsent (turns ++ [turn]) s' := by
  cases hchanges with
  | left => exact h.kept id rfl rfl le_rfl
  | vetoed hdelays =>
    obtain ⟨r, hlast⟩ := hdelays.lastSend
    exact h.aged trivial rfl hlast
  | accepted => cases hunsent
  | refused hsends =>
    refine h.kept id rfl rfl ?_
    exact hsends.replies ▸ Nat.div_le_self _ 2
  | updated => exact h.aged trivial rfl rfl
  | halved => exact h.kept id rfl rfl le_rfl
  -- Nothing waits for a verdict before the first send.
  | confirmed holdest | failed holdest => cases h.awaiting.symm.trans holdest

end RequestTable

namespace Register

open RequestTable

variable {ρ : Type} [RandomSource ρ]

/-- As long as the sender accepted no query of a request, it counts as never sent if and only if the
policy held it back in no pass and its query was not replaced. Then the query that goes out has the
estimate for its time to live, bounded by what its priority allows and cut to the range of the wire;
a priority that is too large to be carried over counts as it is drawn anew. -/
theorem first_send_ttl (tuning : Tuning) (random : ρ) (policy : Policy) (average : Nat)
    {past later : List RequestTable.Event} {node : NodeId} {handler : ReplyHandler} {asked : Query}
    (horderly : (start tuning random policy average).Orderly
      (past ++ .upkeep (.call (.request node handler asked)) :: later))
    (hkeeps : ∀ e ∈ later, e.Keeps node) :
    let queued := ((start tuning random policy average).run past).table.call
      (.request node handler asked)
    let turns := queued.history node later
    let t := later.foldl handle queued
    sends turns = [] → ∀ accepts, ∀ v ∈ t.visits accepts, v.request.node = node →
      ∀ query ok, v.outcome = .offered query ok →
        (v.request.lastSend = none ↔ ∀ turn ∈ turns, ¬ turn.Ages) ∧
        (v.request.lastSend = none → ∃ base : Nat,
          (v.request.query.priority.toNat ≤ priorityBound →
            base = v.request.query.priority.toNat) ∧
          (priorityBound < v.request.query.priority.toNat → base < priorityBound) ∧
          query.ttl.toInt = clampTo 0 Int32.maxValue.toInt
            (min (signed64 t.initialTtl) ((base + 8) * t.decrement))) := by
  intro queued turns t hunsent accepts v hv hnode query ok hoffered
  obtain ⟨hpast, hadmits, hlater⟩ := orderly_append.1 horderly
  have hx := (traced_start tuning random policy average).run hpast
  let y := ((start tuning random policy average).run past).step
    (.upkeep (.call (.request node handler asked)))
  have hy : y.Traced := hx.step hadmits
  obtain ⟨s, hs, hcarries, hunsent'⟩ := hy.history_induction hlater
    (s := ⟨⟨node, handler, asked, none, 0, 0⟩, []⟩)
    (P := fun turns s => sends turns = [] → Unsent turns s) hkeeps
    (hx.carries_request handler asked hadmits)
    (fun _ => ⟨rfl, iff_of_true rfl nofun, fun _ => rfl⟩)
    (by
      intro _ _ turns s₁ turn s₂ ih hchanges hunsent
      rw [sends_append, sends_singleton, List.append_eq_nil_iff] at hunsent
      exact (ih hunsent.1).step hchanges (Option.toList_eq_nil_iff.1 hunsent.2))
  have ht : (y.run later).table = t := table_run y later
  have hnodup := (hy.run hlater).nodup
  rw [ht] at hcarries hnodup
  have hfirst : Unsent turns s := hunsent' hunsent
  obtain ⟨s', hchanges, -⟩ := changes_of_mem_visits accepts hnodup hcarries hv (hnode.trans hs.symm)
  obtain ⟨e, o⟩ := v
  obtain rfl : o = .offered query ok := hoffered
  obtain ⟨rfl, e', base, hsends, rfl⟩ := hchanges.offered
  refine ⟨hfirst.fresh, fun hfresh => ⟨base, hsends.base_eq, hsends.base_lt, ?_⟩⟩
  exact hsends.ttl_of_fresh hfresh (hfirst.replies hfresh)

/-- The first send is refused, and the next is accepted. -/
theorem first_send_after_refusal :
    let asked : Query := .new [zeroDigest]
    let later : List RequestTable.Event := [.pass fun _ _ => false]
    let queued := (start Tuning.default () .open 0).table.call (.request 0 .own asked)
    let t := later.foldl handle queued
    let v : Visit := ⟨⟨0, .own, asked, none, 0, 0⟩, .offered ⟨1, 5000, [zeroDigest]⟩ true⟩
    (start Tuning.default () .open 0).Orderly
        (.upkeep (.call (.request 0 .own asked)) :: later) ∧
      (∀ e ∈ later, e.Keeps 0) ∧ sends (queued.history 0 later) = [] ∧
      v ∈ t.visits (fun _ _ => true) ∧ ∀ turn ∈ queued.history 0 later, ¬ turn.Ages := by
  intro asked later queued t v
  have horderly : (start Tuning.default () .open 0).Orderly
      ([] ++ .upkeep (.call (.request 0 .own asked)) :: later) := by decide
  have hkeeps : ∀ e ∈ later, e.Keeps 0 := by simp [later, Event.Keeps]
  have hunsent : sends (queued.history 0 later) = [] := by decide +kernel
  have hv : v ∈ t.visits (fun _ _ => true) := by decide +kernel
  have hfirst := first_send_ttl Tuning.default () .open 0 horderly hkeeps hunsent (fun _ _ => true)
    v hv rfl _ true rfl
  exact ⟨horderly, hkeeps, hunsent, hv, hfirst.1.1 rfl⟩

/-- The times to live of the queries that a pass sends after a request for node 0. -/
def ttlsAfter (tuning : Tuning) (policy : Policy) (asked : Query)
    (events : List RequestTable.Event) : List Int :=
  let queued := (RequestTable.new tuning () policy 0).call (.request 0 .own asked)
  (schedule (fun _ _ => true) (events.foldl handle queued)).1.sent.map (·.ttl.toInt)

/-- The estimate, bounded by what the priority allows. -/
def startTtl (tuning : Tuning) (asked : Query) : Int :=
  min (signed64 tuning.initialTtl) ((asked.priority.toNat + 8) * signed64 tuning.ttlDecrement)

/-- The first query goes out with another time to live after the policy held it back, after it was
replaced, with an estimate too large for the wire, with a priority too large to be carried over, and
when another request of the node is outstanding. -/
theorem first_send_not_from_estimate :
    let asked : Query := .new [zeroDigest]
    let high : Query := ⟨0xffffff, 1, [zeroDigest]⟩
    let higher : Query := ⟨0x1000000, 1, [zeroDigest]⟩
    let slow (n : Nat) : Tuning := { Tuning.default with initialTtl := n }
    (ttlsAfter .default (.traffic (.new 0 5)) asked
        [.pass fun _ _ => true, .upkeep (.record none 10000 1), .upkeep (.tick 20000)] = [1] ∧
      ttlsAfter .default .open asked
        [.upkeep (.call (.update 0 (some asked))), .upkeep (.tick 20000)] = [1] ∧
      ttlsAfter .default .open asked
        [.upkeep (.call (.request 0 .own asked)), .pass fun _ _ => false,
          .upkeep (.call .endgame), .upkeep (.tick 30000)] = [5000, 2500] ∧
      startTtl .default asked = 5000) ∧
    (ttlsAfter (slow (2 ^ 40)) .open high [] = [2147483647] ∧
      startTtl (slow (2 ^ 40)) high = 83886115000) ∧
    (ttlsAfter (slow (2 ^ 20)) .open higher [] = [40000] ∧
      startTtl (slow (2 ^ 20)) higher = 1048576) := by
  decide +kernel

end Register

end ContentTree

import Mathlib.Data.List.Induction
import ContentTree.Proofs.Requests.Retries
import ContentTree.Proofs.Requests.Visits

/-!
# The history of a request

While a request is outstanding, passes visit it, calls of the tree replace its query or halve its
time to live, and verdicts come for the sends of it that wait. Nothing else changes the request or
these sends, so what becomes of it can be told from its own history.
-/

namespace ContentTree

namespace RequestTable

/-- What can happen to a request while it is outstanding. -/
inductive Turn
  | visited (v : Visit)
  /-- Its query is replaced. -/
  | updated
  /-- Its time to live is halved. -/
  | halved
  /-- The oldest send of it that waits gets its verdict. -/
  | judged (ok : Bool)
  deriving DecidableEq

namespace Turn

/-- The request before a send that the sender accepted. -/
def sent? : Turn → Option Request
  | .visited ⟨e, .offered _ true⟩ => some e
  | _ => none

def verdict? : Turn → Option Bool
  | .judged ok => some ok
  | _ => none

end Turn

/-- The request before each send that the sender accepted. -/
def sends (turns : List Turn) : List Request := turns.filterMap Turn.sent?

def verdicts (turns : List Turn) : List Bool := turns.filterMap Turn.verdict?

theorem sends_append (turns later : List Turn) :
    sends (turns ++ later) = sends turns ++ sends later :=
  List.filterMap_append

theorem verdicts_append (turns later : List Turn) :
    verdicts (turns ++ later) = verdicts turns ++ verdicts later :=
  List.filterMap_append

theorem sends_singleton (turn : Turn) : sends [turn] = turn.sent?.toList := by
  cases h : turn.sent? <;> simp [sends, h]

theorem verdicts_singleton (turn : Turn) : verdicts [turn] = turn.verdict?.toList := by
  cases h : turn.verdict? <;> simp [verdicts, h]

/-- The event does not remove the request of `node`. -/
def Event.Keeps (node : NodeId) : Event → Prop
  | .upkeep (.call (.update n none)) => n ≠ node
  | .upkeep (.call (.release n)) => n ≠ node
  | .upkeep .abort => False
  | _ => True

/-- A request, and what undoes the sends of its node that wait, oldest first. -/
structure Strand where
  request : Request
  awaiting : List Unresolved

variable {ρ : Type}

/-- What undoes the sends of `node` that wait, oldest first. -/
def awaiting (t : RequestTable ρ) (node : NodeId) : List Unresolved :=
  t.unresolved.filter (·.node = some node)

/-- The next verdict is for a send of `node`. -/
def Judges (t : RequestTable ρ) (node : NodeId) : Prop :=
  t.unresolved.head?.bind (·.node) = some node

instance (t : RequestTable ρ) (node : NodeId) : Decidable (t.Judges node) :=
  inferInstanceAs (Decidable (_ = _))

structure Carries (t : RequestTable ρ) (s : Strand) : Prop where
  mem : s.request ∈ t.requests
  awaiting : t.awaiting s.request.node = s.awaiting

variable [RandomSource ρ]

/-- What an event is for the request of `node`. -/
def turn? (node : NodeId) (t : RequestTable ρ) : Event → Option Turn
  | .upkeep (.call (.update n (some _))) => if n = node then some .updated else none
  | .upkeep (.call .endgame) => some .halved
  | .pass accepts => ((t.visits accepts).find? (·.request.node = node)).map .visited
  | .returnValue value => if t.Judges node then some (.judged (value = returnOk)) else none
  | .sendFailed => if t.Judges node then some (.judged false) else none
  | _ => none

/-- What the events are for the request of `node`. -/
def history (node : NodeId) : RequestTable ρ → List Event → List Turn
  | _, [] => []
  | t, e :: events => (t.turn? node e).toList ++ history node (t.handle e) events

theorem history_append (node : NodeId) (t : RequestTable ρ) (events later : List Event) :
    t.history node (events ++ later) =
      t.history node events ++ (events.foldl handle t).history node later := by
  induction events generalizing t with
  | nil => rfl
  | cons e events ih =>
    rw [List.cons_append, history, ih, history, List.append_assoc, List.foldl_cons]

/-- What one turn makes of a request and of the sends of it that wait. -/
inductive Changes (t : RequestTable ρ) (s : Strand) : Turn → Strand → Prop
  | left : Changes t s (.visited ⟨s.request, .left⟩) s
  | vetoed {e' : Request} (hdelays : t.Delays s.request e') :
      Changes t s (.visited ⟨s.request, .vetoed⟩) ⟨e', s.awaiting⟩
  | accepted {e' : Request} {base : Nat} (hsends : t.Sends s.request e' base) :
      Changes t s (.visited ⟨s.request, .offered e'.query true⟩)
        ⟨e', s.awaiting ++ [undoing s.request base]⟩
  | refused {e' : Request} {base : Nat} (hsends : t.Sends s.request e' base) :
      Changes t s (.visited ⟨s.request, .offered e'.query false⟩)
        ⟨reverted (undoing s.request base) e', s.awaiting⟩
  | updated (hashes : List Digest) :
      Changes t s .updated
        ⟨{ s.request with
            query := { s.request.query with hashes := hashes }
            replies := s.request.replies + 1
            lastSend := some (t.now + 2 * t.decrement) }, s.awaiting⟩
  | halved :
      Changes t s .halved
        ⟨{ s.request with
            query :=
              { s.request.query with ttl := Int32.ofInt (s.request.query.ttl.toInt.tdiv 2) } },
          s.awaiting⟩
  | confirmed {u : Unresolved} {us : List Unresolved} (holdest : s.awaiting = u :: us) :
      Changes t s (.judged true) ⟨s.request, us⟩
  | failed {u : Unresolved} {us : List Unresolved} (holdest : s.awaiting = u :: us)
      (hnode : u.node = some s.request.node) :
      Changes t s (.judged false) ⟨reverted u s.request, us⟩

theorem Changes.node {t : RequestTable ρ} {s s' : Strand} {turn : Turn}
    (h : t.Changes s turn s') : s'.request.node = s.request.node := by
  cases h with
  | vetoed hdelays =>
    obtain ⟨-, grown, kept, -, heq⟩ := hdelays
    rw [heq]
  | accepted hsends => exact hsends.question.1
  | refused hsends => exact hsends.question.1
  | left | updated | halved | confirmed | failed => rfl

theorem Changes.length_awaiting {t : RequestTable ρ} {s s' : Strand} {turn : Turn}
    (h : t.Changes s turn s') :
    s'.awaiting.length + turn.verdict?.toList.length =
      s.awaiting.length + turn.sent?.toList.length := by
  cases h with
  | accepted hsends => exact List.length_append
  | confirmed holdest | failed holdest => rw [holdest]; rfl
  | left | vetoed | refused | updated | halved => rfl

/-- Each send adds a try, and each failure takes one off. -/
theorem Changes.tries {t : RequestTable ρ} {s s' : Strand} {turn : Turn}
    (h : t.Changes s turn s') (hs : s.awaiting.length ≤ s.request.tries) :
    s'.request.tries + turn.verdict?.toList.count false =
      s.request.tries + turn.sent?.toList.length := by
  cases h with
  | vetoed hdelays =>
    obtain ⟨-, grown, kept, -, heq⟩ := hdelays
    rw [heq]
    rfl
  | accepted hsends => exact hsends.tries
  | @refused e' base hsends =>
    change e'.tries - 1 = s.request.tries
    rw [hsends.tries, Nat.add_sub_cancel]
  | failed holdest =>
    rw [holdest, List.length_cons] at hs
    change s.request.tries - 1 + 1 = s.request.tries
    omega
  | left | updated | halved | confirmed => rfl

/-! ### Passes -/

section Passes

variable {t t' : RequestTable ρ} {j : Nat} {e : Request} {o : Outcome}

/-- A visit to a request of another node changes nothing. -/
theorem Becomes.awaiting_of_ne {node : NodeId} (h : t.Becomes j e o t') (hne : e.node ≠ node) :
    t'.awaiting node = t.awaiting node := by
  cases h with
  | left => rfl
  | vetoed => rfl
  | @accepted e' base =>
    have hother : ¬ (undoing e base).node = some node := fun heq => hne (Option.some.inj heq)
    simp [awaiting, List.filter_append, hother]
  | refused => rw [awaiting, unresolved_settle, awaiting]

theorem Becomes.changes {t₀ : RequestTable ρ} (h : t.Becomes j e o t') (halike : t₀.Alike t)
    (he : t.requests[j]? = some e) (hfirst : Foremost t.requests j e.node) :
    ∃ e', t'.requests[j]? = some e' ∧
      t₀.Changes ⟨e, t.awaiting e.node⟩ (.visited ⟨e, o⟩) ⟨e', t'.awaiting e.node⟩ := by
  have hlt := (List.getElem?_eq_some_iff.1 he).1
  cases h with
  | left => exact ⟨e, he, .left⟩
  | @vetoed e' policy random hdue hdelays =>
    exact ⟨e', List.getElem?_set_self hlt, .vetoed (halike.delays hdelays)⟩
  | @accepted e' base policy random stats hdue hsends =>
    have hawaiting : ∀ us : List Unresolved,
        (us ++ [undoing e base]).filter (·.node = some e.node) =
          us.filter (·.node = some e.node) ++ [undoing e base] := by
      intro us
      simp [List.filter_append, undoing]
    refine ⟨e', List.getElem?_set_self hlt, ?_⟩
    unfold awaiting
    rw [hawaiting]
    exact .accepted (halike.sends hsends)
  | @refused e' base policy random stats hdue hsends =>
    rw [settle_undoing base hsends.question.1 hfirst]
    exact ⟨_, List.getElem?_set_self hlt, .refused (halike.sends hsends)⟩

theorem visitsOf_append (accepts : Nat → Query → Bool) (order order' : List Nat) (p : Pass ρ) :
    visitsOf accepts p (order ++ order') =
      visitsOf accepts p order ++ visitsOf accepts (order.foldl (Pass.visit accepts) p) order' := by
  induction order generalizing p with
  | nil => rfl
  | cons j order ih => rw [List.cons_append, visitsOf, ih, visitsOf, List.append_assoc,
      List.foldl_cons]

theorem visit_elsewhere (accepts : Nat → Query → Bool) {p : Pass ρ} {i : Nat} (hij : j ≠ i)
    (hnodup : p.table.nodes.Nodup) (he : p.table.requests[j]? = some e) :
    let q := p.visit accepts i
    q.table.requests[j]? = some e ∧ q.table.awaiting e.node = p.table.awaiting e.node ∧
      p.table.Alike q.table ∧ ∀ d, p.table.requests[i]? = some d → d.node ≠ e.node := by
  intro q
  have hother : ∀ d, p.table.requests[i]? = some d → d.node ≠ e.node := by
    intro d hd hnode
    have hfirst := foremost_of_nodup hnodup hd
    have hfirst' := foremost_of_nodup hnodup he
    rcases Nat.lt_or_gt_of_ne hij with hlt | hlt
    · exact hfirst j hlt e he hnode.symm
    · exact hfirst' i hlt d hd hnode
  cases hi : p.table.requests[i]? with
  | none =>
    have hsame : q = p := visit_of_none accepts hi
    rw [hsame]
    exact ⟨he, rfl, .refl _, fun d hd => by cases hd⟩
  | some d =>
    have hbecomes := becomes_visit accepts p hi
    refine ⟨?_, hbecomes.awaiting_of_ne (hother d hi), hbecomes.alike, hi ▸ hother⟩
    rw [hbecomes.getElem?_of_ne hi (foremost_of_nodup hnodup hi) hij, he]

/-- Visits to other positions leave a request and its sends alone. -/
theorem visits_elsewhere (accepts : Nat → Query → Bool) {order : List Nat} {p : Pass ρ}
    (hj : j ∉ order) (hnodup : p.table.nodes.Nodup) (he : p.table.requests[j]? = some e) :
    let q := order.foldl (Pass.visit accepts) p
    q.table.requests[j]? = some e ∧ q.table.awaiting e.node = p.table.awaiting e.node ∧
      q.table.nodes.Nodup ∧ p.table.Alike q.table ∧
      ∀ v ∈ visitsOf accepts p order, v.request.node ≠ e.node := by
  induction order generalizing p with
  | nil => exact ⟨he, rfl, hnodup, .refl _, fun v hv => by cases hv⟩
  | cons i order ih =>
    obtain ⟨hij, hj⟩ := List.ne_and_not_mem_of_not_mem_cons hj
    obtain ⟨hget, hawaiting, halike, hother⟩ := visit_elsewhere accepts hij hnodup he
    have hnodes : (p.visit accepts i).table.nodes.Nodup := by rwa [nodes_visit]
    obtain ⟨hget, hawaitings, hnodes, halikes, hothers⟩ := ih hj hnodes hget
    refine ⟨hget, hawaitings.trans hawaiting, hnodes, halike.trans halikes, fun v hv => ?_⟩
    rcases List.mem_append.1 hv with hv | hv
    · obtain ⟨d, hd, rfl⟩ := Option.map_eq_some_iff.1 (Option.mem_toList.1 hv)
      exact hother d hd
    · exact hothers v hv

/-- A pass visits a request once, and makes of it what the visit does. -/
theorem changes_schedule (accepts : Nat → Query → Bool) {t : RequestTable ρ} {s : Strand}
    (hnodup : t.nodes.Nodup) (hs : t.Carries s) :
    ∃ o s', (t.visits accepts).find? (·.request.node = s.request.node) = some ⟨s.request, o⟩ ∧
      t.Changes s (.visited ⟨s.request, o⟩) s' ∧ (t.schedule accepts).2.Carries s' := by
  obtain ⟨e, us⟩ := s
  obtain rfl : t.awaiting e.node = us := hs.awaiting
  obtain ⟨j, hj⟩ : ∃ j : Nat, t.requests[j]? = some e := List.mem_iff_getElem?.1 hs.mem
  have hperm := RandomSource.shuffle_perm t.requests.length t.random
  have hvisited : j ∈ t.opened.1 :=
    hperm.mem_iff.2 (List.mem_range.2 (List.getElem?_eq_some_iff.1 hj).1)
  have horder : t.opened.1.Nodup := hperm.nodup_iff.2 List.nodup_range
  -- The pass is cut at the visit to `j`. What comes before and after is elsewhere.
  obtain ⟨before, after, hsplit⟩ := List.append_of_mem hvisited
  rw [hsplit, List.nodup_append, List.nodup_cons] at horder
  obtain ⟨-, ⟨hafter, -⟩, hdisjoint⟩ := horder
  have hbefore : j ∉ before := fun hmem => hdisjoint j hmem j List.mem_cons_self rfl
  have hstart : t.opened.2.table.requests[j]? = some e := hj
  obtain ⟨hget, hawaiting, hnodes, halike, hothers⟩ :=
    visits_elsewhere accepts hbefore (p := t.opened.2) hnodup hstart
  have hopened : t.Alike t.opened.2.table := ⟨rfl, rfl, rfl, rfl⟩
  have hvisits : t.visits accepts = visitsOf accepts t.opened.2 before ++
      visitsOf accepts (before.foldl (Pass.visit accepts) t.opened.2) (j :: after) := by
    rw [visits, hsplit, visitsOf_append]
  have hschedule : (t.schedule accepts).2 = (after.foldl (Pass.visit accepts)
      ((before.foldl (Pass.visit accepts) t.opened.2).visit accepts j)).table := by
    rw [schedule_of_ne_nil accepts (List.ne_nil_of_mem hs.mem), hsplit, List.foldl_append,
      List.foldl_cons]
  generalize before.foldl (Pass.visit accepts) t.opened.2 = p at *
  have hbecomes := becomes_visit accepts p hget
  obtain ⟨e', hget', hchanges⟩ :=
    hbecomes.changes (hopened.trans halike) hget (foremost_of_nodup hnodes hget)
  have hnode : e'.node = e.node := hchanges.node
  have hnodes' : (p.visit accepts j).table.nodes.Nodup := by rwa [nodes_visit]
  obtain ⟨hget'', hawaiting', -, -, -⟩ := visits_elsewhere accepts hafter hnodes' hget'
  rw [hawaiting] at hchanges
  refine ⟨p.outcome accepts j e, ⟨e', (p.visit accepts j).table.awaiting e.node⟩, ?_, hchanges, ?_⟩
  · rw [hvisits, List.find?_append, List.find?_eq_none.2 fun v hv => by simpa using hothers v hv,
      visitsOf, hget]
    simp
  · rw [hschedule]
    exact ⟨List.mem_of_getElem? hget'', by rw [hawaiting', hnode]⟩

theorem nodup_visits (accepts : Nat → Query → Bool) {t : RequestTable ρ} (hnodup : t.nodes.Nodup) :
    ((t.visits accepts).map (·.request.node)).Nodup := by
  have hperm := (perm_visits accepts hnodup).map (·.node)
  rw [List.map_map] at hperm
  exact hperm.nodup_iff.2 hnodup

theorem changes_of_mem_visits (accepts : Nat → Query → Bool) {t : RequestTable ρ} {s : Strand}
    (hnodup : t.nodes.Nodup) (hs : t.Carries s) {v : Visit} (hv : v ∈ t.visits accepts)
    (hnode : v.request.node = s.request.node) :
    ∃ s', t.Changes s (.visited v) s' ∧ (t.schedule accepts).2.Carries s' := by
  obtain ⟨o, s', hfind, hchanges, hcarries⟩ := changes_schedule accepts hnodup hs
  have hsame : v = ⟨s.request, o⟩ :=
    List.inj_on_of_nodup_map (nodup_visits accepts hnodup) hv (List.mem_of_find?_eq_some hfind)
      hnode
  exact ⟨s', hsame ▸ hchanges, hcarries⟩

end Passes

/-! ### Other events -/

section Others

variable {t : RequestTable ρ} {s : Strand} {e : Request} {u : Unresolved} {ok : Bool}

omit [RandomSource ρ]

theorem mem_modifyFirst_of_ne {f : Request → Request} {node : NodeId} {es : List Request}
    (he : e ∈ es) (hne : e.node ≠ node) : e ∈ modifyFirst f node es := by
  induction es with
  | nil => cases he
  | cons d es ih =>
    unfold modifyFirst
    rcases List.mem_cons.1 he with rfl | he
    · rw [if_neg hne]
      exact List.mem_cons_self
    · split
      · exact List.mem_cons_of_mem _ he
      · exact List.mem_cons_of_mem _ (ih he)

theorem mem_modifyFirst_self {f : Request → Request} {es : List Request}
    (hnodup : (es.map (·.node)).Nodup) (he : e ∈ es) : f e ∈ modifyFirst f e.node es := by
  induction es with
  | nil => cases he
  | cons d es ih =>
    obtain ⟨hd, hnodup⟩ := List.nodup_cons.1 hnodup
    unfold modifyFirst
    rcases List.mem_cons.1 he with rfl | he
    · rw [if_pos rfl]
      exact List.mem_cons_self
    · have hne : d.node ≠ e.node := fun heq => hd (List.mem_map.2 ⟨e, he, heq.symm⟩)
      rw [if_neg hne]
      exact List.mem_cons_of_mem _ (ih hnodup he)

@[simp]
theorem requests_congestion (t : RequestTable ρ) : t.congestion.requests = t.requests := by
  unfold congestion
  dsimp only
  split <;> split <;> rfl

theorem requests_settle_true (t : RequestTable ρ) (u : Unresolved) :
    (t.settle u true).requests = t.requests := by
  unfold settle
  split
  · rfl
  · simp only [if_true]
    split
    · exact requests_congestion t
    · rfl

theorem requests_matchReply (s : Suite) (t : RequestTable ρ) (reply : Block) :
    (t.matchReply s reply).2.requests = t.requests := by
  unfold matchReply
  dsimp only
  split
  · exact requests_congestion _
  · split <;> rfl

@[simp]
theorem awaiting_settle (t : RequestTable ρ) (u : Unresolved) (ok : Bool) (node : NodeId) :
    (t.settle u ok).awaiting node = t.awaiting node := by
  rw [awaiting, unresolved_settle, awaiting]

/-- A verdict on a send of another node changes nothing. -/
theorem mem_settle_of_ne (he : e ∈ t.requests) (hne : u.node ≠ some e.node) :
    e ∈ (t.settle u ok).requests := by
  cases ok with
  | true => rwa [requests_settle_true]
  | false =>
    cases hnode : u.node with
    | none =>
      unfold settle
      rwa [hnode, Option.bind_none]
    | some node =>
      rw [settle_false_eq t hnode]
      exact mem_modifyFirst_of_ne he fun heq => hne (hnode.trans (congrArg some heq.symm))

theorem awaiting_cons {us : List Unresolved} (h : t.unresolved = u :: us) (node : NodeId) :
    t.awaiting node = if u.node = some node then
      u :: us.filter (·.node = some node) else us.filter (·.node = some node) := by
  rw [awaiting, h, List.filter_cons]
  simp only [decide_eq_true_eq]

theorem Carries.of_eq {t' : RequestTable ρ} (hs : t.Carries s)
    (hrequests : t'.requests = t.requests) (hunresolved : t'.unresolved = t.unresolved) :
    t'.Carries s where
  mem := hrequests ▸ hs.mem
  awaiting := by rw [RequestTable.awaiting, hunresolved, ← hs.awaiting, RequestTable.awaiting]

theorem filter_blank {n node : NodeId} (hne : n ≠ node) (us : List Unresolved) :
    (us.map fun u => if u.node = some n then { u with node := none } else u).filter
      (·.node = some node) = us.filter (·.node = some node) := by
  induction us with
  | nil => rfl
  | cons u us ih =>
    rw [List.map_cons, List.filter_cons, List.filter_cons, ih]
    by_cases hu : u.node = some n
    · simp [hu, hne]
    · simp [hu]

theorem Carries.remove (hs : t.Carries s) {n : NodeId} (hn : n ≠ s.request.node) :
    (t.remove n).Carries s := by
  by_cases hmem : n ∈ t.nodes
  · obtain ⟨d, rfl, hperm, -, hunresolved⟩ := remove_of_mem hmem
    have hne : s.request ≠ d := fun heq => hn (congrArg (·.node) heq).symm
    refine ⟨(List.mem_cons.1 (hperm.mem_iff.1 hs.mem)).resolve_left hne, ?_⟩
    rw [← hs.awaiting, RequestTable.awaiting, RequestTable.awaiting, hunresolved]
    exact filter_blank hn t.unresolved
  · rwa [remove_of_not_mem hmem]

end Others

section Others

variable {t : RequestTable ρ} {s : Strand} {e : Request} {u : Unresolved} {ok : Bool}

/-- The strand that is at `t` goes on at `t'`, changed if it took a turn. -/
def Follows (t : RequestTable ρ) (s : Strand) (t' : RequestTable ρ) : Option Turn → Prop
  | none => t'.Carries s
  | some turn => ∃ s', t.Changes s turn s' ∧ t'.Carries s'

theorem Carries.settleOldest (hs : t.Carries s) (hnodup : t.nodes.Nodup) (ok : Bool) :
    t.Follows s (t.settleOldest ok)
      (if t.Judges s.request.node then some (.judged ok) else none) := by
  obtain ⟨e, pending⟩ := s
  obtain rfl : t.awaiting e.node = pending := hs.awaiting
  have he : e ∈ t.requests := hs.mem
  unfold RequestTable.settleOldest
  cases hunresolved : t.unresolved with
  | nil =>
    rw [if_neg (by simp [Judges, hunresolved])]
    exact hs
  | cons u us =>
    have hawaiting := awaiting_cons hunresolved e.node
    by_cases hnode : u.node = some e.node
    · rw [if_pos (by simp [Judges, hunresolved, hnode])]
      rw [if_pos hnode] at hawaiting
      cases ok with
      | true =>
        refine ⟨_, .confirmed hawaiting, ?_, ?_⟩
        · rwa [requests_settle_true]
        · exact awaiting_settle _ u true e.node
      | false =>
        refine ⟨_, .failed hawaiting hnode, ?_, ?_⟩
        · dsimp only
          rw [settle_false_eq _ hnode]
          exact mem_modifyFirst_self hnodup he
        · exact awaiting_settle _ u false e.node
    · rw [if_neg (by simpa [Judges, hunresolved] using hnode)]
      rw [if_neg hnode] at hawaiting
      refine ⟨mem_settle_of_ne he hnode, ?_⟩
      rw [awaiting_settle]
      exact hawaiting.symm

/-- An event is a turn of the request's history, or it leaves the request and its sends alone. -/
theorem Carries.handle (hs : t.Carries s) (hnodup : t.nodes.Nodup) {ev : Event}
    (hkeeps : ev.Keeps s.request.node) :
    t.Follows s (t.handle ev) (t.turn? s.request.node ev) := by
  cases ev with
  | upkeep u =>
    cases u with
    | call c =>
      cases c with
      | request node handler query => exact ⟨List.mem_append_left _ hs.mem, hs.awaiting⟩
      | update node query =>
        cases query with
        | none => exact hs.remove hkeeps
        | some query =>
          dsimp only [turn?]
          by_cases hnode : node = s.request.node
          · subst hnode
            rw [if_pos rfl]
            exact ⟨_, .updated query.hashes, mem_modifyFirst_self hnodup hs.mem, hs.awaiting⟩
          · rw [if_neg hnode]
            exact ⟨mem_modifyFirst_of_ne hs.mem (Ne.symm hnode), hs.awaiting⟩
      | endgame => exact ⟨_, .halved, List.mem_map_of_mem hs.mem, hs.awaiting⟩
      | release node => exact hs.remove hkeeps
    | tick now => exact hs.of_eq rfl rfl
    | observe average => exact hs.of_eq rfl rfl
    | record kind bytes peers => exact hs.of_eq rfl rfl
    | reply suite block =>
      exact hs.of_eq (requests_matchReply suite t block) (unresolved_matchReply suite t block)
    | abort => exact hkeeps.elim
  | pass accepts =>
    obtain ⟨o, s', hfind, hchanges, hs'⟩ := changes_schedule accepts hnodup hs
    dsimp only [turn?]
    rw [hfind]
    exact ⟨s', hchanges, hs'⟩
  | returnValue value => exact hs.settleOldest hnodup _
  | sendFailed => exact hs.settleOldest hnodup false

end Others

end RequestTable

/-! ### Runs -/

namespace Register

variable {ρ : Type} [RandomSource ρ]

open RequestTable

theorem run_append (x : Register ρ) (events later : List RequestTable.Event) :
    x.run (events ++ later) = (x.run events).run later :=
  List.foldl_append

theorem table_run (x : Register ρ) (events : List RequestTable.Event) :
    (x.run events).table = events.foldl handle x.table := by
  induction events generalizing x with
  | nil => rfl
  | cons e events ih => exact ih (x.step e)

theorem orderly_append {x : Register ρ} {events later : List RequestTable.Event} :
    x.Orderly (events ++ later) ↔ x.Orderly events ∧ (x.run events).Orderly later := by
  induction events generalizing x with
  | nil => exact ⟨fun h => ⟨trivial, h⟩, And.right⟩
  | cons e events ih =>
    rw [List.cons_append, Orderly, ih, Orderly, and_assoc]
    rfl

/-- What a request starts with and every turn of its history keeps holds after the run. -/
theorem Traced.history_induction {x : Register ρ} {s : Strand} {events : List RequestTable.Event}
    {P : List Turn → Strand → Prop} (hx : x.Traced) (horderly : x.Orderly events)
    (hkeeps : ∀ e ∈ events, e.Keeps s.request.node) (hs : x.table.Carries s) (hstart : P [] s)
    (hstep : ∀ past, past <+: events → ∀ turns s turn s', P turns s →
      (x.run past).table.Changes s turn s' → P (turns ++ [turn]) s') :
    ∃ s', s'.request.node = s.request.node ∧ (x.run events).table.Carries s' ∧
      P (x.table.history s.request.node events) s' := by
  -- The last event is split off, so that its turn is taken at the table of the run before it.
  induction events using List.reverseRecOn with
  | nil => exact ⟨s, rfl, hs, hstart⟩
  | append_singleton events e ih =>
    obtain ⟨hbefore, hadmits, -⟩ := orderly_append.1 horderly
    obtain ⟨s₁, hnode, hs₁, hP⟩ := ih hbefore (fun e he => hkeeps e (List.mem_append_left _ he))
      fun past hpast => hstep past (hpast.trans (List.prefix_append _ _))
    have hkeep : e.Keeps s₁.request.node := hnode ▸ hkeeps e (by simp)
    have hhandle := hs₁.handle (hx.run hbefore).nodup hkeep
    rw [hnode] at hhandle
    rw [history_append, ← table_run, run_append, history, history, List.append_nil]
    cases hturn : (x.run events).table.turn? s.request.node e with
    | none =>
      rw [hturn] at hhandle
      exact ⟨s₁, hnode, hhandle, by simpa using hP⟩
    | some turn =>
      rw [hturn] at hhandle
      obtain ⟨s₂, hchanges, hs₂⟩ := hhandle
      exact ⟨s₂, hchanges.node.trans hnode, hs₂,
        hstep events (List.prefix_append _ _) _ s₁ turn s₂ hP hchanges⟩

omit [RandomSource ρ] in
theorem Traced.mem_nodes_of_awaited {x : Register ρ} (hx : x.Traced) {u : Unresolved}
    {node : NodeId} (hu : u ∈ x.table.unresolved) (hnode : u.node = some node) :
    node ∈ x.table.nodes := by
  have hnamed := hx.named.imp (S := fun u s =>
    (∀ node, u.node = some node → node ∈ x.table.nodes) ∧ x.Names u s)
    fun u s hus => ⟨fun node hnode => ((hus.node_iff node).1 hnode).1, hus⟩
  exact ((List.forall₂_and_left _ _).1 hnamed).1 u hu node hnode

omit [RandomSource ρ] in
/-- Nothing waits for a verdict when a request is new. -/
theorem Traced.carries_request {x : Register ρ} (hx : x.Traced) {node : NodeId}
    (handler : ReplyHandler) (query : Query) (hnew : node ∉ x.table.nodes) :
    (x.table.call (.request node handler query)).Carries
      ⟨⟨node, handler, query, none, 0, 0⟩, []⟩ where
  mem := List.mem_append_right _ List.mem_cons_self
  awaiting := by
    refine List.filter_eq_nil_iff.2 fun u hu hnode => hnew ?_
    exact hx.mem_nodes_of_awaited hu (of_decide_eq_true hnode)

/-- A request of the table is one that it had before the event, or it is made by the event. -/
theorem Traced.origin {x : Register ρ} (hx : x.Traced) {ev : RequestTable.Event}
    {e' : Request} (he' : e' ∈ (x.table.handle ev).requests) :
    (∃ e ∈ x.table.requests, e.node = e'.node ∧ ev.Keeps e.node) ∨
      ∃ handler query, ev = .upkeep (.call (.request e'.node handler query)) ∧
        e' = ⟨e'.node, handler, query, none, 0, 0⟩ := by
  have hsame : (x.table.handle ev).nodes = x.table.nodes → (∀ node, ev.Keeps node) →
      ∃ e ∈ x.table.requests, e.node = e'.node ∧ ev.Keeps e.node := by
    intro hnodes hkeeps
    have hmem : e'.node ∈ x.table.nodes := hnodes ▸ List.mem_map_of_mem he'
    obtain ⟨e, he, hnode⟩ := List.mem_map.1 hmem
    exact ⟨e, he, hnode, hkeeps e.node⟩
  have hremoved : ∀ n, e' ∈ (x.table.remove n).requests →
      ∃ e ∈ x.table.requests, e.node = e'.node ∧ n ≠ e.node := by
    intro n he'
    by_cases hn : n ∈ x.table.nodes
    · obtain ⟨d, rfl, hperm, -, -⟩ := remove_of_mem hn
      have hnodes : x.table.nodes.Perm (d.node :: (x.table.remove d.node).nodes) := hperm.map _
      have hnodup := List.nodup_cons.1 (hnodes.nodup_iff.1 hx.nodup)
      refine ⟨e', hperm.mem_iff.2 (List.mem_cons_of_mem _ he'), rfl, fun heq => hnodup.1 ?_⟩
      exact List.mem_map.2 ⟨e', he', heq.symm⟩
    · rw [remove_of_not_mem hn] at he'
      exact ⟨e', he', rfl, fun heq => hn (heq ▸ List.mem_map_of_mem he')⟩
  cases ev with
  | upkeep u =>
    cases u with
    | call c =>
      cases c with
      | request node handler query =>
        rcases List.mem_append.1 he' with he' | he'
        · exact .inl ⟨e', he', rfl, trivial⟩
        · obtain rfl := List.mem_singleton.1 he'
          exact .inr ⟨handler, query, rfl, rfl⟩
      | update node query =>
        cases query with
        | none => exact .inl (hremoved node he')
        | some query => exact .inl (hsame (nodes_update _ node query) fun _ => trivial)
      | endgame => exact .inl (hsame (nodes_endgame _) fun _ => trivial)
      | release node => exact .inl (hremoved node he')
    | tick | observe | record => exact .inl (hsame rfl fun _ => trivial)
    | reply suite block =>
      exact .inl (hsame (nodes_eq_of_questions (questions_matchReply suite _ block))
        fun _ => trivial)
    | abort => cases he'
  | pass accepts => exact .inl (hsame (nodes_schedule accepts _) fun _ => trivial)
  | returnValue value => exact .inl (hsame (nodes_settleOldest _ _) fun _ => trivial)
  | sendFailed => exact .inl (hsame (nodes_settleOldest _ _) fun _ => trivial)

/-- A request has one try at least for each send of it that waits. -/
theorem Traced.length_awaiting_le_tries {x : Register ρ} (hx : x.Traced)
    (hstart : ∀ e ∈ x.table.requests, (x.table.awaiting e.node).length ≤ e.tries)
    {events : List RequestTable.Event} (horderly : x.Orderly events) :
    ∀ e ∈ (x.run events).table.requests,
      ((x.run events).table.awaiting e.node).length ≤ e.tries := by
  induction events generalizing x with
  | nil => exact hstart
  | cons ev events ih =>
    refine ih (hx.step horderly.1) (fun e' he' => ?_) horderly.2
    rcases hx.origin he' with ⟨e, he, hnode, hkeeps⟩ | ⟨handler, query, rfl, heq⟩
    · have hs : x.table.Carries ⟨e, x.table.awaiting e.node⟩ := ⟨he, rfl⟩
      have hle := hstart e he
      have hhandle := hs.handle hx.nodup hkeeps
      -- No other request is of the node, so the one that is carried on is `e'`.
      have hsame : ∀ s' : Strand, (x.table.handle ev).Carries s' → s'.request.node = e.node →
          s'.request = e' := fun s' hs' hnode' =>
        List.inj_on_of_nodup_map (hx.step horderly.1).nodup hs'.mem he' (hnode'.trans hnode)
      cases hturn : x.table.turn? e.node ev with
      | none =>
        rw [hturn] at hhandle
        obtain rfl : e = e' := hsame _ hhandle rfl
        exact hhandle.awaiting ▸ hle
      | some turn =>
        rw [hturn] at hhandle
        obtain ⟨s', hchanges, hs'⟩ := hhandle
        obtain rfl := hsame s' hs' hchanges.node
        have hlength := hchanges.length_awaiting
        have htries := hchanges.tries hle
        have hcount := List.count_le_length (a := false) (l := turn.verdict?.toList)
        change ((x.table.handle ev).awaiting s'.request.node).length ≤ _
        rw [hs'.awaiting]
        dsimp only at hlength htries
        omega
    · rw [heq]
      have hnew := hx.carries_request handler query horderly.1
      exact hnew.awaiting ▸ Nat.le_refl 0

end Register

end ContentTree

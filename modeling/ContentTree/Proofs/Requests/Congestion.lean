import ContentTree.Proofs.Requests.Attempts
import ContentTree.Proofs.Requests.Operations
import ContentTree.Proofs.Requests.Retries

/-!
# When the window shrinks

A reply that nobody asked for and the acceptance of a retransmission are signs of congestion. Such a
signal halves the window and starts a cool-down of the estimated time to live, during which further
signals do nothing. Nothing else lowers the window or touches the threshold. But the table tells a
retransmission by the tries that its request has when the acceptance comes. A late acceptance of the
first send is taken for one, and after a failure the acceptance of a later send is not.
-/

namespace ContentTree

namespace RequestTable

variable {ρ : Type}

/-- The request that the next verdict is for. -/
def judged? (t : RequestTable ρ) : Option Request :=
  (t.unresolved.head?.bind (·.node)).bind fun node => t.requests.find? (·.node = node)

/-- A block arrives that no outstanding query asks for. -/
def useless (t : RequestTable ρ) : Operation → Bool
  | .event (.upkeep (.reply s block)) =>
    !t.requests.any (·.query.hashes.contains (s.hash block.toList))
  | _ => false

/-- The daemon accepts a send of a request that has more than one try by now. -/
def confirms (t : RequestTable ρ) : Operation → Bool
  | .event (.returnValue value) => value = returnOk && t.judged?.any (1 < ·.tries)
  | _ => false

def signals (t : RequestTable ρ) (op : Operation) : Bool := t.useless op || t.confirms op

/-- The latest reduction is an estimated time to live ago. -/
def cooled (t : RequestTable ρ) : Bool :=
  t.lastCongestion.all fun last => signed64 t.initialTtl ≤ t.now - last

def reduces (t : RequestTable ρ) (op : Operation) : Bool := t.signals op && t.cooled

/-- Window and threshold are half the window, and the reduction is remembered. -/
structure Halved (t t' : RequestTable ρ) : Prop where
  window : t'.window = max (t.window / 2) 2
  threshold : t'.threshold = max (t.window / 2) 2
  lastCongestion : t'.lastCongestion = some t.now

/-- The window is not lowered. -/
structure Calm (t t' : RequestTable ρ) : Prop where
  window : t.window ≤ t'.window
  threshold : t'.threshold = t.threshold
  lastCongestion : t'.lastCongestion = t.lastCongestion

/-- What a signal does to the state of congestion control. -/
structure Reacts (t t' : RequestTable ρ) : Prop where
  halved : t.cooled = true → t.Halved t'
  steady : t.cooled = false → t.Steady t'

/-! ### Single operations -/

section Operations

variable {t t' t'' : RequestTable ρ} {op : Operation}

theorem Steady.calm (h : t.Steady t') : t.Calm t' :=
  ⟨h.window.ge, h.threshold, h.lastCongestion⟩

/-- What does not touch congestion control does not change what a signal does. -/
theorem Reacts.after_steady (h : t'.Reacts t'') (hsteady : t.Steady t')
    (hcooled : t'.cooled = t.cooled) (hnow : t'.now = t.now) : t.Reacts t'' where
  halved hcool := by
    obtain ⟨hwindow, hthreshold, hlast⟩ := h.halved (hcooled.trans hcool)
    rw [hsteady.window] at hwindow hthreshold
    exact ⟨hwindow, hthreshold, hnow ▸ hlast⟩
  steady hcooling := hsteady.trans (h.steady (hcooled.trans hcooling))

theorem Reacts.then_steady (h : t.Reacts t') (hsteady : t'.Steady t'') : t.Reacts t'' where
  halved hcool := by
    obtain ⟨hwindow, hthreshold, hlast⟩ := h.halved hcool
    exact ⟨hsteady.window.trans hwindow, hsteady.threshold.trans hthreshold,
      hsteady.lastCongestion.trans hlast⟩
  steady hcooling := (h.steady hcooling).trans hsteady

theorem reacts_congestion (t : RequestTable ρ) : t.Reacts t.congestion := by
  unfold congestion
  cases hlast : t.lastCongestion with
  | none => exact ⟨fun _ => ⟨rfl, rfl, rfl⟩, fun hcooling => by simp [cooled, hlast] at hcooling⟩
  | some last =>
    have hcooled : t.cooled = decide (signed64 t.initialTtl ≤ t.now - last) := by
      rw [cooled, hlast, Option.all_some]
    dsimp only
    by_cases hcooling : t.now - last < signed64 t.initialTtl
    · rw [if_pos (decide_eq_true hcooling)]
      rw [decide_eq_false (Int.not_le.2 hcooling)] at hcooled
      exact ⟨fun hcool => by simp [hcooled] at hcool, fun _ => ⟨rfl, rfl, rfl⟩⟩
    · rw [if_neg (by simpa using hcooling)]
      rw [decide_eq_true (Int.not_lt.1 hcooling)] at hcooled
      exact ⟨fun _ => ⟨rfl, rfl, rfl⟩, fun hcooling => by simp [hcooled] at hcooling⟩

theorem steady_remove (t : RequestTable ρ) (node : NodeId) : t.Steady (t.remove node) := by
  unfold remove
  split
  · unfold removeAt
    split <;> exact ⟨rfl, rfl, rfl⟩
  · exact ⟨rfl, rfl, rfl⟩

theorem matchReply_cases (s : Suite) (t : RequestTable ρ) (block : Block) :
    t.matchReply s block =
        (none, congestion { t with stats := { t.stats with duplicates := t.stats.duplicates + 1 } }) ∨
      ∃ found t', t.matchReply s block = (some found, t') ∧ t.Calm t' ∧ t'.stats = t.stats := by
  unfold matchReply
  dsimp only
  cases t.requests.reverse.find? (·.query.contains (s.hash block.toList)) with
  | none => exact .inl rfl
  | some e =>
    refine .inr ?_
    dsimp only
    cases e.lastSend.filter (· < t.now) with
    | none => exact ⟨_, t, rfl, ⟨le_rfl, rfl, rfl⟩, rfl⟩
    | some last =>
      refine ⟨_, _, rfl, ⟨?_, rfl, rfl⟩, rfl⟩
      dsimp only
      split <;> omega

/-- A reply is useless just when it matches no request. -/
theorem useless_reply (s : Suite) (t : RequestTable ρ) (block : Block) :
    t.useless (.event (.upkeep (.reply s block))) = (t.matchReply s block).1.isNone := by
  have hfind : (t.requests.reverse.find? (·.query.contains (s.hash block.toList))).isNone =
      t.useless (.event (.upkeep (.reply s block))) := by
    rw [Bool.eq_iff_iff, Option.isNone_iff_eq_none, List.find?_eq_none]
    simp [useless, Query.contains]
  rw [← hfind, matchReply]
  dsimp only
  cases t.requests.reverse.find? (·.query.contains (s.hash block.toList)) with
  | none => rfl
  | some e =>
    dsimp only
    split <;> rfl

theorem reacts_matchReply {s : Suite} {block : Block} (h : (t.matchReply s block).1 = none) :
    t.Reacts (t.matchReply s block).2 := by
  obtain hmatch | ⟨found, t', hmatch, -, -⟩ := matchReply_cases s t block
  · rw [hmatch]
    exact (reacts_congestion _).after_steady ⟨rfl, rfl, rfl⟩ rfl rfl
  · rw [hmatch] at h
    cases h

theorem calm_matchReply {s : Suite} {block : Block} (h : (t.matchReply s block).1 ≠ none) :
    t.Calm (t.matchReply s block).2 := by
  obtain hmatch | ⟨found, t', hmatch, hcalm, -⟩ := matchReply_cases s t block
  · rw [hmatch] at h
    exact absurd rfl h
  · rwa [hmatch]

theorem duplicates_matchReply (s : Suite) (t : RequestTable ρ) (block : Block) :
    (t.matchReply s block).2.stats.duplicates =
      t.stats.duplicates + if (t.matchReply s block).1.isNone then 1 else 0 := by
  obtain hmatch | ⟨found, t', hmatch, -, hstats⟩ := matchReply_cases s t block
  · rw [hmatch]
    dsimp only
    rw [stats_congestion]
    rfl
  · rw [hmatch]
    dsimp only
    rw [hstats]
    rfl

theorem reacts_settle {u : Unresolved}
    (h : (u.node.bind fun node => t.requests.find? (·.node = node)).any (1 < ·.tries) = true) :
    t.Reacts (t.settle u true) := by
  unfold settle
  split
  · rename_i hnone
    rw [hnone] at h
    cases h
  · rename_i e hsome
    rw [hsome] at h
    rw [if_pos rfl, if_pos (by simpa using h)]
    -- The counters of retries are not part of congestion control.
    exact (reacts_congestion t).then_steady ⟨rfl, rfl, rfl⟩

theorem settle_true_of_first {u : Unresolved}
    (h : (u.node.bind fun node => t.requests.find? (·.node = node)).any (1 < ·.tries) = false) :
    t.settle u true = t := by
  unfold settle
  split
  · rfl
  · rename_i e hsome
    rw [hsome] at h
    rw [if_pos rfl, if_neg (by simpa using h)]

theorem reacts_settleOldest (h : t.judged?.any (1 < ·.tries) = true) :
    t.Reacts (t.settleOldest true) := by
  unfold judged? at h
  unfold settleOldest
  cases hunresolved : t.unresolved with
  | nil =>
    rw [hunresolved] at h
    cases h
  | cons u us =>
    rw [hunresolved] at h
    have hreacts : { t with unresolved := us }.Reacts (settle { t with unresolved := us } u true) :=
      reacts_settle h
    exact hreacts.after_steady ⟨rfl, rfl, rfl⟩ rfl rfl

theorem steady_settleOldest {ok : Bool}
    (h : ok = true → t.judged?.any (1 < ·.tries) = false) : t.Steady (t.settleOldest ok) := by
  unfold judged? at h
  unfold settleOldest
  cases hunresolved : t.unresolved with
  | nil => exact ⟨rfl, rfl, rfl⟩
  | cons u us =>
    rw [hunresolved] at h
    have htail : t.Steady { t with unresolved := us } := ⟨rfl, rfl, rfl⟩
    cases ok with
    | true =>
      have hsettle : settle { t with unresolved := us } u true = { t with unresolved := us } :=
        settle_true_of_first (h rfl)
      dsimp only
      rwa [hsettle]
    | false => exact htail.trans (steady_settle_false _ u)

theorem duplicates_settle (t : RequestTable ρ) (u : Unresolved) (ok : Bool) :
    (t.settle u ok).stats.duplicates = t.stats.duplicates := by
  cases ok with
  | false => rw [stats_settle_false]
  | true =>
    unfold settle
    split
    · rfl
    · rw [if_pos rfl]
      split
      · dsimp only
        rw [stats_congestion]
      · rfl

theorem duplicates_settleOldest (t : RequestTable ρ) (ok : Bool) :
    (t.settleOldest ok).stats.duplicates = t.stats.duplicates := by
  unfold settleOldest
  split
  · rfl
  · exact duplicates_settle _ _ ok

theorem duplicates_remove (t : RequestTable ρ) (node : NodeId) :
    (t.remove node).stats.duplicates = t.stats.duplicates := by
  unfold remove
  split
  · unfold removeAt
    split <;> rfl
  · rfl

variable [RandomSource ρ]

/-- A signal halves the window if the cool-down is over, and does nothing otherwise. -/
theorem reacts_perform (h : t.signals op = true) : t.Reacts (t.perform op) := by
  cases op with
  | event e =>
    cases e with
    | upkeep u =>
      cases u with
      | reply s block =>
        refine reacts_matchReply ?_
        simpa [signals, useless_reply, confirms] using h
      | call | tick | observe | record | abort => cases h
    | returnValue value =>
      obtain ⟨hvalue, htries⟩ : value = returnOk ∧ t.judged?.any (1 < ·.tries) = true := by
        simpa [signals, useless, confirms] using h
      change t.Reacts (t.settleOldest (value = returnOk))
      rw [decide_eq_true hvalue]
      exact reacts_settleOldest htries
    | pass | sendFailed => cases h
  | takeWake | clear => cases h

theorem steady_returnValue {value : Int32}
    (h : t.confirms (.event (.returnValue value)) = false) :
    t.Steady (t.perform (.event (.returnValue value))) := by
  refine steady_settleOldest fun hvalue => ?_
  simpa [confirms, of_decide_eq_true hvalue] using h

/-- Everything but a signal leaves the threshold alone and does not lower the window. -/
theorem calm_perform (h : t.signals op = false) : t.Calm (t.perform op) := by
  cases op with
  | event e =>
    cases e with
    | upkeep u =>
      cases u with
      | call c =>
        cases c with
        | update node query =>
          cases query with
          | none => exact (steady_remove t node).calm
          | some query => exact ⟨le_rfl, rfl, rfl⟩
        | request | endgame => exact ⟨le_rfl, rfl, rfl⟩
        | release node => exact (steady_remove t node).calm
      | reply s block =>
        refine calm_matchReply fun hnone => ?_
        simp [signals, useless_reply, hnone] at h
      | tick | observe | record | abort => exact ⟨le_rfl, rfl, rfl⟩
    | pass accepts => exact (steady_schedule accepts t).calm
    | returnValue value => exact (steady_returnValue (Bool.or_eq_false_iff.1 h).2).calm
    | sendFailed =>
      have hsteady : t.Steady (t.settleOldest false) := steady_settleOldest nofun
      exact hsteady.calm
  | takeWake | clear => exact ⟨le_rfl, rfl, rfl⟩

theorem duplicates_perform (t : RequestTable ρ) (op : Operation) :
    (t.perform op).stats.duplicates = t.stats.duplicates + if t.useless op then 1 else 0 := by
  cases op with
  | event e =>
    cases e with
    | upkeep u =>
      cases u with
      | call c =>
        cases c with
        | update node query =>
          cases query with
          | none => exact duplicates_remove t node
          | some query => rfl
        | request | endgame => rfl
        | release node => exact duplicates_remove t node
      | reply s block =>
        rw [useless_reply]
        exact duplicates_matchReply s t block
      | tick | observe | record | abort => rfl
    | pass accepts => exact (sameCounts_schedule accepts t).duplicates
    | returnValue value => exact duplicates_settleOldest t _
    | sendFailed => exact duplicates_settleOldest t false
  | takeWake | clear => rfl

theorem lastCongestion_perform (t : RequestTable ρ) (op : Operation) :
    (t.perform op).lastCongestion = if t.reduces op then some t.now else t.lastCongestion := by
  unfold reduces
  cases hsignals : t.signals op with
  | false => exact (calm_perform hsignals).lastCongestion
  | true =>
    have hreacts := reacts_perform hsignals
    cases hcooled : t.cooled with
    | true => exact (hreacts.halved hcooled).lastCongestion
    | false => exact (hreacts.steady hcooled).lastCongestion

end Operations

/-! ### Runs -/

section Runs

variable [RandomSource ρ] {t : RequestTable ρ} {ops : List Operation}

/-- The clock is not set back. -/
def Forward (t : RequestTable ρ) (ops : List Operation) : Prop :=
  ∀ s ∈ t.course ops, s.1.now ≤ (s.1.perform s.2).now

instance (t : RequestTable ρ) (ops : List Operation) : Decidable (t.Forward ops) :=
  inferInstanceAs (Decidable (∀ s ∈ t.course ops, _))

def reductions (t : RequestTable ρ) (ops : List Operation) : List Int :=
  ((t.course ops).filter fun s => s.1.reduces s.2).map (·.1.now)

def uselessReplies (t : RequestTable ρ) (ops : List Operation) : Nat :=
  (t.course ops).countP fun s => s.1.useless s.2

theorem reductions_cons (t : RequestTable ρ) (op : Operation) (ops : List Operation) :
    t.reductions (op :: ops) =
      (if t.reduces op then [t.now] else []) ++ (t.perform op).reductions ops := by
  unfold reductions
  rw [course, List.filter_cons]
  split <;> rfl

theorem duplicates_after (t : RequestTable ρ) (ops : List Operation) :
    (t.after ops).stats.duplicates = t.stats.duplicates + t.uselessReplies ops := by
  induction ops generalizing t with
  | nil => rfl
  | cons op ops ih =>
    change ((t.perform op).after ops).stats.duplicates = _
    rw [ih, duplicates_perform]
    unfold uselessReplies
    rw [course, List.countP_cons]
    dsimp only
    omega

/-- The cool-down starts at the latest reduction. -/
theorem lastCongestion_after (t : RequestTable ρ) (ops : List Operation) :
    (t.after ops).lastCongestion = (t.reductions ops).getLast?.or t.lastCongestion := by
  induction ops generalizing t with
  | nil => rfl
  | cons op ops ih =>
    change ((t.perform op).after ops).lastCongestion = _
    rw [ih, lastCongestion_perform, reductions_cons]
    split
    · rw [List.singleton_append, List.getLast?_cons]
      cases ((t.perform op).reductions ops).getLast? <;> rfl
    · rfl

/-- While a cool-down lasts nothing is reduced. -/
theorem reductions_of_cooling {last : Int} (hlast : t.lastCongestion = some last)
    (hwithin : ∀ s ∈ t.course ops, s.1.signals s.2 = true →
      s.1.now - last < signed64 s.1.initialTtl) : t.reductions ops = [] := by
  induction ops generalizing t with
  | nil => rfl
  | cons op ops ih =>
    obtain ⟨hfirst, hrest⟩ := List.forall_mem_cons.1 hwithin
    have hnot : t.reduces op = false := by
      unfold reduces cooled
      rw [hlast]
      cases hsignals : t.signals op with
      | false => rfl
      | true => simpa using hfirst hsignals
    have hkept := lastCongestion_perform t op
    rw [hnot] at hkept
    rw [reductions_cons, hnot]
    exact ih (hkept.trans hlast) hrest

/-- Signals within one cool-down reduce the window once at most. -/
theorem length_reductions_le_one {start : Int} (hforward : t.Forward ops) (hstart : start ≤ t.now)
    (hwithin : ∀ s ∈ t.course ops, s.1.signals s.2 = true →
      s.1.now - start < signed64 s.1.initialTtl) : (t.reductions ops).length ≤ 1 := by
  induction ops generalizing t with
  | nil => exact Nat.zero_le 1
  | cons op ops ih =>
    obtain ⟨hnow, hforward⟩ := List.forall_mem_cons.1 hforward
    obtain ⟨-, hrest⟩ := List.forall_mem_cons.1 hwithin
    rw [reductions_cons]
    by_cases hreduces : t.reduces op = true
    · have hlast := lastCongestion_perform t op
      rw [if_pos hreduces] at hlast ⊢
      rw [reductions_of_cooling hlast fun s hs hsignals => by
        have hlt := hrest s hs hsignals
        omega]
      exact le_rfl
    · rw [if_neg hreduces]
      exact ih hforward (hstart.trans hnow) hrest

/-- A signal reduces the window if no earlier reduction is in force. -/
theorem reductions_ne_nil
    (hidle : ∀ s ∈ t.course ops, s.1.signals s.2 = true → ∀ last, t.lastCongestion = some last →
      signed64 s.1.initialTtl ≤ s.1.now - last)
    (hsome : ∃ s ∈ t.course ops, s.1.signals s.2 = true) : t.reductions ops ≠ [] := by
  induction ops generalizing t with
  | nil =>
    obtain ⟨s, hs, -⟩ := hsome
    cases hs
  | cons op ops ih =>
    obtain ⟨hfirst, hrest⟩ := List.forall_mem_cons.1 hidle
    rw [reductions_cons]
    cases hsignals : t.signals op with
    | true =>
      have hreduces : t.reduces op = true := by
        unfold reduces cooled
        rw [hsignals, Bool.true_and, Option.all_eq_true]
        intro last hlast
        exact decide_eq_true (hfirst hsignals last hlast)
      rw [if_pos hreduces]
      exact List.cons_ne_nil _ _
    | false =>
      have hkept := (calm_perform hsignals).lastCongestion
      obtain ⟨s, hs, hlater⟩ := hsome
      rcases List.mem_cons.1 hs with rfl | hs
      · exact absurd hlater (Bool.eq_false_iff.1 hsignals)
      · refine List.append_ne_nil_of_right_ne_nil _ (ih ?_ ⟨s, hs, hlater⟩)
        rw [hkept]
        exact hrest

end Runs

end RequestTable

namespace Register

variable {ρ : Type}

open RequestTable

/-- The daemon accepts a retransmission of a request that is outstanding. -/
def acknowledges (x : Register ρ) : Operation → Bool
  | .event (.returnValue value) => value = returnOk && x.waiting.head?.any fun s =>
      !s.first && x.table.requests.any fun e => (x.account e.node).number = s.number
  | _ => false

/-- A useless reply or an acknowledged retransmission halves the window and brings the threshold
down to it if the cool-down is over, and changes neither otherwise. Everything else leaves the
threshold alone and does not lower the window. -/
def Lawful [RandomSource ρ] (x : Register ρ) (op : Operation) : Prop :=
  let t := x.table
  let t' := t.perform op
  if t.useless op || x.acknowledges op then
    if t.cooled then t'.window = max (t.window / 2) 2 ∧ t'.threshold = max (t.window / 2) 2
    else t'.window = t.window ∧ t'.threshold = t.threshold
  else t.window ≤ t'.window ∧ t'.threshold = t.threshold

/-- Whether a signal comes now makes no difference to window and threshold. -/
def Unseen (x : Register ρ) (op : Operation) : Prop :=
  x.table.cooled = false ∨ x.table.threshold = 2 ∧ x.table.window ≤ 2 ∧
    (x.acknowledges op = true → x.table.window = 2)

/-- An acceptance that reaches a request finds more than one try there just when it is not for the
first send, or it makes no difference. -/
def Told (x : Register ρ) : Operation → Prop
  | .event (.returnValue value) =>
    x.Tallies (.returnValue value) ∨ x.Unseen (.event (.returnValue value))
  | _ => True

instance [RandomSource ρ] (x : Register ρ) (op : Operation) : Decidable (x.Lawful op) :=
  inferInstanceAs (Decidable (
    if x.table.useless op || x.acknowledges op then
      if x.table.cooled then _ = _ ∧ _ = _ else _ = _ ∧ _ = _
    else _ ≤ _ ∧ _ = _))

instance (x : Register ρ) (op : Operation) : Decidable (x.Unseen op) :=
  inferInstanceAs (Decidable (_ ∨ _))

instance (x : Register ρ) : (op : Operation) → Decidable (x.Told op)
  | .event (.returnValue _) => inferInstanceAs (Decidable (_ ∨ _))
  | .event (.upkeep _) | .event (.pass _) | .event .sendFailed | .takeWake | .clear =>
    inferInstanceAs (Decidable True)

section Steps

variable {x : Register ρ}

/-- The next verdict is for the request that its send was made for. -/
theorem Traced.judged?_eq_some (hx : x.Traced) {e : Request} :
    x.table.judged? = some e ↔ ∃ s, x.waiting.head? = some s ∧ e ∈ x.table.requests ∧
      (x.account e.node).number = s.number := by
  have hnamed := hx.named
  unfold judged?
  cases hwaiting : x.waiting with
  | nil =>
    rw [hwaiting, List.forall₂_nil_right_iff] at hnamed
    rw [hnamed]
    refine iff_of_false nofun ?_
    rintro ⟨s, hs, -⟩
    cases hs
  | cons s rest =>
    rw [hwaiting] at hnamed
    obtain ⟨u, us, hnames, -, hunresolved⟩ := List.forall₂_cons_right_iff.1 hnamed
    rw [hunresolved, List.head?_cons, Option.bind_some]
    constructor
    · intro hjudged
      obtain ⟨node, hnode, hfind⟩ := Option.bind_eq_some_iff.1 hjudged
      obtain rfl : e.node = node := by simpa using List.find?_some hfind
      exact ⟨s, rfl, List.mem_of_find?_eq_some hfind, ((hnames.node_iff e.node).1 hnode).2⟩
    · rintro ⟨s', hs, he, hnumber⟩
      obtain rfl : s = s' := Option.some.inj hs
      have hnode := (hnames.node_iff e.node).2 ⟨List.mem_map_of_mem he, hnumber⟩
      rw [hnode, Option.bind_some, find?_key hx.nodup he]

/-- The table takes a verdict for the acceptance of a retransmission rightly just if the request has
more than one try when it is not for its first send. -/
theorem Traced.tallies_iff (hx : x.Traced) (value : Int32) :
    x.Tallies (.returnValue value) ↔
      x.table.confirms (.event (.returnValue value)) =
        x.acknowledges (.event (.returnValue value)) := by
  unfold Tallies confirms acknowledges
  by_cases hvalue : value = returnOk
  · simp only [hvalue, decide_true, Bool.true_and, forall_true_left]
    cases hjudged : x.table.judged? with
    | none =>
      have hnone : ∀ s, x.waiting.head? = some s → ∀ e ∈ x.table.requests,
          (x.account e.node).number ≠ s.number := by
        intro s hs e he hnumber
        have hsome := hx.judged?_eq_some.2 ⟨s, hs, he, hnumber⟩
        rw [hjudged] at hsome
        cases hsome
      refine iff_of_true (fun s hs e he hnumber => absurd hnumber (hnone s hs e he)) ?_
      rw [Option.any_none, eq_comm, Bool.eq_false_iff]
      intro hany
      obtain ⟨s, hs, hboth⟩ := (Option.any_eq_true _ _).1 hany
      rw [Bool.and_eq_true, List.any_eq_true] at hboth
      obtain ⟨-, e, he, hnumber⟩ := hboth
      exact hnone s hs e he (of_decide_eq_true hnumber)
    | some e =>
      obtain ⟨s, hs, he, hnumber⟩ := hx.judged?_eq_some.1 hjudged
      have honly : ∀ e' ∈ x.table.requests, (x.account e'.node).number = s.number → e' = e := by
        intro e' he' hnumber'
        have hsome := hx.judged?_eq_some.2 ⟨s, hs, he', hnumber'⟩
        exact Option.some.inj (hsome.symm.trans hjudged)
      have hany : (x.table.requests.any fun e => (x.account e.node).number = s.number) = true :=
        List.any_eq_true.2 ⟨e, he, decide_eq_true hnumber⟩
      rw [hs, Option.any_some, Option.any_some, hany, Bool.and_true, Bool.eq_iff_iff,
        decide_eq_true_iff, Bool.not_eq_true']
      constructor
      · intro htallies
        exact htallies s rfl e he hnumber
      · rintro hiff s' hs' e' he' hnumber'
        obtain rfl : s = s' := Option.some.inj hs'
        rwa [honly e' he' hnumber']
  · simp [hvalue]

variable [RandomSource ρ]

theorem lawful_of_agree {op : Operation} (h : x.table.confirms op = x.acknowledges op) :
    x.Lawful op := by
  unfold Lawful
  rw [← h]
  change if x.table.signals op then _ else _
  cases hsignals : x.table.signals op with
  | false =>
    have hcalm := calm_perform hsignals
    exact ⟨hcalm.window, hcalm.threshold⟩
  | true =>
    have hreacts := reacts_perform hsignals
    cases hcooled : x.table.cooled with
    | true =>
      have hhalved := hreacts.halved hcooled
      exact ⟨hhalved.window, hhalved.threshold⟩
    | false =>
      have hsteady := hreacts.steady hcooled
      exact ⟨hsteady.window, hsteady.threshold⟩

/-- Where the table and the send disagree whether it was a retransmission, the law holds just if
nobody can tell. -/
theorem lawful_iff_unseen {value : Int32}
    (h : x.table.confirms (.event (.returnValue value)) ≠
      x.acknowledges (.event (.returnValue value))) :
    x.Lawful (.event (.returnValue value)) ↔ x.Unseen (.event (.returnValue value)) := by
  unfold Lawful Unseen
  dsimp only
  change (if (false || x.acknowledges _) = true then _ else _) ↔ _
  rw [Bool.false_or]
  cases hacknowledges : x.acknowledges (.event (.returnValue value)) with
  | false =>
    -- The first send is taken for a retransmission.
    have hsignals : x.table.signals (.event (.returnValue value)) = true := by
      rw [hacknowledges, Bool.ne_false_iff] at h
      rw [signals, h, Bool.or_true]
    have hreacts := reacts_perform hsignals
    cases hcooled : x.table.cooled with
    | false =>
      have hsteady := hreacts.steady hcooled
      exact iff_of_true ⟨hsteady.window.ge, hsteady.threshold⟩ (.inl rfl)
    | true =>
      have hhalved := hreacts.halved hcooled
      rw [if_neg Bool.false_ne_true, hhalved.window, hhalved.threshold]
      simp only [Bool.true_eq_false, false_or, Bool.false_eq_true, false_implies, and_true]
      omega
  | true =>
    -- A retransmission is not taken for one.
    rw [hacknowledges] at h
    have hsteady := steady_returnValue (Bool.eq_false_iff.2 h)
    rw [if_pos rfl, hsteady.window, hsteady.threshold]
    cases hcooled : x.table.cooled with
    | false => exact iff_of_true ⟨rfl, rfl⟩ (.inl rfl)
    | true =>
      rw [if_pos rfl]
      simp only [Bool.true_eq_false, false_or, forall_true_left]
      omega

/-- The law can only be broken by a verdict. -/
theorem Traced.lawful_iff (hx : x.Traced) (op : Operation) : x.Lawful op ↔ x.Told op := by
  cases op with
  | event e =>
    cases e with
    | returnValue value =>
      change _ ↔ x.Tallies (.returnValue value) ∨ _
      rw [hx.tallies_iff]
      by_cases hagree : x.table.confirms (.event (.returnValue value)) =
          x.acknowledges (.event (.returnValue value))
      · exact iff_of_true (lawful_of_agree hagree) (.inl hagree)
      · rw [lawful_iff_unseen hagree]
        exact (or_iff_right hagree).symm
    | upkeep | pass | sendFailed => exact iff_of_true (lawful_of_agree rfl) trivial
  | takeWake | clear => exact iff_of_true (lawful_of_agree rfl) trivial

end Steps

/-- As long as no node asks anew while its request is outstanding, the law of congestion holds at
every operation if and only if every acceptance that reaches a request finds more than one try
there just when it is not for the first send, or makes no difference to window and threshold. The
cool-down always starts at the latest reduction. Signals that all come within one cool-down reduce
the window once at most, and just once if no earlier reduction is in force. Every useless reply is
counted. -/
theorem lawful_iff_told [RandomSource ρ] (tuning : Tuning) (random : ρ) (policy : Policy)
    (average : Nat) (ops : List Operation)
    (hproper : (start tuning random policy average).Proper ops) :
    let x := start tuning random policy average
    ((∀ s ∈ x.course ops, s.1.Lawful s.2) ↔ ∀ s ∈ x.course ops, s.1.Told s.2) ∧
    ∀ past stretch : List Operation,
      let t := (x.after past).table
      t.lastCongestion = (x.table.reductions past).getLast? ∧
      (t.after stretch).stats.duplicates = t.stats.duplicates + t.uselessReplies stretch ∧
      (t.Forward stretch →
        (∀ s ∈ t.course stretch, s.1.signals s.2 = true →
          s.1.now - t.now < signed64 s.1.initialTtl) →
        (t.reductions stretch).length ≤ 1 ∧
        ((∃ s ∈ t.course stretch, s.1.signals s.2 = true) →
          (∀ s ∈ t.course stretch, s.1.signals s.2 = true → ∀ last, t.lastCongestion = some last →
            signed64 s.1.initialTtl ≤ s.1.now - last) →
          (t.reductions stretch).length = 1)) := by
  intro x
  have htraced := (traced_start tuning random policy average).course hproper
  refine ⟨forall₂_congr fun s hs => (htraced s hs).lawful_iff s.2, fun past stretch => ?_⟩
  intro t
  refine ⟨?_, duplicates_after t stretch, fun hforward hwithin => ?_⟩
  · unfold t
    rw [table_after, lastCongestion_after]
    exact Option.or_none
  · have hle := length_reductions_le_one hforward le_rfl hwithin
    refine ⟨hle, fun hsome hidle => ?_⟩
    have hpos := List.length_pos_iff.2 (reductions_ne_nil hidle hsome)
    omega

/-- Each send is accepted before the next one. -/
theorem lawful_prompt_answers :
    let ops : List Operation :=
      [.event (.upkeep (.call (.request 0 .own (.new [zeroDigest])))),
        .event (.pass fun _ _ => true), .event (.returnValue returnOk),
        .event (.upkeep (.tick 20000)), .event (.pass fun _ _ => true),
        .event (.returnValue returnOk)]
    let x := start { Tuning.default with initialWindow := 10 } () .open 0
    x.Proper ops ∧ (x.after ops).table.window = 5 ∧ ∀ s ∈ x.course ops, s.1.Lawful s.2 := by
  intro ops x
  have hproper : x.Proper ops := by decide
  have htold : ∀ s ∈ x.course ops, s.1.Told s.2 := by decide
  have hiff := (lawful_iff_told { Tuning.default with initialWindow := 10 } () .open 0 ops hproper).1
  exact ⟨hproper, by decide, hiff.2 htold⟩

/-- The daemon accepts the first send only after the second was made, and that halves the window. -/
theorem late_answer_halves_window :
    let ops : List Operation :=
      [.event (.upkeep (.call (.request 0 .own (.new [zeroDigest])))),
        .event (.pass fun _ _ => true), .event (.upkeep (.tick 20000)),
        .event (.pass fun _ _ => true)]
    let x := (start { Tuning.default with initialWindow := 10 } () .open 0).after ops
    let late : Operation := .event (.returnValue returnOk)
    x.waiting.map (·.first) = [true, false] ∧ x.table.window = 10 ∧
      (x.perform late).table.window = 5 ∧ ¬ x.Lawful late := by
  decide

end Register

end ContentTree

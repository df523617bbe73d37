import ContentTree.Proofs.Requests.Machine

/-!
# Room for the arithmetic

What the request table counts is bounded by the events that it has seen. Tries, replies and the
window grow by a few with every event, times stay within a few decrements of the clock, and the
estimate stays below the largest time to live. Settings leave room for a run if no result of such
numbers is too large for its type, and then a verdict, a reply and a new query are the same in
machine numbers.
-/

namespace ContentTree

open MachineType

theorem signed64_of_lt {n : Nat} (h : n < 2 ^ 63) : signed64 n = n := by
  have hsize : (UInt64.size : Int) = 2 ^ 64 := by decide
  apply Int.bmod_eq_of_le_mul_two
  · rw [hsize]
    omega
  · rw [hsize]
    omega

theorem drawBelow_mem {ρ : Type} [RandomSource ρ] (bound : Int) (r : ρ) :
    0 ≤ (drawBelow bound r).1 ∧ (drawBelow bound r).1 ≤ max (bound - 1) 0 := by
  unfold drawBelow
  split
  · exact ⟨Int.le_refl 0, Int.le_max_right _ _⟩
  · rename_i hbound
    have hlt := RandomSource.below_lt bound.toNat r (by omega)
    dsimp only
    omega

namespace Tuning

/-- The arithmetic of so many events stays within its types. -/
structure LeavesRoom (c : Tuning) (events : Nat) : Prop where
  cap : c.ttlDecrement * c.maxTtlFactor < 2 ^ 63
  backoff : (events + 5) * c.ttlDecrement + 2 ^ 54 ≤ 2 ^ 63
  priority : (2 ^ 24 + 8) * c.ttlDecrement < 2 ^ 63
  late : 4 * c.initialTtl < 2 ^ 63
  estimate : max c.initialTtl (2 ^ 31) * (max c.ttlWeight c.ttlWeightFast + 1) < 2 ^ 63
  warning : max c.maxTries 1 * 50 < 2 ^ 32
  window : max c.initialWindow 2 + 2 * events < 2 ^ 32
  minSleep : c.minSleep < 2 ^ 63
  maxSleep : c.maxSleep < 2 ^ 63

theorem default_leavesRoom {events : Nat} (h : events + 1 < 2 ^ 31) :
    Tuning.default.LeavesRoom events where
  cap := by decide
  backoff := by
    change (events + 5) * 5000 + 2 ^ 54 ≤ 2 ^ 63
    omega
  priority := by decide
  late := by decide
  estimate := by decide
  warning := by decide
  window := by
    change 2 + 2 * events < 2 ^ 32
    omega
  minSleep := by decide
  maxSleep := by decide

/-- A time that a request can count as sent at. -/
def Timely (c : Tuning) (events : Nat) (last : Int) : Prop :=
  0 ≤ last ∧ last < 2 ^ 53 + events * c.ttlDecrement + 2 * c.ttlDecrement

variable {c : Tuning} {events : Nat}

theorem LeavesRoom.decrement (h : c.LeavesRoom events) :
    (0 : Int) ≤ events * c.ttlDecrement ∧
      (events * c.ttlDecrement + 5 * c.ttlDecrement + 2 ^ 54 : Int) ≤ 2 ^ 63 := by
  have hbackoff := h.backoff
  rw [Nat.add_mul] at hbackoff
  exact ⟨Int.mul_nonneg (Int.natCast_nonneg _) (Int.natCast_nonneg _), by exact_mod_cast hbackoff⟩

theorem LeavesRoom.maxTtl (h : c.LeavesRoom events) : c.maxTtl < 2 ^ 63 :=
  (Nat.min_le_left _ _).trans_lt h.cap

theorem LeavesRoom.weight (h : c.LeavesRoom events) {weight estimate : Nat}
    (hweight : weight ≤ max c.ttlWeight c.ttlWeightFast)
    (hestimate : estimate ≤ max c.initialTtl (2 ^ 31)) :
    estimate * weight + 2 ^ 31 < 2 ^ 63 ∧ weight < 2 ^ 32 := by
  have hmul := Nat.mul_le_mul hestimate hweight
  have hleast := Nat.mul_le_mul (Nat.le_max_right c.initialTtl (2 ^ 31)) hweight
  have hroom := h.estimate
  rw [Nat.mul_add] at hroom
  omega

end Tuning

theorem Tuning.LeavesRoom.triesPerWarning? {c : Tuning} {events : Nat} (h : c.LeavesRoom events) :
    c.triesPerWarning? = some c.triesPerWarning := by
  have hwarning := h.warning
  rw [Tuning.triesPerWarning?, Tuning.triesPerWarning, Option.bind_eq_bind, u32_bind hwarning,
    if_neg (by omega)]
  rfl

theorem unsigned64_of_nonneg {i : Int} (hnonneg : 0 ≤ i) (h : i < 2 ^ 64) :
    unsigned64 i = i.toNat := by
  have hsize : (UInt64.size : Int) = 2 ^ 64 := by decide
  rw [unsigned64, hsize, Int.emod_eq_of_lt hnonneg h]

/-- A weighted mean is not above what it is the mean of. -/
theorem tdiv_mean_le {a b weight bound : Int} (ha : 0 ≤ a) (hb : 0 ≤ b) (hweight : 0 ≤ weight)
    (habound : a ≤ bound) (hbbound : b ≤ bound) :
    0 ≤ (a * weight + b).tdiv (weight + 1) ∧ (a * weight + b).tdiv (weight + 1) ≤ bound := by
  have hsum : 0 ≤ a * weight + b := Int.add_nonneg (Int.mul_nonneg ha hweight) hb
  have hle : a * weight + b ≤ bound * (weight + 1) := by
    rw [Int.mul_add, Int.mul_one]
    exact Int.add_le_add (Int.mul_le_mul_of_nonneg_right habound hweight) hbbound
  rw [Int.tdiv_eq_ediv_of_nonneg hsum]
  exact ⟨Int.ediv_nonneg hsum (by omega), Int.ediv_le_of_le_mul (by omega) hle⟩

/-- The request has been around for `n` events at most. -/
structure Request.Within (c : Tuning) (events n : Nat) (e : Request) : Prop where
  tries : e.tries ≤ n
  replies : e.replies ≤ n
  lastSend : ∀ last, e.lastSend = some last → c.Timely events last
  hashes : e.query.hashes.length ≤ 2 ^ 31

namespace Request.Within

variable {c : Tuning} {events n m : Nat} {e : Request}

theorem mono (he : e.Within c events n) (h : n ≤ m) : e.Within c events m :=
  { he with
    tries := he.tries.trans h
    replies := he.replies.trans h }

theorem reverted (he : e.Within c events n) {u : Unresolved}
    (hu : ∀ last, u.lastSend = some last → c.Timely events last) :
    (RequestTable.reverted u e).Within c events n where
  tries := (Nat.sub_le _ _).trans he.tries
  replies := he.replies
  lastSend := hu
  hashes := he.hashes

theorem expires?_eq (he : e.Within c events n) (hc : c.LeavesRoom events) :
    e.expires? = some e.expires := by
  have hroom := hc.decrement
  have hleast := e.query.ttl.le_toInt
  have hlargest := e.query.ttl.toInt_lt
  unfold Request.expires? Request.expires
  cases hlast : e.lastSend with
  | none => rfl
  | some last =>
    have htimely := he.lastSend last hlast
    rw [Tuning.Timely] at htimely
    dsimp only
    rw [i64_hold? (by omega) (by omega)]
    rfl

theorem expires_mem (he : e.Within c events n) {expiry : Int} (h : e.expires = some expiry) :
    -2 ^ 31 ≤ expiry ∧
      expiry < 2 ^ 53 + events * c.ttlDecrement + 2 * c.ttlDecrement + 2 ^ 31 := by
  obtain ⟨last, hlast, rfl⟩ := Option.map_eq_some_iff.1 h
  have htimely := he.lastSend last hlast
  have hleast := e.query.ttl.le_toInt
  have hlargest := e.query.ttl.toInt_lt
  rw [Tuning.Timely] at htimely
  omega

end Request.Within

namespace RequestTable

variable {ρ : Type}

/-- What the table counts is of the size that `n` events can make it. -/
structure Within (c : Tuning) (events n : Nat) (t : RequestTable ρ) : Prop where
  tuning : t.tuning = c
  clock : 0 ≤ t.now ∧ t.now < 2 ^ 53
  length : t.requests.length ≤ n
  request : ∀ e ∈ t.requests, e.Within c events n
  unresolved : ∀ u ∈ t.unresolved, ∀ last, u.lastSend = some last → c.Timely events last
  window : t.window ≤ max c.initialWindow 2 + 2 * n
  estimate : t.initialTtl ≤ max c.initialTtl (2 ^ 31)
  congestion : ∀ last, t.lastCongestion = some last → 0 ≤ last ∧ last < 2 ^ 53
  duplicates : t.stats.duplicates ≤ n
  totalRetries : t.stats.totalRetries ≤ n
  currentRetries : t.stats.currentRetries ≤ n

section Requests

variable {f g : Request → Request} {node : NodeId} {es : List Request}

theorem modifyFirst_of_none (f : Request → Request) (h : es.find? (·.node = node) = none) :
    modifyFirst f node es = es := by
  induction es with
  | nil => rfl
  | cons e es ih =>
    rw [List.find?_eq_none, List.forall_mem_cons] at h
    rw [modifyFirst, if_neg (by simpa using h.1), ih (List.find?_eq_none.2 h.2)]

theorem modifyFirst_congr (h : ∀ e, es.find? (·.node = node) = some e → f e = g e) :
    modifyFirst f node es = modifyFirst g node es := by
  induction es with
  | nil => rfl
  | cons e es ih =>
    unfold modifyFirst
    by_cases hnode : e.node = node
    · rw [if_pos hnode, if_pos hnode, h e (by simp [hnode])]
    · rw [if_neg hnode, if_neg hnode, ih fun e' he' => h e' (by simpa [hnode] using he')]

theorem getElem?_modifyFirst {i : Nat} {e' : Request}
    (h : (modifyFirst f node es)[i]? = some e') : ∃ e, es[i]? = some e ∧ (e' = e ∨ e' = f e) := by
  induction es generalizing i with
  | nil => cases h
  | cons e es ih =>
    unfold modifyFirst at h
    split at h
    · cases i with
      | zero => exact ⟨e, rfl, .inr (Option.some.inj h).symm⟩
      | succ i => exact ⟨e', h, .inl rfl⟩
    · cases i with
      | zero => exact ⟨e, rfl, .inl (Option.some.inj h).symm⟩
      | succ i => exact ih h

theorem length_modifyFirst : (modifyFirst f node es).length = es.length := by
  induction es with
  | nil => rfl
  | cons e es ih =>
    unfold modifyFirst
    split
    · rfl
    · exact congrArg (· + 1) ih

end Requests

section Keeps

variable {c : Tuning} {events n m : Nat} {t : RequestTable ρ} {e : Request}

theorem Within.mono (ht : t.Within c events n) (h : n ≤ m) : t.Within c events m where
  tuning := ht.tuning
  clock := ht.clock
  length := ht.length.trans h
  request e he := (ht.request e he).mono h
  unresolved := ht.unresolved
  window := ht.window.trans (by omega)
  estimate := ht.estimate
  congestion := ht.congestion
  duplicates := ht.duplicates.trans h
  totalRetries := ht.totalRetries.trans h
  currentRetries := ht.currentRetries.trans h

theorem Within.duplicate (ht : t.Within c events n) :
    Within c events (n + 1)
      { t with stats := { t.stats with duplicates := t.stats.duplicates + 1 } } :=
  { ht.mono (Nat.le_add_right n 1) with duplicates := Nat.succ_le_succ ht.duplicates }

theorem Within.requests (ht : t.Within c events n) {requests : List Request}
    (hlength : requests.length ≤ n) (hrequests : ∀ e ∈ requests, e.Within c events n) :
    { t with requests := requests }.Within c events n :=
  { ht with
    length := hlength
    request := hrequests }

theorem Within.cool (ht : t.Within c events n) : t.congestion.Within c events n := by
  have hhalved : Within c events n { t with
      window := max (t.window / 2) 2
      threshold := max (t.window / 2) 2
      lastCongestion := some t.now } := by
    have hwindow := ht.window
    refine { ht with window := ?_, congestion := ?_ }
    · dsimp only
      omega
    · rintro last hlast
      obtain rfl : t.now = last := Option.some.inj hlast
      exact ht.clock
  unfold RequestTable.congestion
  dsimp only
  split
  · split
    · exact ht
    · exact hhalved
  · exact hhalved

/-- Undoing a send keeps the request at each position within bounds. -/
theorem reverted_within {u : Unresolved} (hu : ∀ last, u.lastSend = some last → c.Timely events last)
    {i : Nat} (hold : ∀ e, t.requests[i]? = some e → e.Within c events n) {e' : Request}
    (he' : (t.settle u false).requests[i]? = some e') : e'.Within c events n := by
  obtain ⟨requests, hsettle, rfl | ⟨node, rfl⟩⟩ := t.settle_false u
  · rw [hsettle] at he'
    exact hold e' he'
  · rw [hsettle] at he'
    obtain ⟨e, he, rfl | rfl⟩ := getElem?_modifyFirst he'
    · exact hold e' he
    · exact (hold e he).reverted hu

theorem Within.revert (ht : t.Within c events n) {u : Unresolved}
    (hu : ∀ last, u.lastSend = some last → c.Timely events last) :
    (t.settle u false).Within c events n := by
  have hall : ∀ e' ∈ (t.settle u false).requests, e'.Within c events n := by
    intro e' he'
    obtain ⟨i, hi⟩ := List.mem_iff_getElem?.1 he'
    exact reverted_within hu (fun e he => ht.request e (List.mem_of_getElem? he)) hi
  obtain ⟨requests, hsettle, hrequests⟩ := t.settle_false u
  have hlength : requests.length = t.requests.length := by
    obtain rfl | ⟨node, rfl⟩ := hrequests
    · rfl
    · exact length_modifyFirst
  rw [hsettle] at hall ⊢
  exact ht.requests (hlength.le.trans ht.length) hall

end Keeps

section Times

variable {c : Tuning} {events n m : Nat} {t : RequestTable ρ} {e : Request}

theorem decrement_eq (htuning : t.tuning = c) (hc : c.LeavesRoom events) :
    t.decrement = c.ttlDecrement := by
  have hroom := hc.decrement
  rw [decrement, htuning, signed64_of_lt (by omega)]

theorem decrement?_eq (htuning : t.tuning = c) (hc : c.LeavesRoom events) :
    t.decrement? = some t.decrement := by
  have hroom := hc.decrement
  rw [decrement_eq htuning hc, decrement?, htuning, i64_hold? (by omega) (by omega)]

theorem Within.initial?_eq (ht : t.Within c events n) (hc : c.LeavesRoom events) :
    i64.hold? t.initialTtl = some (signed64 t.initialTtl) ∧
      signed64 t.initialTtl = t.initialTtl := by
  have hestimate := ht.estimate
  have hlate := hc.late
  have hsigned : signed64 t.initialTtl = t.initialTtl := signed64_of_lt (by omega)
  rw [hsigned]
  exact ⟨i64_hold? (by omega) (by omega), rfl⟩

theorem inFlight?_eq (t : RequestTable ρ) (he : e.Within c events n) (hc : c.LeavesRoom events) :
    t.inFlight? e = some (t.inFlight e) := by
  unfold inFlight? inFlight
  rw [he.expires?_eq hc]
  cases e.expires <;> rfl

theorem Within.isDue?_eq (ht : t.Within c events m) (he : e.Within c events n)
    (hc : c.LeavesRoom events) : t.isDue? e = some (t.isDue e) := by
  have hroom := hc.decrement
  have hclock := ht.clock
  rw [isDue?, isDue, he.expires?_eq hc]
  cases e.expires with
  | none => rfl
  | some expiry =>
    simp only [decrement?_eq ht.tuning hc, decrement_eq ht.tuning hc, Option.bind_eq_bind,
      Option.bind_some]
    rw [i64_hold? (by omega) (by omega)]
    rfl

theorem Within.delay?_eq (ht : t.Within c events m) (he : e.Within c events n)
    (hc : c.LeavesRoom events) :
    t.delay? e = some (match e.expires with
      | none => 0
      | some expiry => expiry + t.decrement - t.now) := by
  have hroom := hc.decrement
  have hclock := ht.clock
  rw [delay?, he.expires?_eq hc]
  cases hexpires : e.expires with
  | none => rfl
  | some expiry =>
    have hbounds := he.expires_mem hexpires
    simp only [decrement?_eq ht.tuning hc, decrement_eq ht.tuning hc, Option.bind_eq_bind,
      Option.bind_some]
    rw [i64_bind (by omega) (by omega), i64_hold? (by omega) (by omega)]

theorem Within.congestion?_eq (ht : t.Within c events n) (hc : c.LeavesRoom events) :
    t.congestion? = some t.congestion := by
  obtain ⟨hinitial, -⟩ := ht.initial?_eq hc
  have hclock := ht.clock
  unfold congestion? cooling? RequestTable.congestion
  cases hlast : t.lastCongestion with
  | none => rfl
  | some last =>
    have hbounds := ht.congestion last hlast
    simp only [hinitial, Option.bind_eq_bind, Option.bind_some]
    rw [i64_hold? (by omega) (by omega)]
    by_cases hcooling : t.now - last < signed64 t.initialTtl
    · simp [hcooling]
    · simp [hcooling]

theorem Within.settle?_eq (ht : t.Within c events n) (hn : n < events) (hc : c.LeavesRoom events)
    (u : Unresolved) (ok : Bool) : t.settle? u ok = some (t.settle u ok) := by
  have hwindow := hc.window
  have htotal := ht.totalRetries
  have hcurrent := ht.currentRetries
  unfold settle?
  cases hfind : u.node.bind fun node => t.requests.find? (·.node = node) with
  | none => rw [settle, hfind]
  | some e =>
    dsimp only
    split
    · rename_i haccepted
      rw [ht.congestion?_eq hc, Option.bind_eq_bind, Option.bind_some, stats_congestion,
        u32_count? (by omega), u32_count? (by omega), settle, hfind]
      simp [haccepted]
    · rfl

theorem Within.nextEstimate?_eq (ht : t.Within c events n) (hc : c.LeavesRoom events) (ttl : Int32)
    {last : Int} (hlast : c.Timely events last) :
    t.nextEstimate? ttl.toInt last = some (t.nextEstimate ttl.toInt last) ∧
      t.nextEstimate ttl.toInt last ≤ max c.initialTtl (2 ^ 31) := by
  obtain ⟨hinitial?, hinitial⟩ := ht.initial?_eq hc
  have hroom := hc.decrement
  have hclock := ht.clock
  have hlate := hc.late
  have hestimate := ht.estimate
  have hleast := ttl.le_toInt
  have hlargest := ttl.toInt_lt
  rw [Tuning.Timely] at hlast
  unfold nextEstimate? nextEstimate
  rw [decrement?_eq ht.tuning hc, decrement_eq ht.tuning hc, hinitial?, hinitial]
  simp only [Option.bind_eq_bind, Option.bind_some]
  rw [i64_bind (by omega) (by omega), i64_bind (by omega) (by omega),
    i64_bind (by omega) (by omega)]
  generalize hweight : (if max (ttl.toInt - c.ttlDecrement) 0 > 4 * t.initialTtl ∧
    t.now - last < t.initialTtl then t.tuning.ttlWeightFast else t.tuning.ttlWeight) = weight
  have hle : weight ≤ max c.ttlWeight c.ttlWeightFast := by
    rw [← hweight, ht.tuning]
    split <;> omega
  obtain ⟨hfits, hsmall⟩ := hc.weight hle hestimate
  generalize hexcess : max (ttl.toInt - c.ttlDecrement) 0 = excess
  have hpast : (t.initialTtl * weight : Int) + 2 ^ 31 < 2 ^ 63 := by exact_mod_cast hfits
  have hpastNonneg : (0 : Int) ≤ t.initialTtl * weight :=
    Int.mul_nonneg (Int.natCast_nonneg _) (Int.natCast_nonneg _)
  have hbound : (t.initialTtl : Int) ≤ (max c.initialTtl (2 ^ 31) : Nat) := by
    exact_mod_cast hestimate
  obtain ⟨hmeanNonneg, hmean⟩ := tdiv_mean_le (Int.natCast_nonneg t.initialTtl)
    (b := excess) (by omega) (Int.natCast_nonneg weight) hbound (by omega)
  rw [signed64_of_lt (by omega), i64_bind (by omega) (by omega),
    i64_bind (by omega) (by omega), i64_bind (by omega) (by omega), i64_bind (by omega) (by omega),
    i64_quotient? (by omega) (by omega) (by omega), Option.bind_some,
    u64_hold? hmeanNonneg (by omega), Option.bind_some,
    unsigned64_of_nonneg hmeanNonneg (by omega)]
  exact ⟨rfl, by omega⟩

theorem Within.matchReply?_eq (ht : t.Within c events n) (hn : n < events)
    (hc : c.LeavesRoom events) (s : Suite) (reply : Block) :
    t.matchReply? s reply = some (t.matchReply s reply).2 := by
  have hwindow := hc.window
  unfold matchReply? matchReply
  dsimp only
  cases hfind : t.requests.reverse.find? (·.query.contains (s.hash reply.toList)) with
  | none =>
    have hduplicates := ht.duplicates
    dsimp only
    rw [Option.bind_eq_bind, u32_bind (by omega), ht.duplicate.congestion?_eq hc]
  | some e =>
    dsimp only
    cases hlast : e.lastSend.filter (· < t.now) with
    | none => rfl
    | some last =>
      have he := ht.request e (List.mem_reverse.1 (List.mem_of_find?_eq_some hfind))
      have htimely := he.lastSend last (Option.filter_eq_some_iff.1 hlast).1
      have hheld := ht.window
      dsimp only
      rw [(ht.nextEstimate?_eq hc e.query.ttl htimely).1, Option.bind_eq_bind, Option.bind_some,
        u32_count? (by split <;> omega)]
      rfl

theorem Within.replace?_eq (ht : t.Within c events n) (hn : n < events) (hc : c.LeavesRoom events)
    (node : NodeId) (query : Query) :
    t.replace? node query = some (t.call (.update node (some query))) := by
  have hroom := hc.decrement
  have hclock := ht.clock
  have hwindow := hc.window
  unfold replace?
  cases hfind : t.requests.find? (·.node = node) with
  | none => simp only [call, modifyFirst_of_none _ hfind]
  | some e =>
    have hreplies := (ht.request e (List.mem_of_find?_eq_some hfind)).replies
    have hsame : ∀ f : Request → Request,
        modifyFirst (fun _ => f e) node t.requests = modifyFirst f node t.requests := by
      intro f
      refine modifyFirst_congr fun e' he' => ?_
      rw [Option.some.inj (hfind.symm.trans he')]
    dsimp only [Option.bind_eq_bind]
    rw [decrement?_eq ht.tuning hc, Option.bind_some, decrement_eq ht.tuning hc,
      i64_bind (by omega) (by omega), i64_bind (by omega) (by omega), u32_bind (by omega), call,
      decrement_eq ht.tuning hc]
    let refreshed (e : Request) : Request :=
      { e with
        query := ⟨e.query.priority, e.query.ttl, query.hashes⟩
        replies := e.replies + 1
        lastSend := some (t.now + 2 * c.ttlDecrement) }
    exact congrArg (fun requests => some { t with requests := requests }) (hsame refreshed)

theorem settle?_false (t : RequestTable ρ) (u : Unresolved) :
    t.settle? u false = some (t.settle u false) := by
  unfold settle?
  cases hfind : u.node.bind fun node => t.requests.find? (·.node = node) with
  | none => rw [settle, hfind]
  | some e => rfl

end Times

end RequestTable

end ContentTree

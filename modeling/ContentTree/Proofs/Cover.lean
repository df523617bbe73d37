import Mathlib.Algebra.Order.Ring.Nat
import ContentTree.Policy

/-!
# Cover traffic

Received traffic is credited to the pool of all traffic and to the pool of its kind, and a message
takes its cover from one of the two. As long as costs fit in a word, no pool is ever overdrawn. So
messages that all take from the pool of all traffic, or all from the pools of their kinds, never cost
more than was recorded. Where one kind of message takes from the one and another from the other, the
same bytes can cover both.
-/

namespace ContentTree

namespace TrafficPolicy

inductive Event
  | record (kind : Option TrafficKind) (bytes peers : Nat)
  | permits (kind : TrafficKind) (size : Nat)

/-- What a message of `size` bytes costs, in a word or not. -/
def price (p : TrafficPolicy) (kind : TrafficKind) (size : Nat) : Nat :=
  match Demand.ofValue? (p.value kind) with
  | none => 0
  | some demand => demand.ratio * size

/-- All that the event counts. -/
def volume (p : TrafficPolicy) : Event → Nat
  | .record _ bytes peers => bytes + peers
  | .permits kind size => p.price kind size

/-- A policy, what was recorded with it, and what the messages cost that it let through. -/
structure Ledger where
  policy : TrafficPolicy
  recorded : Nat
  recordedOf : TrafficKind → Nat
  /-- Cost of the messages that take from the pool of all traffic. -/
  loose : Nat
  /-- Cost of the messages of a kind that take from the pool of that kind. -/
  strict : TrafficKind → Nat

namespace Ledger

def start (p : TrafficPolicy) : Ledger := ⟨p, 0, fun _ => 0, 0, fun _ => 0⟩

/-- The cost of a message that was let through. -/
def charge (l : Ledger) (kind : TrafficKind) (size : Nat) : Ledger :=
  match Demand.ofValue? (l.policy.value kind) with
  | none => l
  | some demand =>
    if demand.sameKind then
      { l with strict := fun k => l.strict k + if k = kind then demand.ratio * size else 0 }
    else { l with loose := l.loose + demand.ratio * size }

def step (l : Ledger) : Event → Ledger
  | .record kind bytes peers =>
    { l with
      policy := l.policy.record kind bytes peers
      recorded := l.recorded + bytes
      recordedOf := fun k => l.recordedOf k + if kind = some k then bytes else 0 }
  | .permits kind size =>
    let (permitted, policy) := l.policy.permits kind size
    { if permitted then l.charge kind size else l with policy := policy }

def run (l : Ledger) (events : List Event) : Ledger := events.foldl step l

def overKinds (f : TrafficKind → Nat) : Nat := f .query + f .chkResult + f .hashResult

def spent (l : Ledger) : Nat := l.loose + overKinds l.strict

/-- What is left in a pool and what was taken from it is no more than what was recorded for it. -/
structure Covered (l : Ledger) : Prop where
  all : l.policy.counters.totalBytes + l.loose ≤ l.recorded
  kind : ∀ k, l.policy.counters.bytes k + l.strict k ≤ l.recordedOf k
  kinds : overKinds l.recordedOf ≤ l.recorded

end Ledger

/-! ### One call -/

section Calls

variable {p : TrafficPolicy} {kind : TrafficKind} {size : Nat}

theorem value_record (p : TrafficPolicy) (kind : Option TrafficKind) (bytes peers : Nat) :
    (p.record kind bytes peers).value = p.value := by
  funext k
  cases k <;> rfl

theorem saturate64_le (n : Nat) : saturate64 n ≤ n := Nat.min_le_left _ _

theorem saturate64_of_lt {n : Nat} (h : n < 2 ^ 64) : saturate64 n = n :=
  Nat.min_eq_left (Nat.le_pred_of_lt h)

theorem totalBytes_record_le (p : TrafficPolicy) (kind : Option TrafficKind) (bytes peers : Nat) :
    (p.record kind bytes peers).counters.totalBytes ≤ p.counters.totalBytes + bytes := by
  refine le_trans (le_of_eq ?_) (saturate64_le _)
  cases kind with
  | none => rfl
  | some k => cases k <;> rfl

theorem bytes_record_le (p : TrafficPolicy) (kind : Option TrafficKind) (bytes peers : Nat)
    (k : TrafficKind) :
    (p.record kind bytes peers).counters.bytes k ≤
      p.counters.bytes k + if kind = some k then bytes else 0 := by
  cases kind with
  | none => exact Nat.le_add_right _ _
  | some kind =>
    by_cases hk : kind = k
    · subst hk
      rw [if_pos rfl]
      refine le_trans (le_of_eq ?_) (saturate64_le _)
      cases kind <;> rfl
    · rw [if_neg fun h => hk (Option.some.inj h), Nat.add_zero]
      apply le_of_eq
      cases kind <;> cases k <;> first | rfl | exact absurd rfl hk

theorem cost_of_lt (demand : Demand) (h : demand.ratio * size < 2 ^ 64) :
    demand.cost size = demand.ratio * size := Nat.mod_eq_of_lt h

theorem price_of_demand {demand : Demand} (h : Demand.ofValue? (p.value kind) = some demand) :
    p.price kind size = demand.ratio * size := by
  rw [price, h]

theorem price_le (p : TrafficPolicy) (kind : TrafficKind) (size : Nat) :
    p.price kind size ≤ (p.value kind).toNat * size := by
  unfold price Demand.ofValue?
  split_ifs
  · exact Nat.zero_le _
  · exact Nat.le_refl _
  · exact Nat.mul_le_mul_right size (Nat.div_le_self _ _)

/-- A message is held back at no cost, asks for nothing, or takes its cost from one pool that holds
as much. -/
theorem permits_cases (p : TrafficPolicy) (kind : TrafficKind) (size : Nat) :
    p.permits kind size = (false, p) ∨
    (Demand.ofValue? (p.value kind) = none ∧ p.permits kind size = (true, p)) ∨
    ∃ demand, Demand.ofValue? (p.value kind) = some demand ∧
      ((demand.sameKind = true ∧ demand.cost size ≤ p.counters.bytes kind ∧
          p.permits kind size = (true, { p with
            counters := p.counters.setBytes (p.counters.bytes kind - demand.cost size) kind })) ∨
        (demand.sameKind = false ∧ demand.cost size ≤ p.counters.totalBytes ∧
          p.permits kind size = (true, { p with
            counters := { p.counters with
              totalBytes := p.counters.totalBytes - demand.cost size } }))) := by
  unfold permits consume
  cases Demand.ofValue? (p.value kind) with
  | none => exact .inr (.inl ⟨rfl, rfl⟩)
  | some demand =>
    dsimp only
    by_cases hpeers : p.counters.peers kind < demand.peers
    · exact .inl (if_pos hpeers)
    rw [if_neg hpeers]
    cases hkind : demand.sameKind with
    | true =>
      by_cases hcost : p.counters.bytes kind < demand.cost size
      · left
        simp only [if_true, if_pos hcost]
      · refine .inr (.inr ⟨demand, rfl, .inl ⟨hkind, Nat.le_of_not_lt hcost, ?_⟩⟩)
        simp only [if_true, if_neg hcost]
    | false =>
      by_cases hcost : p.counters.totalBytes < demand.cost size
      · left
        simp only [Bool.false_eq_true, if_false, if_pos hcost]
      · refine .inr (.inr ⟨demand, rfl, .inr ⟨hkind, Nat.le_of_not_lt hcost, ?_⟩⟩)
        simp only [Bool.false_eq_true, if_false, if_neg hcost]

theorem permits_of_refused (h : (p.permits kind size).1 = false) : (p.permits kind size).2 = p := by
  obtain hrun | ⟨-, hrun⟩ | ⟨demand, -, ⟨-, -, hrun⟩ | ⟨-, -, hrun⟩⟩ := p.permits_cases kind size
  · rw [hrun]
  all_goals rw [hrun] at h; cases h

theorem value_permits (p : TrafficPolicy) (kind : TrafficKind) (size : Nat) :
    (p.permits kind size).2.value = p.value := by
  funext k
  obtain hrun | ⟨-, hrun⟩ | ⟨demand, -, ⟨-, -, hrun⟩ | ⟨-, -, hrun⟩⟩ := p.permits_cases kind size
  all_goals
    simp only [hrun]
    try (cases k <;> rfl)

end Calls

namespace Ledger

variable {l : Ledger}

theorem value_step (l : Ledger) (e : Event) : (l.step e).policy.value = l.policy.value := by
  cases e with
  | record kind bytes peers => exact value_record _ _ _ _
  | permits kind size => exact value_permits _ _ _

theorem bytes_setBytes (c : TrafficCounters) (n : Nat) (kind k : TrafficKind) :
    (c.setBytes n kind).bytes k = if k = kind then n else c.bytes k := by
  cases kind <;> cases k <;> rfl

theorem totalBytes_setBytes (c : TrafficCounters) (n : Nat) (kind : TrafficKind) :
    (c.setBytes n kind).totalBytes = c.totalBytes := by
  cases kind <;> rfl

theorem overKinds_add_single (f : TrafficKind → Nat) (kind : TrafficKind) (n : Nat) :
    overKinds (fun k => f k + if k = kind then n else 0) = overKinds f + n := by
  cases kind <;> simp only [overKinds, reduceCtorEq, if_true, if_false] <;> omega

theorem overKinds_mono {f g : TrafficKind → Nat} (h : ∀ k, f k ≤ g k) : overKinds f ≤ overKinds g :=
  Nat.add_le_add (Nat.add_le_add (h _) (h _)) (h _)

theorem covered_start (send receive : Int) : (start (new send receive)).Covered where
  all := Nat.le_refl 0
  kind k := by cases k <;> exact Nat.le_refl 0
  kinds := Nat.le_refl 0

theorem Covered.record (h : l.Covered) (kind : Option TrafficKind) (bytes peers : Nat) :
    (l.step (.record kind bytes peers)).Covered where
  all := by
    have htotal := totalBytes_record_le l.policy kind bytes peers
    have hall := h.all
    simp only [step]
    omega
  kind k := by
    have hbytes := bytes_record_le l.policy kind bytes peers k
    have hkind := h.kind k
    simp only [step]
    omega
  kinds := by
    have hkinds := h.kinds
    simp only [step]
    cases kind with
    | none =>
      simp only [reduceCtorEq, if_false, Nat.add_zero]
      exact Nat.le_add_right_of_le hkinds
    | some kind =>
      simp only [Option.some.injEq, eq_comm (a := kind), overKinds_add_single]
      exact Nat.add_le_add_right hkinds bytes

theorem Covered.permits (h : l.Covered) (kind : TrafficKind) (size : Nat)
    (hfits : l.policy.price kind size < 2 ^ 64) : (l.step (.permits kind size)).Covered := by
  obtain hrun | ⟨hdemand, hrun⟩ | ⟨demand, hdemand, htakes⟩ := l.policy.permits_cases kind size
  · simpa only [step, hrun, Bool.false_eq_true, if_false] using h
  · simpa only [step, charge, hrun, hdemand, if_true] using h
  -- What is taken from the pool is what the ledger is charged with, as the cost fits in a word.
  rw [price_of_demand hdemand] at hfits
  rw [cost_of_lt demand hfits] at htakes
  obtain ⟨hsame, hcost, hrun⟩ | ⟨hsame, hcost, hrun⟩ := htakes
  · have hstep : l.step (.permits kind size) =
        { l with
          policy := (l.policy.permits kind size).2
          strict := fun k => l.strict k + if k = kind then demand.ratio * size else 0 } := by
      simp only [step, charge, hrun, hdemand, hsame, if_true]
    rw [hstep, hrun]
    refine ⟨?_, fun k => ?_, h.kinds⟩
    · simpa only [totalBytes_setBytes] using h.all
    · have hkind := h.kind k
      simp only [bytes_setBytes]
      by_cases hk : k = kind
      · subst hk
        simp only [if_true]
        omega
      · simpa only [hk, if_false, Nat.add_zero] using hkind
  · have hstep : l.step (.permits kind size) =
        { l with
          policy := (l.policy.permits kind size).2
          loose := l.loose + demand.ratio * size } := by
      simp only [step, charge, hrun, hdemand, hsame, if_true, Bool.false_eq_true, if_false]
    rw [hstep, hrun]
    refine ⟨?_, fun k => ?_, h.kinds⟩
    · have hall := h.all
      dsimp only
      omega
    · have hkind := h.kind k
      cases k <;> exact hkind

theorem Covered.step (h : l.Covered) : ∀ e, volume l.policy e < 2 ^ 64 → (l.step e).Covered
  | .record kind bytes peers, _ => h.record kind bytes peers
  | .permits kind size, hfits => h.permits kind size hfits

theorem volume_step (l : Ledger) (e : Event) : volume (l.step e).policy = volume l.policy := by
  funext e'
  cases e' with
  | record kind bytes peers => rfl
  | permits kind size => simp only [volume, price, value_step]

theorem Covered.run (h : l.Covered) (events : List Event)
    (hfits : (events.map (volume l.policy)).sum < 2 ^ 64) : (l.run events).Covered := by
  induction events generalizing l with
  | nil => exact h
  | cons e events ih =>
    rw [List.map_cons, List.sum_cons] at hfits
    refine ih (h.step e (by omega)) ?_
    rw [volume_step]
    omega

/-! ### Messages of one sort -/

theorem sameKind_iff {value : Int} {demand : Demand} (h : Demand.ofValue? value = some demand) :
    0 < value ∧ (demand.sameKind = true ↔ 1000 ≤ value) := by
  unfold Demand.ofValue? at h
  split at h
  · cases h
  · split at h <;> cases h <;> simp <;> omega

theorem strict_step (h : ∀ k, l.policy.value k < 1000) (e : Event) :
    (l.step e).strict = l.strict := by
  cases e with
  | record kind bytes peers => rfl
  | permits kind size =>
    obtain hrun | ⟨hdemand, hrun⟩ | ⟨demand, hdemand, ⟨hsame, -, -⟩ | ⟨hsame, -, hrun⟩⟩ :=
      l.policy.permits_cases kind size
    · simp only [step, hrun, Bool.false_eq_true, if_false]
    · simp only [step, charge, hrun, hdemand, if_true]
    · have hlarge := (sameKind_iff hdemand).2.1 hsame
      have hsmall := h kind
      omega
    · simp only [step, charge, hrun, hdemand, hsame, if_true, Bool.false_eq_true, if_false]

theorem loose_step (h : ∀ k, 0 < l.policy.value k → 1000 ≤ l.policy.value k) (e : Event) :
    (l.step e).loose = l.loose := by
  cases e with
  | record kind bytes peers => rfl
  | permits kind size =>
    obtain hrun | ⟨hdemand, hrun⟩ | ⟨demand, hdemand, ⟨hsame, -, hrun⟩ | ⟨hsame, -, -⟩⟩ :=
      l.policy.permits_cases kind size
    · simp only [step, hrun, Bool.false_eq_true, if_false]
    · simp only [step, charge, hrun, hdemand, if_true]
    · simp only [step, charge, hrun, hdemand, hsame, if_true]
    · obtain ⟨hpos, hsort⟩ := sameKind_iff hdemand
      rw [hsort.2 (h kind hpos)] at hsame
      cases hsame

theorem strict_run (h : ∀ k, l.policy.value k < 1000) (events : List Event) :
    (l.run events).strict = l.strict := by
  induction events generalizing l with
  | nil => rfl
  | cons e events ih =>
    have hnext : ∀ k, (l.step e).policy.value k < 1000 := by rwa [value_step]
    exact (ih hnext).trans (strict_step h e)

theorem loose_run (h : ∀ k, 0 < l.policy.value k → 1000 ≤ l.policy.value k) (events : List Event) :
    (l.run events).loose = l.loose := by
  induction events generalizing l with
  | nil => rfl
  | cons e events ih =>
    have hnext : ∀ k, 0 < (l.step e).policy.value k → 1000 ≤ (l.step e).policy.value k := by
      rwa [value_step]
    exact (ih hnext).trans (loose_step h e)

end Ledger

/-- Messages of one kind take from the pool of all traffic, and those of another from their own. -/
def Mixed (p : TrafficPolicy) : Prop :=
  ∃ one other, 0 < p.value one ∧ p.value one < 1000 ∧ 1000 ≤ p.value other

namespace Ledger

/-- As much traffic of one kind as covers a message of each sort, from enough peers, and then the
two messages. -/
def twice (p : TrafficPolicy) (one other : TrafficKind) : List Event :=
  let ratio := (p.value other).toNat / 1000
  let peers := (p.value other).toNat % 1000
  [.record (some other) ((p.value one).toNat * ratio) peers, .permits one ratio,
    .permits other (p.value one).toNat]

theorem spent_le_of_not_mixed {p : TrafficPolicy} (h : (start p).Covered) (hone : ¬ p.Mixed)
    (events : List Event) (hfits : (events.map (volume p)).sum < 2 ^ 64) :
    ((start p).run events).spent ≤ ((start p).run events).recorded := by
  have hcovered := h.run events hfits
  by_cases hloose : ∀ k, p.value k < 1000
  · have hstrict : ((start p).run events).strict = fun _ => 0 := strict_run hloose events
    calc ((start p).run events).spent
        = ((start p).run events).loose := by simp only [spent, hstrict, overKinds, Nat.add_zero]
      _ ≤ ((start p).run events).recorded := by
        have hall := hcovered.all
        omega
  · obtain ⟨other, hother⟩ := not_forall.1 hloose
    have hstrict : ∀ k, 0 < p.value k → 1000 ≤ p.value k := by
      intro k hpos
      by_contra hlarge
      exact hone ⟨k, other, hpos, by omega, Int.not_lt.1 hother⟩
    have hnone : ((start p).run events).loose = 0 := loose_run hstrict events
    calc ((start p).run events).spent
        = overKinds ((start p).run events).strict := by rw [spent, hnone, Nat.zero_add]
      _ ≤ overKinds ((start p).run events).recordedOf := by
        apply overKinds_mono
        intro k
        have hkind := hcovered.kind k
        omega
      _ ≤ ((start p).run events).recorded := hcovered.kinds

/-- A message of the first sort that is covered goes through, and leaves the pools of the kinds. -/
theorem permits_loose (l : Ledger) (one : TrafficKind) (size : Nat) (hpos : 0 < l.policy.value one)
    (hone : l.policy.value one < 1000) (hfits : (l.policy.value one).toNat * size < 2 ^ 64)
    (hcover : (l.policy.value one).toNat * size ≤ l.policy.counters.totalBytes) :
    l.step (.permits one size) =
      { l with
        policy := { l.policy with
          counters := { l.policy.counters with
            totalBytes := l.policy.counters.totalBytes - (l.policy.value one).toNat * size } }
        loose := l.loose + (l.policy.value one).toNat * size } := by
  have hdemand : Demand.ofValue? (l.policy.value one) =
      some ⟨(l.policy.value one).toNat, 0, false⟩ := by
    rw [Demand.ofValue?, if_neg (Int.not_le.2 hpos), if_pos hone]
  have hcost := cost_of_lt ⟨(l.policy.value one).toNat, 0, false⟩ hfits
  simp only [step, charge, permits, consume, hdemand, hcost, Nat.not_lt_zero, Bool.false_eq_true,
    if_false, Nat.not_lt.2 hcover, if_true]

/-- So does one of the second sort, from enough peers. -/
theorem permits_strict (l : Ledger) (other : TrafficKind) (size : Nat)
    (hother : 1000 ≤ l.policy.value other)
    (hpeers : (l.policy.value other).toNat % 1000 ≤ l.policy.counters.peers other)
    (hfits : (l.policy.value other).toNat / 1000 * size < 2 ^ 64)
    (hcover : (l.policy.value other).toNat / 1000 * size ≤ l.policy.counters.bytes other) :
    (l.step (.permits other size)).spent =
        l.spent + (l.policy.value other).toNat / 1000 * size ∧
      (l.step (.permits other size)).recorded = l.recorded := by
  have hdemand : Demand.ofValue? (l.policy.value other) =
      some ⟨(l.policy.value other).toNat / 1000, (l.policy.value other).toNat % 1000, true⟩ := by
    rw [Demand.ofValue?, if_neg (by omega), if_neg (by omega)]
  have hcost := cost_of_lt
    ⟨(l.policy.value other).toNat / 1000, (l.policy.value other).toNat % 1000, true⟩ hfits
  simp only [step, charge, permits, consume, hdemand, hcost, Nat.not_lt.2 hpeers, if_false,
    Nat.not_lt.2 hcover, if_true, spent, overKinds_add_single, Nat.add_assoc, and_self]

theorem counters_record (p : TrafficPolicy) (kind : TrafficKind) (bytes peers : Nat)
    (h : p.counters = .empty) (hbytes : bytes < 2 ^ 64) (hpeers : peers < 2 ^ 32) :
    let c := (p.record (some kind) bytes peers).counters
    c.totalBytes = bytes ∧ c.bytes kind = bytes ∧ c.peers kind = peers := by
  have hbytes : saturate64 (0 + bytes) = bytes := by rw [Nat.zero_add, saturate64_of_lt hbytes]
  have hpeers : saturate32 (0 + peers) = peers := by
    rw [Nat.zero_add]
    exact Nat.min_eq_left (Nat.le_pred_of_lt hpeers)
  unfold record TrafficCounters.record
  rw [h]
  cases kind <;> exact ⟨hbytes, hbytes, hpeers⟩

theorem volume_twice_lt {p : TrafficPolicy} {one other : TrafficKind} (hone : p.value one < 1000)
    (hbound : p.value other < 2 ^ 31) : ((twice p one other).map (volume p)).sum < 2 ^ 64 := by
  have hratio : (p.value one).toNat * ((p.value other).toNat / 1000) ≤ 1000 * 2 ^ 31 :=
    Nat.mul_le_mul (by omega) (by omega)
  have hfirst : p.price one ((p.value other).toNat / 1000) ≤ 1000 * 2 ^ 31 :=
    (p.price_le _ _).trans hratio
  have hsecond : p.price other (p.value one).toNat ≤ 2 ^ 31 * 1000 :=
    (p.price_le _ _).trans (Nat.mul_le_mul (by omega) (by omega))
  simp only [twice, volume, List.map_cons, List.map_nil, List.sum_cons, List.sum_nil]
  omega

/-- Both messages go through, and each costs as much as was recorded. -/
theorem recorded_lt_spent {p : TrafficPolicy} {one other : TrafficKind}
    (hempty : p.counters = .empty) (hpos : 0 < p.value one) (hone : p.value one < 1000)
    (hother : 1000 ≤ p.value other) (hbound : p.value other < 2 ^ 31) :
    ((start p).run (twice p one other)).recorded < ((start p).run (twice p one other)).spent := by
  obtain ⟨factor, hfactor⟩ : ∃ factor, (p.value one).toNat = factor := ⟨_, rfl⟩
  obtain ⟨ratio, hratio⟩ : ∃ ratio, (p.value other).toNat / 1000 = ratio := ⟨_, rfl⟩
  obtain ⟨peers, hpeers⟩ : ∃ peers, (p.value other).toNat % 1000 = peers := ⟨_, rfl⟩
  have hfits : factor * ratio < 2 ^ 64 :=
    calc factor * ratio ≤ 1000 * (2 ^ 31 / 1000) := Nat.mul_le_mul (by omega) (by omega)
      _ < 2 ^ 64 := by decide
  obtain ⟨htotal, hbytes, hknown⟩ :=
    counters_record p other (factor * ratio) peers hempty hfits (by omega)
  obtain ⟨first, hfirst⟩ :
      ∃ first, (start p).step (.record (some other) (factor * ratio) peers) = first := ⟨_, rfl⟩
  obtain ⟨second, hsecond⟩ : ∃ second, first.step (.permits one ratio) = second := ⟨_, rfl⟩
  have hrun : (start p).run (twice p one other) = second.step (.permits other factor) := by
    rw [← hsecond, ← hfirst, twice, hfactor, hratio, hpeers]
    rfl
  have hvalue : first.policy.value = p.value := hfirst ▸ value_step _ _
  have hvalue' : second.policy.value = p.value := hsecond ▸ (value_step _ _).trans hvalue
  -- The first message takes from the pool of all traffic, so the second finds its own pool full.
  have hloose := permits_loose first one ratio
  rw [hvalue, hfactor] at hloose
  have hafter := hsecond ▸ hloose hpos hone hfits (by rw [← hfirst]; exact htotal.ge)
  have hstrict := permits_strict second other factor
  rw [hvalue', hratio, hpeers] at hstrict
  have hpool : second.policy.counters.bytes other = factor * ratio ∧
      second.policy.counters.peers other = peers := by
    rw [hafter, ← hfirst]
    cases other <;> exact ⟨hbytes, hknown⟩
  obtain ⟨hspent, hrecorded⟩ := hstrict hother hpool.2.ge (by rwa [Nat.mul_comm])
    (by rw [hpool.1, Nat.mul_comm])
  have hspent' : second.spent = factor * ratio := by
    rw [hafter, ← hfirst]
    exact (Nat.add_zero _).trans (Nat.zero_add _)
  have hrecorded' : second.recorded = factor * ratio := by
    rw [hafter, ← hfirst]
    exact Nat.zero_add _
  have hpositive : 0 < ratio * factor := Nat.mul_pos (by omega) (by omega)
  rw [hrun, hspent, hrecorded, hspent', hrecorded']
  omega

end Ledger

/-- Whatever was recorded and asked for: a message that is held back changes nothing. As long as all
that is counted fits in a word, no pool is overdrawn, and the messages that went through cost
together no more than was recorded, unless they take from pools of both sorts: then small numbers
suffice for them to cost more. -/
theorem covered_unless_mixed (send receive : Int32) :
    let p := new send.toInt receive.toInt
    let first := Ledger.start p
    (∀ events kind size, ((first.run events).policy.permits kind size).1 = false →
      ((first.run events).policy.permits kind size).2 = (first.run events).policy) ∧
    (∀ events, (events.map p.volume).sum < 2 ^ 64 →
      (first.run events).loose ≤ (first.run events).recorded ∧
      ∀ kind, (first.run events).strict kind ≤ (first.run events).recordedOf kind) ∧
    (¬ p.Mixed → ∀ events, (events.map p.volume).sum < 2 ^ 64 →
      (first.run events).spent ≤ (first.run events).recorded) ∧
    (p.Mixed → ∃ events, (events.map p.volume).sum < 2 ^ 64 ∧
      (first.run events).recorded < (first.run events).spent) := by
  intro p first
  have hcovered : first.Covered := Ledger.covered_start _ _
  refine ⟨fun events kind size h => permits_of_refused h, fun events hfits => ?_, ?_, ?_⟩
  · have hrun := hcovered.run events hfits
    constructor
    · exact Nat.le_of_add_left_le hrun.all
    · intro kind
      exact Nat.le_of_add_left_le (hrun.kind kind)
  · intro hmixed events hfits
    exact Ledger.spent_le_of_not_mixed hcovered hmixed events hfits
  · rintro ⟨one, other, hpos, hone, hother⟩
    have hbound : p.value other < 2 ^ 31 := by
      cases other
      · exact receive.toInt_lt
      · exact send.toInt_lt
      · exact send.toInt_lt
    exact ⟨Ledger.twice p one other, Ledger.volume_twice_lt hone hbound,
      Ledger.recorded_lt_spent rfl hpos hone hother hbound⟩

/-- Three hundred bytes cover a query of a hundred bytes at two bytes each, and not a second one. -/
theorem spent_le_recorded_of_one_query :
    let p := new (0 : Int32).toInt (2 : Int32).toInt
    let events := [.record none 300 0, .permits .query 100, .permits .query 100]
    ¬ p.Mixed ∧ (events.map p.volume).sum = 700 ∧ ((Ledger.start p).run events).spent = 200 ∧
      ((Ledger.start p).run events).spent ≤ ((Ledger.start p).run events).recorded := by
  intro p events
  have hvalue : ∀ kind, p.value kind < 1000 := by
    intro kind
    cases kind <;> decide
  have hmixed : ¬ p.Mixed := fun ⟨_, other, _, _, hother⟩ => absurd (hvalue other) (by omega)
  have hvolume : (events.map p.volume).sum = 700 := by decide
  exact ⟨hmixed, hvolume, by decide,
    (covered_unless_mixed 0 2).2.2.1 hmixed events (by rw [hvolume]; decide)⟩

/-- Queries may ask for cover of any kind, and results for results: a hundred bytes of results then
cover a query and a result of a hundred bytes each. -/
theorem one_cover_for_two :
    let events := [.record (some .chkResult) 100 0, .permits .query 100, .permits .chkResult 100]
    ((Ledger.start (new 1000 1)).run events).spent = 200 ∧
      ((Ledger.start (new 1000 1)).run events).recorded = 100 ∧
      ¬ ∀ (send receive : Int32) (events : List Event),
        let p := new send.toInt receive.toInt
        let l := (Ledger.start p).run events
        (events.map p.volume).sum < 2 ^ 64 → l.spent ≤ l.recorded := by
  intro events
  have hspent : ((Ledger.start (new 1000 1)).run events).spent = 200 := by decide
  have hrecorded : ((Ledger.start (new 1000 1)).run events).recorded = 100 := by decide
  refine ⟨hspent, hrecorded, fun hall => ?_⟩
  have hle : ((Ledger.start (new 1000 1)).run events).spent ≤
    ((Ledger.start (new 1000 1)).run events).recorded := hall 1000 1 events (by decide)
  omega

/-- A cost past the word starts again at zero, so such a message needs no cover at all. -/
example : ((Ledger.start (new 0 2)).run [.permits .query (2 ^ 63)]).spent = 2 ^ 64 := by decide

end TrafficPolicy

end ContentTree

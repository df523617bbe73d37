import Mathlib.Data.List.Forall2
import Mathlib.Order.Nat
import ContentTree.Proofs.Requests.Senders

/-!
# Which request a send was made for

A node may ask again after its request is gone, and sends of the old request may still wait for
their verdicts then. Here requests are numbered, so that two requests of one node are told apart,
and each send is kept with the number of the request that it was made for. A continuation that names
a node was always created by a send of the request outstanding for it. So a verdict on an old send
changes nothing, whatever the node asks for by now.
-/

namespace ContentTree

namespace RequestTable

variable {ρ : Type}

theorem nodes_update (t : RequestTable ρ) (node : NodeId) (query : Query) :
    (t.call (.update node (some query))).nodes = t.nodes := by
  rw [nodes_eq, nodes_eq, questions, call, map_fst_modifyFirst]
  · rfl
  · exact fun _ => rfl

theorem nodes_endgame (t : RequestTable ρ) : (t.call .endgame).nodes = t.nodes := by
  simp [nodes, call]

theorem remove_of_not_mem {t : RequestTable ρ} {node : NodeId} (h : node ∉ t.nodes) :
    t.remove node = t := by
  have hnone : t.position? node = none := by
    rw [position?, List.findIdx?_eq_none_iff]
    intro e he
    rw [decide_eq_false_iff_not]
    rintro rfl
    exact h (List.mem_map_of_mem he)
  rw [remove, hnone]

/-- Removing takes away the first request of the node. -/
theorem remove_of_mem {t : RequestTable ρ} {node : NodeId} (h : node ∈ t.nodes) :
    ∃ e, e.node = node ∧ t.requests.Perm (e :: (t.remove node).requests) ∧
      (t.remove node).stats =
        { t.stats with currentRetries := t.stats.currentRetries - (e.tries - 1) } ∧
      (t.remove node).unresolved =
        t.unresolved.map fun u => if u.node = some node then { u with node := none } else u := by
  unfold remove
  cases hposition : t.position? node with
  | none =>
    obtain ⟨e, he, hnode⟩ := List.mem_map.1 h
    have hall := List.findIdx?_eq_none_iff.1 hposition e he
    simp only [hnode, decide_true, Bool.true_eq_false] at hall
  | some j =>
    obtain ⟨hlt, hnode, -⟩ := List.findIdx?_eq_some_iff_getElem.1 hposition
    have hget := List.getElem?_eq_getElem hlt
    rw [decide_eq_true_eq] at hnode
    refine ⟨t.requests[j], hnode, ?_⟩
    simp only [removeAt, hget, hnode, and_self, and_true]
    exact perm_swapRemove hget

/-! ### Events -/

/-- What happens to a table apart from sends and their verdicts. -/
inductive Upkeep
  | call (c : SchedulerCall)
  | tick (now : Int)
  | observe (average : Nat)
  | record (kind : Option TrafficKind) (bytes peers : Nat)
  | reply (s : Suite) (block : Block)
  | abort

def maintain (t : RequestTable ρ) : Upkeep → RequestTable ρ
  | .call c => t.call c
  | .tick now => t.tick now
  | .observe average => t.observe average
  | .record kind bytes peers => t.recordTraffic kind bytes peers
  | .reply s block => (t.matchReply s block).2
  | .abort => t.abortAll

inductive Event
  | upkeep (u : Upkeep)
  /-- A scheduling pass with the sender's answers. -/
  | pass (accepts : Nat → Query → Bool)
  | returnValue (value : Int32)
  | sendFailed

/-- A source without chance: every draw is zero, and indices are visited in order. -/
instance still : RandomSource Unit where
  below _ _ := (0, ())
  shuffle n _ := (List.range n, ())
  below_lt _ _ h := h
  shuffle_perm _ _ := .refl _

variable [RandomSource ρ]

def handle (t : RequestTable ρ) : Event → RequestTable ρ
  | .upkeep u => t.maintain u
  | .pass accepts => (t.schedule accepts).2
  | .returnValue value => t.onReturnValue value
  | .sendFailed => t.onSendFailed

omit [RandomSource ρ] in
theorem nodes_settleOldest (t : RequestTable ρ) (ok : Bool) : (t.settleOldest ok).nodes = t.nodes :=
  nodes_eq_of_questions (questions_settleOldest t ok)

end RequestTable

/-- A request as it is told apart from the earlier ones of its node. -/
structure Account where
  /-- Requests are numbered in the order in which they are made. -/
  number : Nat
  /-- Sends so far. -/
  sends : Nat
  /-- Sends but the first that the daemon accepted. -/
  repeats : Nat
  deriving DecidableEq

/-- A send that the sender accepted. -/
structure Send where
  /-- The request that it was made for. -/
  number : Nat
  /-- It is the first send of its request. -/
  first : Bool
  deriving DecidableEq

/-- A table with an account of its requests and sends. -/
structure Register (ρ : Type) where
  table : RequestTable ρ
  /-- The latest request of each node. -/
  account : NodeId → Account
  /-- The send behind each continuation of the table, in the table's order. -/
  waiting : List Send
  /-- Requests made so far. -/
  made : Nat
  /-- Queries that the sender accepted so far. -/
  accepted : Nat
  /-- Verdicts so far that found a send waiting. -/
  consumed : Nat

namespace Register

variable {ρ : Type}

open RequestTable

def start (tuning : Tuning) (random : ρ) (policy : Policy) (average : Nat) : Register ρ :=
  ⟨.new tuning random policy average, fun _ => ⟨0, 0, 0⟩, [], 0, 0, 0⟩

def enroll (x : Register ρ) (node : NodeId) : Register ρ :=
  { x with
    account := Function.update x.account node ⟨x.made, 0, 0⟩
    made := x.made + 1 }

def send (x : Register ρ) (node : NodeId) : Register ρ :=
  let a := x.account node
  { x with
    account := Function.update x.account node { a with sends := a.sends + 1 }
    waiting := x.waiting ++ [⟨a.number, a.sends = 0⟩] }

def credit (account : NodeId → Account) (s : Send) (node : NodeId) : Account :=
  let a := account node
  if a.number = s.number ∧ s.first = false then { a with repeats := a.repeats + 1 } else a

/-- A verdict is given on the oldest send that waits. -/
def judge (x : Register ρ) (ok : Bool) : Register ρ :=
  match x.waiting with
  | [] => x
  | s :: rest =>
    { x with
      account := if ok then credit x.account s else x.account
      waiting := rest }

def record [RandomSource ρ] (x : Register ρ) : RequestTable.Event → Register ρ
  | .upkeep (.call (.request node _ _)) => x.enroll node
  | .upkeep _ => x
  | .pass accepts =>
    { (x.table.senders accepts).foldl send x with
      accepted := x.accepted + (x.table.schedule accepts).1.sent.length }
  | .returnValue value =>
    { x.judge (value = returnOk) with consumed := x.consumed + min 1 x.table.unresolved.length }
  | .sendFailed =>
    { x.judge false with consumed := x.consumed + min 1 x.table.unresolved.length }

def step [RandomSource ρ] (x : Register ρ) (e : RequestTable.Event) : Register ρ :=
  { x.record e with table := x.table.handle e }

def run [RandomSource ρ] (x : Register ρ) (events : List RequestTable.Event) : Register ρ :=
  events.foldl step x

/-- A node asks anew only while nothing is asked for it. -/
def Admits (x : Register ρ) : RequestTable.Event → Prop
  | .upkeep (.call (.request node _ _)) => node ∉ x.table.nodes
  | _ => True

def Orderly [RandomSource ρ] (x : Register ρ) : List RequestTable.Event → Prop
  | [] => True
  | e :: events => x.Admits e ∧ (x.step e).Orderly events

instance (x : Register ρ) : (e : RequestTable.Event) → Decidable (x.Admits e)
  | .upkeep (.call (.request node ..)) => inferInstanceAs (Decidable (node ∉ x.table.nodes))
  | .upkeep (.call (.update ..)) | .upkeep (.call .endgame) | .upkeep (.call (.release _))
  | .upkeep (.tick _) | .upkeep (.observe _) | .upkeep (.record ..) | .upkeep (.reply ..)
  | .upkeep .abort | .pass _ | .returnValue _ | .sendFailed => inferInstanceAs (Decidable True)

instance decidableOrderly [RandomSource ρ] (x : Register ρ) :
    (events : List RequestTable.Event) → Decidable (x.Orderly events)
  | [] => inferInstanceAs (Decidable True)
  | e :: events =>
    have := decidableOrderly (x.step e) events
    inferInstanceAs (Decidable (x.Admits e ∧ (x.step e).Orderly events))

/-- The send was made for an earlier request, and the continuation names a node just if that is the
request outstanding for it. -/
structure Names (x : Register ρ) (u : Unresolved) (s : Send) : Prop where
  made : s.number < x.made
  node_iff : ∀ node, u.node = some node ↔ node ∈ x.table.nodes ∧ (x.account node).number = s.number

/-- The requests outstanding are told apart by their numbers, and each continuation names the
request that its send was made for. -/
structure Traced (x : Register ρ) : Prop where
  nodup : x.table.nodes.Nodup
  made : ∀ node ∈ x.table.nodes, (x.account node).number < x.made
  distinct : ∀ node ∈ x.table.nodes, ∀ node' ∈ x.table.nodes,
    (x.account node).number = (x.account node').number → node = node'
  named : List.Forall₂ x.Names x.table.unresolved x.waiting
  balance : x.table.unresolved.length + x.consumed = x.accepted

theorem traced_start (tuning : Tuning) (random : ρ) (policy : Policy) (average : Nat) :
    (start tuning random policy average).Traced where
  nodup := List.nodup_nil
  made := by simp [start, nodes, RequestTable.new]
  distinct := by simp [start, nodes, RequestTable.new]
  named := List.Forall₂.nil
  balance := rfl

section Steps

variable {x y : Register ρ}

/-- Requests and sends are told apart by their numbers alone. -/
theorem Traced.congr (h : x.Traced) (hnodes : y.table.nodes = x.table.nodes)
    (hnumber : ∀ node, (y.account node).number = (x.account node).number)
    (hmade : y.made = x.made) (hnamed : List.Forall₂ x.Names y.table.unresolved y.waiting)
    (hbalance : y.table.unresolved.length + y.consumed = y.accepted) : y.Traced where
  nodup := hnodes ▸ h.nodup
  made node hnode := by
    rw [hnumber, hmade]
    exact h.made node (hnodes ▸ hnode)
  distinct node hnode node' hnode' heq := by
    rw [hnodes] at hnode hnode'
    rw [hnumber, hnumber] at heq
    exact h.distinct node hnode node' hnode' heq
  named := by
    refine hnamed.imp fun u s hus => ⟨hmade ▸ hus.made, fun node => ?_⟩
    rw [hnodes, hnumber]
    exact hus.node_iff node
  balance := hbalance

/-- Nothing happens to requests and sends. -/
theorem Traced.idle (h : x.Traced) {table : RequestTable ρ} (hnodes : table.nodes = x.table.nodes)
    (hunresolved : table.unresolved = x.table.unresolved) : { x with table := table }.Traced :=
  h.congr (y := { x with table := table }) hnodes (fun _ => rfl) rfl (hunresolved ▸ h.named)
    (hunresolved ▸ h.balance)

theorem account_enroll_self (x : Register ρ) (node : NodeId) :
    (x.enroll node).account node = ⟨x.made, 0, 0⟩ := Function.update_self _ _ _

theorem account_enroll_of_ne {node m : NodeId} (hne : m ≠ node) :
    (x.enroll node).account m = x.account m := Function.update_of_ne hne _ _

theorem Traced.request (h : x.Traced) {node : NodeId} (handler : ReplyHandler) (query : Query)
    (hnew : node ∉ x.table.nodes) :
    { x.enroll node with table := x.table.call (.request node handler query) }.Traced := by
  have hnodes : (x.table.call (.request node handler query)).nodes = x.table.nodes ++ [node] := by
    simp [RequestTable.call, nodes]
  have hcases : ∀ m ∈ x.table.nodes ++ [node], m ∈ x.table.nodes ∨ m = node := by simp
  have hself := x.account_enroll_self node
  have hother : ∀ m ∈ x.table.nodes, (x.enroll node).account m = x.account m := fun m hm =>
    account_enroll_of_ne fun heq => hnew (heq ▸ hm)
  refine ⟨?_, ?_, ?_, ?_, h.balance⟩
  · rw [hnodes]
    exact (List.perm_append_singleton _ _).nodup_iff.2 (List.nodup_cons.2 ⟨hnew, h.nodup⟩)
  · intro m hm
    rw [hnodes] at hm
    change ((x.enroll node).account m).number < x.made + 1
    rcases hcases m hm with hold | rfl
    · rw [hother m hold]
      exact Nat.lt_succ_of_lt (h.made m hold)
    · rw [hself]
      exact Nat.lt_succ_self _
  · intro m hm m' hm' heq
    rw [hnodes] at hm hm'
    change ((x.enroll node).account m).number = ((x.enroll node).account m').number at heq
    rcases hcases m hm with hold | rfl <;> rcases hcases m' hm' with hold' | rfl
    · rw [hother m hold, hother m' hold'] at heq
      exact h.distinct m hold m' hold' heq
    · rw [hother m hold, hself] at heq
      exact absurd heq (h.made m hold).ne
    · rw [hself, hother m' hold'] at heq
      exact absurd heq.symm (h.made m' hold').ne
    · rfl
  · refine h.named.imp fun u s hus => ⟨Nat.lt_succ_of_lt hus.made, fun m => ?_⟩
    rw [hnodes, hus.node_iff]
    change _ ↔ _ ∧ ((x.enroll node).account m).number = s.number
    constructor
    · rintro ⟨hold, hnumber⟩
      exact ⟨List.mem_append_left _ hold, by rwa [hother m hold]⟩
    · rintro ⟨hm, hnumber⟩
      rcases hcases m hm with hold | rfl
      · exact ⟨hold, by rwa [hother m hold] at hnumber⟩
      · rw [hself] at hnumber
        exact absurd hnumber.symm hus.made.ne

theorem Traced.remove (h : x.Traced) (node : NodeId) :
    { x with table := x.table.remove node }.Traced := by
  by_cases hnode : node ∈ x.table.nodes
  · obtain ⟨e, rfl, hperm, -, hunresolved⟩ := remove_of_mem hnode
    have hnodes : x.table.nodes.Perm (e.node :: (x.table.remove e.node).nodes) := hperm.map _
    have hnodup := List.nodup_cons.1 (hnodes.nodup_iff.1 h.nodup)
    have hmem : ∀ m, m ∈ (x.table.remove e.node).nodes ↔ m ∈ x.table.nodes ∧ m ≠ e.node := by
      intro m
      rw [hnodes.mem_iff, List.mem_cons]
      constructor
      · intro hm
        exact ⟨.inr hm, fun heq => hnodup.1 (heq ▸ hm)⟩
      · rintro ⟨heq | hm, hne⟩
        · exact absurd heq hne
        · exact hm
    refine ⟨hnodup.2, fun m hm => h.made m ((hmem m).1 hm).1, fun m hm m' hm' =>
      h.distinct m ((hmem m).1 hm).1 m' ((hmem m').1 hm').1, ?_, ?_⟩
    · dsimp only
      rw [hunresolved, List.forall₂_map_left_iff]
      refine h.named.imp fun u s hus => ⟨hus.made, fun m => ?_⟩
      dsimp only
      rw [hmem, and_right_comm, ← hus.node_iff]
      by_cases hu : u.node = some e.node
      · rw [if_pos hu, hu]
        simp only [reduceCtorEq, Option.some.injEq, false_iff, not_and, not_not]
        exact fun heq => heq.symm
      · rw [if_neg hu]
        constructor
        · intro hm
          exact ⟨hm, fun heq => hu (heq ▸ hm)⟩
        · exact And.left
    · dsimp only
      rw [hunresolved, List.length_map]
      exact h.balance
  · rw [remove_of_not_mem hnode]
    exact h

theorem Traced.abort (h : x.Traced) : { x with table := x.table.abortAll }.Traced := by
  refine ⟨List.nodup_nil, ?_, ?_, ?_, ?_⟩
  · intro node hnode
    cases hnode
  · intro node hnode
    cases hnode
  · dsimp only [abortAll]
    rw [List.forall₂_map_left_iff]
    refine h.named.imp fun u s hus => ⟨hus.made, fun m => ?_⟩
    simp [nodes]
  · dsimp only [abortAll]
    rw [List.length_map]
    exact h.balance

theorem Traced.maintain [RandomSource ρ] (h : x.Traced) {u : Upkeep}
    (hadmits : x.Admits (.upkeep u)) : (x.step (.upkeep u)).Traced := by
  cases u with
  | call c =>
    cases c with
    | request node handler query => exact h.request handler query hadmits
    | update node query =>
      cases query with
      | none => exact h.remove node
      | some query => exact h.idle (nodes_update _ node query) rfl
    | endgame => exact h.idle (nodes_endgame _) rfl
    | release node => exact h.remove node
  | tick now => exact h.idle rfl rfl
  | observe average => exact h.idle rfl rfl
  | record kind bytes peers => exact h.idle rfl rfl
  | reply s block =>
    exact h.idle (nodes_eq_of_questions (questions_matchReply s _ block))
      (unresolved_matchReply s _ block)
  | abort => exact h.abort

theorem account_send (x : Register ρ) (node m : NodeId) :
    ((x.send node).account m).number = (x.account m).number ∧
      ((x.send node).account m).repeats = (x.account m).repeats := by
  by_cases hm : m = node
  · subst hm
    simp only [send, Function.update_self, and_self]
  · simp only [send, Function.update_of_ne hm, and_self]

/-- The senders of a pass are entered one after the other. -/
theorem sends_spec (senders : List NodeId) (x : Register ρ) :
    let y := senders.foldl send x
    (∃ sends, y.waiting = x.waiting ++ sends ∧
      sends.map (·.number) = senders.map fun node => (x.account node).number) ∧
    (∀ node, (y.account node).number = (x.account node).number ∧
      (y.account node).repeats = (x.account node).repeats) ∧
    y.made = x.made ∧ y.consumed = x.consumed := by
  induction senders generalizing x with
  | nil => exact ⟨⟨[], by simp⟩, fun _ => ⟨rfl, rfl⟩, rfl, rfl⟩
  | cons node senders ih =>
    obtain ⟨⟨sends, hwaiting, hnumbers⟩, haccount, hmade, hconsumed⟩ := ih (x.send node)
    refine ⟨⟨⟨(x.account node).number, (x.account node).sends = 0⟩ :: sends, ?_, ?_⟩, fun m => ?_,
      hmade, hconsumed⟩
    · rw [List.foldl_cons, hwaiting, send, List.append_assoc]
      rfl
    · rw [List.map_cons, List.map_cons, hnumbers]
      exact congrArg _ (List.map_congr_left fun m _ => (x.account_send node m).1)
    · obtain ⟨hnumber, hrepeats⟩ := x.account_send node m
      exact ⟨(haccount m).1.trans hnumber, (haccount m).2.trans hrepeats⟩

theorem forall₂_of_map_eq {α β γ δ ε : Type} {R : α → β → Prop} {f : α → γ} {f' : δ → γ}
    {g : β → ε} {g' : δ → ε} {as : List α} {bs : List β} {ds : List δ} (has : as.map f = ds.map f')
    (hbs : bs.map g = ds.map g') (h : ∀ d ∈ ds, ∀ a b, f a = f' d → g b = g' d → R a b) :
    List.Forall₂ R as bs := by
  induction ds generalizing as bs with
  | nil =>
    rw [List.map_eq_nil_iff.1 has, List.map_eq_nil_iff.1 hbs]
    exact .nil
  | cons d ds ih =>
    obtain ⟨a, as, rfl, ha, has⟩ := List.map_eq_cons_iff.1 has
    obtain ⟨b, bs, rfl, hb, hbs⟩ := List.map_eq_cons_iff.1 hbs
    exact .cons (h d List.mem_cons_self a b ha hb)
      (ih has hbs fun d' hd' => h d' (List.mem_cons_of_mem _ hd'))

variable [RandomSource ρ]

/-- A new continuation names the node that sends, and its request is the one outstanding. -/
theorem Traced.pass (h : x.Traced) (accepts : Nat → Query → Bool) :
    (x.step (.pass accepts)).Traced := by
  obtain ⟨news, hnews, hnodes, hlength⟩ := unresolved_schedule_node accepts x.table
  obtain ⟨⟨sends, hwaiting, hnumbers⟩, haccount, hmade, hconsumed⟩ :=
    sends_spec (x.table.senders accepts) x
  apply h.congr (y := x.step (.pass accepts)) (nodes_schedule accepts x.table)
    (fun node => (haccount node).1) hmade
  · dsimp only [step, handle, record]
    rw [hnews, hwaiting]
    refine List.rel_append h.named (forall₂_of_map_eq hnodes hnumbers ?_)
    intro node hsender u s hu hs
    have hnode := mem_nodes_of_mem_senders hsender
    refine ⟨hs ▸ h.made node hnode, fun m => ?_⟩
    rw [hu, hs, Option.some.injEq]
    constructor
    · rintro rfl
      exact ⟨hnode, rfl⟩
    · rintro ⟨hm, hnumber⟩
      exact h.distinct node hnode m hm hnumber.symm
  · have hbalance := h.balance
    have hsame : news.length = (x.table.senders accepts).length := by
      simpa using congrArg List.length hnodes
    dsimp only [step, handle, record]
    rw [hconsumed, hnews, List.length_append, hlength, hsame]
    omega

omit [RandomSource ρ] in
theorem number_credit (account : NodeId → Account) (s : Send) (node : NodeId) :
    (credit account s node).number = (account node).number := by
  unfold credit
  dsimp only
  split <;> rfl

omit [RandomSource ρ] in
theorem number_judge (x : Register ρ) (ok : Bool) (node : NodeId) :
    ((x.judge ok).account node).number = (x.account node).number := by
  unfold judge
  split
  · rfl
  · cases ok
    · rfl
    · exact number_credit _ _ _

omit [RandomSource ρ] in
theorem Traced.judge (h : x.Traced) (ok : Bool) :
    { x.judge ok with
      table := x.table.settleOldest ok
      consumed := x.consumed + min 1 x.table.unresolved.length }.Traced := by
  have hwaiting : (x.judge ok).waiting = x.waiting.tail ∧ (x.judge ok).made = x.made ∧
      (x.judge ok).accepted = x.accepted := by
    unfold Register.judge
    split
    · rename_i hnone
      exact ⟨by rw [hnone]; rfl, rfl, rfl⟩
    · rename_i hsome
      exact ⟨by rw [hsome]; rfl, rfl, rfl⟩
  apply h.congr (y := { x.judge ok with
      table := x.table.settleOldest ok
      consumed := x.consumed + min 1 x.table.unresolved.length })
    (nodes_settleOldest _ ok) (number_judge x ok) hwaiting.2.1
  · dsimp only
    rw [unresolved_settleOldest, hwaiting.1, ← List.drop_one, ← List.drop_one]
    exact List.forall₂_drop 1 h.named
  · have hbalance := h.balance
    dsimp only
    rw [unresolved_settleOldest, List.length_tail, hwaiting.2.2]
    omega

theorem Traced.step (h : x.Traced) {e : RequestTable.Event} (hadmits : x.Admits e) :
    (x.step e).Traced := by
  cases e with
  | upkeep u => exact h.maintain hadmits
  | pass accepts => exact h.pass accepts
  | returnValue value => exact h.judge _
  | sendFailed => exact h.judge false

theorem Traced.run {events : List RequestTable.Event} (h : x.Traced) (horderly : x.Orderly events) :
    (x.run events).Traced := by
  induction events generalizing x with
  | nil => exact h
  | cons e events ih => exact ih (h.step horderly.1) horderly.2

omit [RandomSource ρ] in
/-- A verdict on a send whose request is gone changes nothing but the queue. -/
theorem Traced.settleOldest (h : x.Traced) {s : Send} (hs : x.waiting.head? = some s)
    (hgone : ∀ node ∈ x.table.nodes, (x.account node).number ≠ s.number) (ok : Bool) :
    x.table.settleOldest ok = { x.table with unresolved := x.table.unresolved.tail } := by
  have hnamed := h.named
  unfold RequestTable.settleOldest
  cases hunresolved : x.table.unresolved with
  | nil =>
    have hsame : x.table = { x.table with unresolved := [] } := by rw [← hunresolved]
    exact hsame
  | cons u us =>
    rw [hunresolved] at hnamed
    cases hwaiting : x.waiting with
    | nil => rw [hwaiting] at hnamed; cases hnamed
    | cons s' rest =>
      rw [hwaiting] at hs hnamed
      obtain rfl : s' = s := Option.some.inj hs
      have hnames := (List.forall₂_cons.1 hnamed).1
      have hnode : u.node = none := by
        rw [Option.eq_none_iff_forall_ne_some]
        intro node hnode
        obtain ⟨hmem, hnumber⟩ := (hnames.node_iff node).1 hnode
        exact hgone node hmem hnumber
      dsimp only
      rw [settle, hnode]
      rfl

end Steps

/-- As long as no node asks anew while its request is outstanding, no two requests share a node,
each continuation that names a node was created by a send of the request outstanding for it, a
verdict on a send whose request is gone leaves everything but the queue alone, and the queue has as
many continuations as queries were accepted less verdicts consumed. -/
theorem verdicts_kept_apart [RandomSource ρ] (tuning : Tuning) (random : ρ) (policy : Policy)
    (average : Nat) (events : List RequestTable.Event)
    (horderly : (start tuning random policy average).Orderly events) :
    let x := (start tuning random policy average).run events
    x.table.nodes.Nodup ∧
      List.Forall₂ x.Names x.table.unresolved x.waiting ∧
      (∀ s, x.waiting.head? = some s →
        (∀ node ∈ x.table.nodes, (x.account node).number ≠ s.number) → ∀ value,
          let rest := { x.table with unresolved := x.table.unresolved.tail }
          x.table.onReturnValue value = rest ∧ x.table.onSendFailed = rest) ∧
      x.table.unresolved.length + x.consumed = x.accepted := by
  intro x
  have hx : x.Traced := (traced_start tuning random policy average).run horderly
  refine ⟨hx.nodup, hx.named, fun s hs hgone value => ⟨?_, ?_⟩, hx.balance⟩
  · exact hx.settleOldest hs hgone _
  · exact hx.settleOldest hs hgone false

/-- A request is released while its send waits, and its node asks again. -/
theorem verdict_of_released_request :
    let events : List RequestTable.Event :=
      [.upkeep (.call (.request 0 .own (.new [zeroDigest]))), .pass fun _ _ => true,
        .upkeep (.call (.release 0)), .upkeep (.call (.request 0 .own (.new [zeroDigest])))]
    let x := (start Tuning.default () .open 0).run events
    (start Tuning.default () .open 0).Orderly events ∧ x.table.nodes = [0] ∧
      x.table.unresolved.length = 1 ∧
      x.table.onReturnValue returnOk = { x.table with unresolved := x.table.unresolved.tail } := by
  intro events x
  have horderly : (start Tuning.default () .open 0).Orderly events := by decide
  have hgone : ∀ node ∈ x.table.nodes, (x.account node).number ≠ 0 := by decide
  obtain ⟨-, -, hstale, -⟩ := verdicts_kept_apart Tuning.default () .open 0 events horderly
  exact ⟨horderly, by decide, by decide, (hstale ⟨0, true⟩ (by decide) hgone returnOk).1⟩

end Register

end ContentTree

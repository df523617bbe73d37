import Mathlib.Data.List.Perm.Basic
import ContentTree.Proofs.Requests.Continuations

/-!
# The questions of a request table

What the table asks for a node changes with the calls of the tree alone. Passes, verdicts and replies
change when and how a question is sent. As long as no node asks anew while its question is
outstanding, the table has one request for each question and no other.
-/

namespace ContentTree

/-- Who takes the replies, and the hashes asked for. -/
abbrev Question := ReplyHandler × List Digest

/-- The question outstanding for each node. -/
abbrev Book := Nat → Option Question

namespace Book

variable {b b' b'' : Book} {calls calls' : List SchedulerCall}

def call (b : Book) : SchedulerCall → Book
  | .request node handler query => Function.update b node (some (handler, query.hashes))
  | .update node (some query) =>
    Function.update b node ((b node).map fun q => (q.1, query.hashes))
  | .update node none => Function.update b node none
  | .endgame => b
  | .release node => Function.update b node none

/-- A node asks anew only while nothing is asked for it. -/
def Allows (b : Book) : SchedulerCall → Prop
  | .request node _ _ => b node = none
  | _ => True

/-- The calls lead from one book to the other, and each is allowed when it comes. -/
def Leads (b : Book) : List SchedulerCall → Book → Prop
  | [], b' => b' = b
  | c :: calls, b' => b.Allows c ∧ (b.call c).Leads calls b'

theorem leads_append : b.Leads (calls ++ calls') b'' ↔
    ∃ b', b.Leads calls b' ∧ b'.Leads calls' b'' := by
  induction calls generalizing b with
  | nil => simp [Leads]
  | cons c calls ih => simp only [List.cons_append, Leads, ih, and_assoc, exists_and_left]

theorem Leads.trans (h : b.Leads calls b') (h' : b'.Leads calls' b'') :
    b.Leads (calls ++ calls') b'' := leads_append.2 ⟨b', h, h'⟩

end Book

namespace RequestTable

variable {ρ : Type}

def asked (e : Request) : Nat × Question := (e.node, e.handler, e.query.hashes)

def questions (t : RequestTable ρ) : List (Nat × Question) := t.requests.map asked

/-- The list holds each question of the book once, and nothing else. -/
structure Holds (qs : List (Nat × Question)) (b : Book) : Prop where
  nodup : (qs.map Prod.fst).Nodup
  mem_iff : ∀ node q, (node, q) ∈ qs ↔ b node = some q

section Holds

variable {qs qs' : List (Nat × Question)} {b : Book} {node : Nat} {q : Question}

theorem Holds.perm (h : Holds qs b) (hperm : qs.Perm qs') : Holds qs' b where
  nodup := (hperm.map Prod.fst).nodup_iff.1 h.nodup
  mem_iff node q := by rw [← hperm.mem_iff, h.mem_iff]

theorem Holds.not_mem (h : Holds qs b) (hnone : b node = none) : node ∉ qs.map Prod.fst := by
  rw [List.mem_map]
  rintro ⟨⟨node', q⟩, hmem, rfl⟩
  rw [h.mem_iff, hnone] at hmem
  cases hmem

theorem Holds.cons (h : Holds qs b) (hnone : b node = none) :
    Holds ((node, q) :: qs) (Function.update b node (some q)) where
  nodup := List.nodup_cons.2 ⟨h.not_mem hnone, h.nodup⟩
  mem_iff k p := by
    rw [List.mem_cons, h.mem_iff, Function.update_apply, Prod.mk.injEq]
    by_cases hk : k = node
    · subst hk
      simp [hnone, eq_comm]
    · simp [hk]

theorem Holds.tail (h : Holds ((node, q) :: qs) b) : Holds qs (Function.update b node none) where
  nodup := (List.nodup_cons.1 h.nodup).2
  mem_iff k p := by
    have hfirst := (List.nodup_cons.1 h.nodup).1
    rw [Function.update_apply]
    by_cases hk : k = node
    · subst hk
      rw [if_pos rfl]
      simp only [reduceCtorEq, iff_false]
      exact fun hmem => hfirst (List.mem_map.2 ⟨_, hmem, rfl⟩)
    · rw [if_neg hk, ← h.mem_iff, List.mem_cons, Prod.mk.injEq]
      simp [hk]

theorem Holds.of_none (h : Holds qs b) (hnone : b node = none) :
    Holds qs (Function.update b node none) := by
  rwa [← hnone, Function.update_eq_self]

end Holds

/-! ### Calls -/

section Calls

variable {b b' : Book}

theorem perm_swapRemove {es : List Request} {j : Nat} {e : Request} (h : es[j]? = some e) :
    es.Perm (e :: swapRemove es j) := by
  obtain ⟨hlt, rfl⟩ := List.getElem?_eq_some_iff.1 h
  rcases List.eq_nil_or_concat' es with rfl | ⟨init, last, rfl⟩
  · cases hlt
  · have hswap : swapRemove (init ++ [last]) j = ((init ++ [last]).set j last).dropLast := by
      simp [swapRemove]
    rw [hswap]
    by_cases hj : j < init.length
    · rw [List.set_append_left _ _ hj, List.dropLast_concat, List.getElem_append_left hj]
      have hset := List.set_perm_cons_eraseIdx hj last
      have hsame := (List.getElem_cons_eraseIdx_perm hj).symm
      have hswapped : (init ++ [last]).Perm (init[j] :: last :: init.eraseIdx j) :=
        (List.perm_append_singleton last init).trans
          ((hsame.cons last).trans (List.Perm.swap _ _ _))
      exact hswapped.trans (hset.symm.cons _)
    · rw [List.length_append, List.length_singleton] at hlt
      obtain rfl : j = init.length := by omega
      rw [List.set_append_right _ _ (Nat.le_refl _), Nat.sub_self, List.set_cons_zero,
        List.dropLast_concat, List.getElem_append_right (Nat.le_refl _)]
      simp only [Nat.sub_self, List.getElem_cons_zero]
      exact List.perm_append_singleton last init

theorem questions_removeAt {t : RequestTable ρ} {j : Nat} {e : Request}
    (h : t.requests[j]? = some e) : t.questions.Perm (asked e :: (t.removeAt j).questions) := by
  have hperm := (perm_swapRemove h).map asked
  rw [List.map_cons] at hperm
  simpa [questions, removeAt, h] using hperm

theorem Holds.remove {t : RequestTable ρ} (h : Holds t.questions b) (node : Nat) :
    Holds (t.remove node).questions (Function.update b node none) := by
  unfold RequestTable.remove position?
  cases hfind : t.requests.findIdx? (·.node = node) with
  | none =>
    refine h.of_none ?_
    rw [List.findIdx?_eq_none_iff] at hfind
    by_contra hsome
    obtain ⟨q, hq⟩ := Option.ne_none_iff_exists'.1 hsome
    obtain ⟨e, he, hasked⟩ := List.mem_map.1 ((h.mem_iff node q).2 hq)
    have hne := hfind e he
    rw [decide_eq_false_iff_not] at hne
    exact hne (congrArg Prod.fst hasked)
  | some j =>
    obtain ⟨hlt, hnode, -⟩ := List.findIdx?_eq_some_iff_getElem.1 hfind
    rw [decide_eq_true_eq] at hnode
    have hmoved := h.perm (questions_removeAt (List.getElem?_eq_getElem hlt))
    rw [← hnode]
    exact hmoved.tail

theorem map_asked_modifyFirst {f : Request → Request} {node : Nat} {hashes : List Digest}
    (hf : ∀ e : Request, asked (f e) = (e.node, e.handler, hashes)) {es : List Request}
    (hnodup : ((es.map asked).map Prod.fst).Nodup) (k : Nat) (q : Question) :
    (k, q) ∈ (modifyFirst f node es).map asked ↔
      if k = node then ∃ old, (k, old) ∈ es.map asked ∧ q = (old.1, hashes)
      else (k, q) ∈ es.map asked := by
  induction es with
  | nil => simp [modifyFirst]
  | cons e es ih =>
    rw [List.map_cons, List.map_cons, List.nodup_cons] at hnodup
    have hfirst : ∀ p, (e.node, p) ∉ es.map asked := fun p hmem =>
      hnodup.1 (List.mem_map.2 ⟨_, hmem, rfl⟩)
    have hrest := ih hnodup.2
    have he : asked e = (e.node, e.handler, e.query.hashes) := rfl
    unfold modifyFirst
    by_cases hnode : e.node = node
    · subst hnode
      rw [if_pos rfl, List.map_cons, List.map_cons, List.mem_cons, hf, he]
      by_cases hk : k = e.node
      · subst hk
        simp [hfirst]
      · simp [hk]
    · rw [if_neg hnode, List.map_cons, List.map_cons, List.mem_cons, hrest, he]
      by_cases hk : k = node
      · subst hk
        have hne : ∀ p, (k, p) ≠ (e.node, e.handler, e.query.hashes) := fun p heq =>
          hnode (congrArg Prod.fst heq).symm
        simp only [if_true, List.mem_cons, hne, false_or]
      · simp only [if_neg hk, List.mem_cons]

theorem map_fst_modifyFirst {f : Request → Request} (hf : ∀ e : Request, (f e).node = e.node)
    (node : Nat) (es : List Request) :
    ((modifyFirst f node es).map asked).map Prod.fst = (es.map asked).map Prod.fst := by
  induction es with
  | nil => rfl
  | cons e es ih =>
    unfold modifyFirst
    split
    · exact congrArg (· :: (es.map asked).map Prod.fst) (hf e)
    · exact congrArg (e.node :: ·) ih

/-- A call that is allowed changes the requests as it changes the book. -/
theorem Holds.call {t : RequestTable ρ} {c : SchedulerCall} (h : Holds t.questions b)
    (hallows : b.Allows c) : Holds (t.call c).questions (b.call c) := by
  cases c with
  | request node handler query =>
    have hcons : Holds ((node, handler, query.hashes) :: t.questions)
      (Function.update b node (some (handler, query.hashes))) := h.cons hallows
    refine hcons.perm ?_
    have happend : (t.call (.request node handler query)).questions =
        t.questions ++ [(node, handler, query.hashes)] := by
      simp [questions, RequestTable.call, asked]
    rw [happend]
    exact (List.perm_append_singleton _ _).symm
  | update node query =>
    cases query with
    | none => exact h.remove node
    | some query =>
      refine ⟨?_, fun k q => ?_⟩
      · rw [questions, RequestTable.call, map_fst_modifyFirst]
        · exact h.nodup
        · exact fun _ => rfl
      · refine (map_asked_modifyFirst (fun e => rfl) h.nodup k q).trans ?_
        change (if k = node then ∃ old, (k, old) ∈ t.questions ∧ q = (old.1, query.hashes)
          else (k, q) ∈ t.questions) ↔
            Function.update b node ((b node).map fun p => (p.1, query.hashes)) k = some q
        rw [Function.update_apply]
        by_cases hk : k = node
        · subst hk
          rw [if_pos rfl, if_pos rfl, Option.map_eq_some_iff]
          simp only [h.mem_iff, eq_comm]
        · simp only [if_neg hk, h.mem_iff]
  | endgame =>
    have hsame : (t.call .endgame).questions = t.questions := by
      simp [questions, RequestTable.call, asked]
    rw [hsame]
    exact h
  | release node => exact h.remove node

theorem Holds.calls {t : RequestTable ρ} {calls : List SchedulerCall} (h : Holds t.questions b)
    (hleads : b.Leads calls b') : Holds (calls.foldl RequestTable.call t).questions b' := by
  induction calls generalizing t b with
  | nil =>
    obtain rfl := hleads
    exact h
  | cons c calls ih => exact ih (h.call hleads.1) hleads.2

end Calls

/-! ### Everything else -/

section Upkeep

@[simp]
theorem questions_congestion (t : RequestTable ρ) : t.congestion.questions = t.questions := by
  unfold congestion
  dsimp only
  split <;> split <;> rfl

theorem map_asked_modifyFirst_of_same {f : Request → Request} (hf : ∀ e, asked (f e) = asked e)
    (node : Nat) (es : List Request) : (modifyFirst f node es).map asked = es.map asked := by
  induction es with
  | nil => rfl
  | cons e es ih =>
    unfold modifyFirst
    split
    · exact congrArg (· :: es.map asked) (hf e)
    · exact congrArg (asked e :: ·) ih

@[simp]
theorem questions_settle (t : RequestTable ρ) (u : Unresolved) (ok : Bool) :
    (t.settle u ok).questions = t.questions := by
  unfold settle
  split
  · rfl
  · cases ok with
    | true =>
      simp only [if_true]
      split
      · exact questions_congestion t
      · rfl
    | false =>
      simp only [Bool.false_eq_true, if_false]
      refine map_asked_modifyFirst_of_same ?_ _ _
      exact fun _ => rfl

@[simp]
theorem questions_settleOldest (t : RequestTable ρ) (ok : Bool) :
    (t.settleOldest ok).questions = t.questions := by
  unfold settleOldest
  split
  · rfl
  · exact questions_settle _ _ _

@[simp]
theorem questions_matchReply (s : Suite) (t : RequestTable ρ) (reply : Block) :
    (t.matchReply s reply).2.questions = t.questions := by
  unfold matchReply
  dsimp only
  split
  · exact questions_congestion _
  · split <;> rfl

/-- Replies are routed by the hashes of the requests. -/
theorem matchReply_eq_some {s : Suite} {t : RequestTable ρ} {reply : Block} {node : NodeId}
    {handler : ReplyHandler} {query : Digest}
    (h : (t.matchReply s reply).1 = some (node, handler, query)) :
    query = s.hash reply.toList ∧
      ∃ e ∈ t.requests, e.node = node ∧ e.handler = handler ∧ query ∈ e.query.hashes := by
  unfold matchReply at h
  dsimp only at h
  split at h
  · cases h
  · rename_i e hfind
    have hmem := List.mem_reverse.1 (List.mem_of_find?_eq_some hfind)
    have hcontains : s.hash reply.toList ∈ e.query.hashes := by
      simpa [Query.contains] using List.find?_some hfind
    have hfound : (e.node, e.handler, s.hash reply.toList) = (node, handler, query) := by
      split at h <;> exact Option.some.inj h
    obtain ⟨rfl, rfl, rfl⟩ : e.node = node ∧ e.handler = handler ∧ s.hash reply.toList = query := by
      simpa using hfound
    exact ⟨rfl, e, hmem, rfl, rfl, hcontains⟩

theorem matchReply_ne_none {s : Suite} {t : RequestTable ρ} {reply : Block} {e : Request}
    (he : e ∈ t.requests) (hmem : s.hash reply.toList ∈ e.query.hashes) :
    (t.matchReply s reply).1 ≠ none := by
  unfold matchReply
  dsimp only
  split
  · rename_i hfind
    have hnot := List.find?_eq_none.1 hfind e (List.mem_reverse.2 he)
    simp [Query.contains, hmem] at hnot
  · split <;> exact Option.some_ne_none _

variable [RandomSource ρ]

theorem map_asked_set {es : List Request} {j : Nat} {e e' : Request} (he : es[j]? = some e)
    (hsame : SameQuestion e e') : (es.set j e').map asked = es.map asked := by
  have hasked : asked e' = asked e := by
    rw [asked, asked, hsame.1, hsame.2.1, hsame.2.2]
  apply List.ext_getElem?
  intro k
  rw [List.map_set, List.getElem?_set, hasked]
  split
  · rename_i hjk
    subst hjk
    split <;> simp_all
  · rfl

theorem questions_attempt (accepts : Query → Bool) (t : RequestTable ρ) {j : Nat} {e : Request}
    (he : t.requests[j]? = some e) : (t.attempt accepts j e).table.questions = t.questions := by
  obtain ⟨held, policy, random, hheld, -, hattempt⟩ |
    ⟨sending, undo, policy, random, count, ttl, unavailable, hsending, -, -, -, hattempt⟩ :=
      t.attempt_cases accepts j e
  · rw [hattempt]
    exact map_asked_set he hheld.question
  · rw [hattempt]
    by_cases haccepts : accepts sending.query
    · simp only [haccepts, if_true]
      exact map_asked_set he hsending.question
    · simp only [haccepts, if_false, Bool.false_eq_true, questions_settle]
      exact map_asked_set he hsending.question

theorem questions_visit (accepts : Nat → Query → Bool) (p : Pass ρ) (j : Nat) :
    (p.visit accepts j).table.questions = p.table.questions := by
  obtain ⟨r, htable, -⟩ | ⟨e, r, he, htable, -⟩ := visit_cases accepts p j
  · rw [htable]
    rfl
  · rw [htable]
    exact questions_attempt (accepts p.offered) { p.table with random := r } he

theorem questions_visits (accepts : Nat → Query → Bool) (order : List Nat) (p : Pass ρ) :
    (order.foldl (Pass.visit accepts) p).table.questions = p.table.questions := by
  induction order generalizing p with
  | nil => rfl
  | cons j order ih => rw [List.foldl_cons, ih, questions_visit]

/-- A pass asks nothing new and drops nothing. -/
@[simp]
theorem questions_schedule (accepts : Nat → Query → Bool) (t : RequestTable ρ) :
    (t.schedule accepts).2.questions = t.questions := by
  unfold schedule
  dsimp only
  split
  · rfl
  · exact questions_visits accepts _ _

end Upkeep

end RequestTable

end ContentTree

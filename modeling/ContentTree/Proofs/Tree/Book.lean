import ContentTree.Proofs.Requests.Questions
import ContentTree.Proofs.Tree.Staged

/-!
# What a tree asks for

A pending root asks for itself, and a node with pending children for them. The calls of a move change
the questions outstanding just as the move changes the tree.
-/

namespace ContentTree

namespace Download

variable {env : Env} {st st' : State} {t t' : Tree} {id k : Nat} {n m b : Node}

/-- What is asked for a node of the tree. -/
def question? (t : Tree) (n : Node) : Option Question :=
  if n.status = .pending ∧ n.parent = none then some (.own, [n.chk.query])
  else if n.status = .superqueryPending then some (.children, n.superHash :: pendingQueries t n)
  else none

def book (t : Tree) : Book := fun id => (t.get? id).bind (question? t)

theorem book_of_get? (hn : t.get? id = some n) : book t id = question? t n := by
  rw [book, hn, Option.bind_some]

theorem book_of_get?_eq_none (hn : t.get? id = none) : book t id = none := by
  rw [book, hn, Option.bind_none]

theorem question?_eq_none (hpending : n.status ≠ .pending ∨ n.parent ≠ none)
    (hasked : n.status ≠ .superqueryPending) : question? t n = none := by
  unfold question?
  rw [if_neg (by tauto), if_neg hasked]

theorem question?_asking (hstatus : n.status = .superqueryPending) :
    question? t n = some (.children, n.superHash :: pendingQueries t n) := by
  unfold question?
  rw [if_neg (by simp [hstatus]), if_pos hstatus]

theorem question?_waiting (hstatus : n.status = .pending) (hparent : n.parent = none) :
    question? t n = some (.own, [n.chk.query]) := by
  unfold question?
  rw [if_pos ⟨hstatus, hparent⟩]

theorem question?_eq_own {hashes : List Digest} : question? t n = some (.own, hashes) ↔
    n.status = .pending ∧ n.parent = none ∧ hashes = [n.chk.query] := by
  unfold question?
  split
  · rename_i hwaiting
    simp [hwaiting, eq_comm]
  · rename_i hnot
    split <;> simp <;> tauto

theorem question?_eq_children {hashes : List Digest} : question? t n = some (.children, hashes) ↔
    n.status = .superqueryPending ∧ hashes = n.superHash :: pendingQueries t n := by
  unfold question?
  split
  · rename_i hwaiting
    simp [hwaiting.1]
  · split
    · rename_i hasked
      simp [hasked, eq_comm]
    · rename_i hnot
      simp [hnot]

/-- A node asks for the same as long as its own state and its pending children are the same. -/
theorem question?_congr (hstatus : m.status = n.status) (hparent : m.parent = n.parent)
    (hchk : m.chk = n.chk) (hsuper : m.superHash = n.superHash)
    (hqueries : n.status = .superqueryPending → pendingQueries t' m = pendingQueries t n) :
    question? t' m = question? t n := by
  unfold question?
  rw [hstatus, hparent, hchk, hsuper]
  by_cases hasked : n.status = .superqueryPending
  · rw [hqueries hasked]
  · rw [if_neg hasked, if_neg hasked]

theorem book_congr (hsame : t'.get? k = t.get? k)
    (hqueries : ∀ b, t.get? k = some b → b.status = .superqueryPending →
      pendingQueries t' b = pendingQueries t b) : book t' k = book t k := by
  cases hb : t.get? k with
  | none => rw [book_of_get?_eq_none hb, book_of_get?_eq_none (hsame.trans hb)]
  | some b =>
    rw [book_of_get? hb, book_of_get? (hsame.trans hb)]
    exact question?_congr rfl rfl rfl rfl (hqueries b hb)

/-- A change of one node leaves the other questions alone if no query is outstanding for the node. -/
theorem Good.book_set (h : Good t) (hn : t.get? id = some n)
    (hquiet : m.wanted? = n.wanted? ∨ ∀ p b, n.parent = some p → t.get? p = some b →
      b.status ≠ .superqueryPending) (hk : k ≠ id) : book (t.set id m) k = book t k := by
  refine book_congr (by rw [Tree.get?_set hn, if_neg hk]) fun b hb hasked => ?_
  refine pendingQueries_congr rfl fun c hc => ?_
  rw [Tree.get?_set hn]
  split
  · rename_i hself
    subst hself
    rw [hn, Option.bind_some, Option.bind_some]
    exact hquiet.resolve_right fun hnot => hnot k b (h.parent_of_mem hb hc hn) hb hasked
  · rfl

theorem Good.pendingQueries_set (h : Good t) (hn : t.get? id = some n)
    (hids : m.childIds = n.childIds) : pendingQueries (t.set id m) m = pendingQueries t n := by
  refine pendingQueries_congr hids fun c hc => ?_
  rw [Tree.get?_set hn, if_neg (h.ne_of_mem hn hc)]

/-! ### Moves -/

theorem book_padded (hpad : Tree.Padded t t') : book t' = book t := by
  funext k
  refine book_congr (hpad.get? k) fun b _ _ => pendingQueries_congr rfl fun c _ => ?_
  rw [hpad.get?]

theorem leads_nil (h : book t' = book t) : (book t).Leads [] (book t') := h

/-- Nothing changes in the book when nothing changes for one node nor for the others. -/
theorem leads_nil_of_ne (hself : book t' id = book t id)
    (hother : ∀ k : Nat, k ≠ id → book t' k = book t k) : (book t).Leads [] (book t') := by
  refine leads_nil ?_
  rw [Function.eq_update_iff.2 ⟨hself, hother⟩, Function.update_eq_self]

theorem Good.leads_defer (h : Good t) (hn : t.get? id = some n) (hstatus : n.status = .created) :
    (book t).Leads (if n.parent.isNone then [.request id .own (Query.new [n.chk.query])] else [])
      (book (t.set id { n with status := .pending })) := by
  have hother : ∀ k : Nat, k ≠ id →
      book (t.set id { n with status := .pending }) k = book t k := by
    refine fun k => h.book_set hn (.inr fun p b hp hb hasked => ?_)
    rw [h.staged.created hn hstatus hp hb] at hasked
    cases hasked
  have hself : (t.set id { n with status := .pending }).get? id =
      some { n with status := .pending } := by rw [Tree.get?_set hn, if_pos rfl]
  have hbefore : book t id = none := by
    rw [book_of_get? hn]
    exact question?_eq_none (by simp [hstatus]) (by simp [hstatus])
  by_cases hparent : n.parent = none
  · rw [if_pos (by simp [hparent])]
    refine ⟨hbefore, Function.eq_update_iff.2 ⟨?_, hother⟩⟩
    rw [book_of_get? hself]
    exact question?_waiting rfl hparent
  · rw [if_neg (by simp [hparent])]
    refine leads_nil_of_ne ?_ hother
    rw [hbefore, book_of_get? hself]
    exact question?_eq_none (.inr hparent) (by simp)

theorem leads_haste {b b' : Book} {calls : List SchedulerCall} (meter : Meter) (n : Node)
    (h : b.Leads calls b') : b.Leads (haste meter n ++ calls) b' := by
  unfold haste
  split
  · exact ⟨trivial, h⟩
  · exact h

theorem Good.leads_crown (h : Good t) (hn : t.get? id = some n) (hparent : n.parent = none)
    (data : Block) : (book t).Leads [.update id none] (book (t.set id (n.admitted data))) := by
  refine ⟨trivial, Function.eq_update_iff.2 ⟨?_, fun k => ?_⟩⟩
  · rw [book_of_get? (by rw [Tree.get?_set hn, if_pos rfl])]
    exact question?_eq_none (by simp) (by simp)
  · refine h.book_set hn (.inr fun p b hp _ => ?_)
    rw [hparent] at hp
    cases hp

/-- A query that is outstanding for other children asks neither for an admitted node nor for its
parent. -/
theorem Good.book_told {p : Nat} {status : Status} (h : Good t)
    (hn : t.get? id = some n) (hstatus : n.status = .created ∨ n.status = .pending)
    (hp : n.parent = some p) (hm : t.get? p = some m) (s : Suite) (slot : Nat) (data : Block)
    (hstill : status ≠ .pending) (hk : k ≠ p) : book ((t.set id (n.admitted data)).set p
      { m.recorded s slot (n.admitted data) with status := status }) k = book t k := by
  have hbefore := h.parent_status hn hstatus hp hm
  have hpget : (t.set id (n.admitted data)).get? p = some m := by
    rw [Tree.get?_set hn, if_neg (h.sound.parent_ne_self hn hp), hm]
  by_cases hkid : k = id
  · subst hkid
    rw [book_of_get? hn, book_of_get? (by rw [Tree.get?_set hpget, if_neg hk, Tree.get?_set hn,
      if_pos rfl]), question?_eq_none (by simp) (by simp),
      question?_eq_none (.inr (by simp [hp])) ?_]
    rcases hstatus with hs | hs <;> simp [hs]
  · refine book_congr (by rw [Tree.get?_set hpget, if_neg hk, Tree.get?_set hn, if_neg hkid])
      fun b hb _ => pendingQueries_congr rfl fun c hc => ?_
    have hcid : c ≠ id := by
      rintro rfl
      exact hk (Option.some.inj ((h.parent_of_mem hb hc hn).symm.trans hp))
    rw [Tree.get?_set hpget, Tree.get?_set hn, if_neg hcid]
    split
    · rename_i hcp
      subst hcp
      rw [hm, Option.bind_some, Option.bind_some, wanted?_of_ne (by simpa using hstill),
        wanted?_of_ne]
      rcases hbefore with hs | hs <;> simp [hs]
    · rfl

theorem Good.leads_told {s : Suite} {p slot : Nat} (h : Good t) (hn : t.get? id = some n)
    (hstatus : n.status = .created ∨ n.status = .pending) (hp : n.parent = some p)
    (hm : t.get? p = some m) (data : Block) :
    (book t).Leads
      (Download.told (t.set id (n.admitted data)) p (m.recorded s slot (n.admitted data))).2
      (book
        (Download.told (t.set id (n.admitted data)) p (m.recorded s slot (n.admitted data))).1) := by
  obtain ⟨-, hm', status, calls, htree, hcalls, htells⟩ :=
    h.told_parent hn hstatus hp hm s slot data
  have hstill : status ≠ .pending := by rcases htells.status with rfl | rfl | rfl <;> simp
  have hother := fun k (hk : k ≠ p) => h.book_told hn hstatus hp hm s slot data hstill hk
  have hself : book ((t.set id (n.admitted data)).set p
      { m.recorded s slot (n.admitted data) with status := status }) p =
        question? ((t.set id (n.admitted data)).set p
          { m.recorded s slot (n.admitted data) with status := status })
          { m.recorded s slot (n.admitted data) with status := status } :=
    book_of_get? (by rw [Tree.get?_set hm', if_pos rfl])
  rw [htree, hcalls]
  cases htells with
  | starting hs =>
    rw [status_recorded] at hs
    refine leads_nil_of_ne ?_ hother
    rw [hself, book_of_get? hm, question?_eq_none (by simp) (by simp)]
    exact (question?_eq_none (by simp [hs]) (by simp [hs])).symm
  | answered _ _ =>
    refine ⟨trivial, Function.eq_update_iff.2 ⟨?_, hother⟩⟩
    rw [hself]
    exact question?_eq_none (by simp) (by simp)
  | asking hs _ =>
    have hkept : { m.recorded s slot (n.admitted data) with status := .superqueryPending } =
        m.recorded s slot (n.admitted data) := by rw [← hs]
    rw [hkept] at hself hother ⊢
    refine ⟨trivial, Function.eq_update_iff.2 ⟨?_, hother⟩⟩
    rw [status_recorded] at hs
    rw [hself, question?_asking (by simpa using hs), book_of_get? hm, question?_asking hs]
    rfl

theorem Good.leads_unfold {ids : List NodeId} (h : Good t) (hn : t.get? id = some n)
    (hstatus : n.status = .present) (hinner : n.isInner)
    (hchildren : (t.set id { n with status := .persistent }).allocateChildren id = (some ids, t')) :
    (book t).Leads [] (book t') := by
  obtain ⟨i, hi⟩ := Option.isSome_iff_exists.1 hinner
  obtain ⟨-, hunfold⟩ := h.unfolded hn hstatus hi hchildren
  have hself : book t' id = book t id := by
    have hbefore : question? t n = none :=
      question?_eq_none (by simp [hstatus]) (by simp [hstatus])
    rw [book_of_get? hn, hbefore, book_of_get? (by rw [hunfold.get?, if_pos rfl])]
    exact question?_eq_none (.inl (by rintro ⟨⟩)) (by rintro ⟨⟩)
  refine leads_nil_of_ne hself fun k hk => ?_
  by_cases hnew : t.nodes.size ≤ k ∧ k < t.nodes.size + i.childCount
  · have hcreated := status_newChild id n i (k - t.nodes.size)
    rw [book_of_get? (by rw [hunfold.get?, if_neg hk, if_pos hnew]),
      book_of_get?_eq_none (Tree.get?_eq_none_of_size_le hnew.1)]
    exact question?_eq_none (by simp [hcreated]) (by simp [hcreated])
  · refine book_congr (by rw [hunfold.get?, if_neg hk, if_neg hnew]) fun b hb _ => ?_
    exact h.pendingQueries_unfolded hn hstatus hunfold hb

theorem Good.leads_settle (h : Good t) (hn : t.get? id = some n) (hstatus : n.status = .persistent) :
    (book t).Leads (settled t id n).2 (book (settled t id n).1) := by
  have hbefore : book t id = none := by
    rw [book_of_get? hn]
    exact question?_eq_none (by simp [hstatus]) (by simp [hstatus])
  have hother : ∀ (status : Status), status ≠ .pending → ∀ k : Nat, k ≠ id →
      book (t.set id { n with status := status }) k = book t k := fun status hne k hk =>
    h.book_set hn (.inl (by rw [wanted?_of_ne (by simpa using hne), wanted?_of_ne (by simp [hstatus])]))
      hk
  have hself : ∀ status : Status, (t.set id { n with status := status }).get? id =
      some { n with status := status } := fun status => by rw [Tree.get?_set hn, if_pos rfl]
  unfold settled
  split
  · refine leads_nil_of_ne ?_ (hother _ (by simp))
    rw [hbefore, book_of_get? (hself _)]
    exact question?_eq_none (by simp) (by simp)
  · refine ⟨hbefore, Function.eq_update_iff.2 ⟨?_, hother _ (by simp)⟩⟩
    have hqueries := h.pendingQueries_set (m := { n with status := .superqueryPending }) hn rfl
    rw [book_of_get? (hself _), question?_asking rfl, hqueries]
    rfl

theorem Good.leads_prune (h : Good t) (hn : t.get? id = some n) (hpending : n.status ≠ .pending) :
    (book t).Leads [.release id] (book (t.pruned id n)) := by
  have hpruned := h.sound.pruned hn
  refine ⟨trivial, Function.eq_update_iff.2 ⟨book_of_get?_eq_none hpruned.gone, fun k hk => ?_⟩⟩
  cases hb : (t.pruned id n).get? k with
  | some b =>
    obtain ⟨a, ha, hstatus, hparent, hchk, -, hsuper, -⟩ := h.back_pruned hn hpending hb
    rw [book_of_get? hb, book_of_get? ha]
    exact question?_congr hstatus hparent hchk hsuper fun _ =>
      h.pendingQueries_pruned hn hpending ha hb
  | none =>
    rw [book_of_get?_eq_none hb]
    cases ha : t.get? k with
    | none => rw [book_of_get?_eq_none ha]
    | some a =>
      obtain ⟨b, hb'⟩ := hpruned.forth ha hk
      rw [hb] at hb'
      cases hb'

/-- A move adds calls, and they lead to what the tree asks for afterwards. -/
theorem Good.leads {heard : Option (Nat × Block)} (h : Good st.tree) (hmove : Move env heard st st') :
    ∃ calls : List SchedulerCall, st'.calls = st.calls ++ calls.toArray ∧
      (book st.tree).Leads calls (book st'.tree) := by
  cases hmove with
  | pad hpad => exact ⟨[], by simp, leads_nil (book_padded hpad)⟩
  | defer hn hstatus => exact ⟨_, rfl, h.leads_defer hn hstatus⟩
  | crown hn hparent hknown _ => exact ⟨_, rfl, leads_haste _ _ (h.leads_crown hn hparent _)⟩
  | adopt hn hparent hm _ hknown _ =>
    exact ⟨_, rfl, leads_haste _ _ (h.leads_told hn hknown.status hparent hm _)⟩
  | unfold hn hstatus hinner hchildren =>
    exact ⟨[], by simp, h.leads_unfold hn hstatus hinner hchildren⟩
  | settle hn hstatus _ => exact ⟨_, rfl, h.leads_settle hn hstatus⟩
  | prune hn _ hstatus =>
    exact ⟨_, rfl, h.leads_prune hn (by rcases hstatus with ⟨hs, -⟩ | hs <;> simp [hs])⟩

theorem Good.leads_moves (h : Good st.tree) (hmoves : Moves env st st') :
    ∃ calls : List SchedulerCall, st'.calls = st.calls ++ calls.toArray ∧
      (book st.tree).Leads calls (book st'.tree) := by
  induction hmoves with
  | refl => exact ⟨[], by simp, leads_nil rfl⟩
  | tail hmoves hmove ih =>
    obtain ⟨calls, hcalls, hleads⟩ := ih
    obtain ⟨more, hmore, hlast⟩ := (h.moves hmoves).leads hmove
    exact ⟨calls ++ more, by rw [hmore, hcalls]; simp, hleads.trans hlast⟩

end Download

end ContentTree

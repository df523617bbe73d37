import ContentTree.Proofs.Tree.Moves

/-!
# The stages of a download

The status of a node goes with what is known of it and with what hangs below it, and a node waits
for a reply only below a parent that asks for it or will do so.
-/

namespace ContentTree

namespace Download

/-! ### Pending children -/

section Pending

variable {t t' : Tree} {n m : Node}

theorem pendingQueries_eq (t : Tree) (n : Node) :
    pendingQueries t n = n.childIds.filterMap fun c => (t.get? c).bind Node.wanted? := by
  rw [pendingQueries, List.filterMap_filterMap]
  rfl

/-- Slot by slot, the hash of the child if it is pending. -/
theorem pendingQueries_eq_range {size : Nat} (h : n.Shaped size) :
    pendingQueries t n = (List.range n.childCount).filterMap fun j =>
      ((n.child? j).bind t.get?).bind fun b =>
        if b.status = .pending then some b.chk.query else none := by
  rw [pendingQueries_eq, h.childIds_eq, List.filterMap_filterMap]
  simp only [Option.bind_assoc]
  rfl

theorem mem_pendingQueries {query : Digest} : query ∈ pendingQueries t n ↔
    ∃ c ∈ n.childIds, ∃ b, t.get? c = some b ∧ b.status = .pending ∧ b.chk.query = query := by
  rw [pendingQueries_eq, List.mem_filterMap]
  simp only [Option.bind_eq_some_iff, Node.wanted?, Option.ite_none_right_eq_some, Option.some.injEq]

theorem pendingQueries_congr (hids : m.childIds = n.childIds)
    (h : ∀ c ∈ n.childIds, (t'.get? c).bind Node.wanted? = (t.get? c).bind Node.wanted?) :
    pendingQueries t' m = pendingQueries t n := by
  rw [pendingQueries_eq, pendingQueries_eq, hids]
  exact List.filterMap_congr h

theorem pendingQueries_ne_nil {c : NodeId} {b : Node} (hc : c ∈ n.childIds) (hb : t.get? c = some b)
    (hstatus : b.status = .pending) : pendingQueries t n ≠ [] :=
  List.ne_nil_of_mem (mem_pendingQueries.2 ⟨c, hc, b, hb, hstatus, rfl⟩)

theorem wanted?_of_ne (h : n.status ≠ .pending) : n.wanted? = none := by
  simp [Node.wanted?, h]

/-- Emptying the slot of a child that is not pending leaves the queries as they are. -/
theorem pendingQueries_withoutChild {i : Nat} {c : NodeId} (hc : m.child? i = some c)
    (hquiet : (t.get? c).bind Node.wanted? = none) :
    pendingQueries t (Tree.withoutChild m i) = pendingQueries t m := by
  have hslots : ∀ (slots : List (Option NodeId)) (i : Nat), slots[i]?.join = some c →
      ((slots.set i none).filterMap id).filterMap (fun c => (t.get? c).bind Node.wanted?) =
        (slots.filterMap id).filterMap (fun c => (t.get? c).bind Node.wanted?) := by
    intro slots
    induction slots with
    | nil => simp
    | cons slot slots ih =>
      intro i hi
      cases i with
      | zero =>
        obtain rfl : slot = some c := by simpa using hi
        simp [hquiet]
      | succ i =>
        have hrest := ih i (by simpa using hi)
        cases slot with
        | none => simpa using hrest
        | some x =>
          simp only [List.set_cons_succ, List.filterMap_cons, id] at hrest ⊢
          rw [hrest]
  rw [pendingQueries_eq, pendingQueries_eq, Node.childIds, Node.childIds, Tree.slots?_withoutChild]
  cases hsome : m.slots? with
  | none => simp [Node.child?, hsome] at hc
  | some slots => exact hslots slots i (by simpa [Node.child?, hsome] using hc)

end Pending

/-! ### The invariant -/

end Download

/-- What is known of a node, and what hangs below it, goes with its status. -/
structure Node.Fits (n : Node) : Prop where
  status : n.status = .created ∨ n.status = .pending ∨ n.status = .present ∨
    n.status = .persistent ∨ n.status = .childrenPresent ∨ n.status = .superqueryPending
  fresh : n.status = .created ∨ n.status = .pending ∨ n.status = .present → n.slots? = none
  opened : n.status = .persistent ∨ n.status = .childrenPresent ∨ n.status = .superqueryPending →
    n.slots?.isSome
  table : n.status ≠ .created → n.status ≠ .pending → ∀ i, n.inner? = some i → i.table.isSome

/-- A node that asks for its children has their checksums. -/
theorem Node.Fits.exists_table {n : Node} (h : n.Fits) (hstatus : n.status = .superqueryPending) :
    ∃ i table, n.inner? = some i ∧ i.table = some table := by
  have hinner := Node.isInner_of_isSome_slots? (h.opened (.inr (.inr hstatus)))
  obtain ⟨i, hi⟩ := Option.isSome_iff_exists.1 hinner
  have hsome := h.table (by simp [hstatus]) (by simp [hstatus]) i hi
  obtain ⟨table, htable⟩ := Option.isSome_iff_exists.1 hsome
  exact ⟨i, table, hi, htable⟩

namespace Download

structure Staged (t : Tree) : Prop where
  fits : ∀ {id : Nat} {n}, t.get? id = some n → n.Fits
  created : ∀ {id p : Nat} {n m}, t.get? id = some n → n.status = .created → n.parent = some p →
    t.get? p = some m → m.status = .persistent
  pending : ∀ {id p : Nat} {n m}, t.get? id = some n → n.status = .pending → n.parent = some p →
    t.get? p = some m → m.status = .persistent ∨ m.status = .superqueryPending
  asked : ∀ {id : Nat} {n}, t.get? id = some n → n.status = .superqueryPending →
    pendingQueries t n ≠ []

/-- What holds of the tree of a download between any two moves. -/
structure Good (t : Tree) : Prop where
  sound : t.Sound
  staged : Staged t

section Moves

variable {env : Env} {st st' : State} {t t' : Tree} {id : Nat} {n m : Node}

/-- A parent has its children in slots. -/
theorem Good.parent_ne (h : Good t) (hn : t.get? id = some n) (hslots : n.slots? = none) {k p : Nat}
    {b : Node} (hb : t.get? k = some b) (hp : b.parent = some p) : p ≠ id := by
  rintro rfl
  obtain ⟨q, i, hq, hi⟩ := h.sound.up hb hp
  obtain rfl := Option.some.inj (hq.symm.trans hn)
  simp [Node.child?, hslots] at hi

theorem Good.parent_of_mem (h : Good t) (hn : t.get? id = some n) {c : Nat} {b : Node}
    (hc : c ∈ n.childIds) (hb : t.get? c = some b) : b.parent = some id := by
  obtain ⟨i, hi⟩ := Node.mem_childIds.1 hc
  obtain ⟨x, hx, hparent, -⟩ := h.sound.down hn hi
  obtain rfl := Option.some.inj (hb.symm.trans hx)
  exact hparent

theorem Good.padded (h : Good t) (hpad : Tree.Padded t t') : Good t' where
  sound := h.sound.of_like hpad.like
  staged := by
    have hqueries : ∀ b, pendingQueries t' b = pendingQueries t b := fun b =>
      pendingQueries_congr rfl fun c _ => by rw [hpad.get?]
    constructor
    case fits =>
      intro k b hb
      exact h.staged.fits ((hpad.get? k).symm.trans hb)
    case created =>
      intro k p b m hb hstatus hp hm
      exact h.staged.created ((hpad.get? k).symm.trans hb) hstatus hp ((hpad.get? p).symm.trans hm)
    case pending =>
      intro k p b m hb hstatus hp hm
      exact h.staged.pending ((hpad.get? k).symm.trans hb) hstatus hp ((hpad.get? p).symm.trans hm)
    case asked =>
      intro k b hb hstatus
      rw [hqueries]
      exact h.staged.asked ((hpad.get? k).symm.trans hb) hstatus

theorem Good.ne_of_mem (h : Good t) (hn : t.get? id = some n) {c : Nat} (hc : c ∈ n.childIds) :
    c ≠ id := by
  rintro rfl
  have hlt := h.sound.descends c n c n hn hc hn
  omega

/-- A node may change as long as it suits its parent, its children and their queries. -/
theorem Good.set (h : Good t) (hn : t.get? id = some n) (hlike : n.Like m) (hfits : m.Fits)
    (hcreated : m.status = .created → n.status = .created)
    (hpending : m.status = .pending → n.status = .created ∨ n.status = .pending)
    (hcreatedBelow : ∀ c ∈ n.childIds, ∀ b, t.get? c = some b → b.status = .created →
      m.status = .persistent)
    (hpendingBelow : ∀ c ∈ n.childIds, ∀ b, t.get? c = some b → b.status = .pending →
      m.status = .persistent ∨ m.status = .superqueryPending)
    (hasked : m.status = .superqueryPending → pendingQueries t m ≠ [])
    (habove : m.wanted? = n.wanted? ∨ ∀ p b, n.parent = some p → t.get? p = some b →
      b.status ≠ .superqueryPending) : Good (t.set id m) where
  sound := h.sound.of_like (Tree.like_set hn hlike)
  staged := by
    have hget := Tree.get?_set hn m
    have hcases : ∀ {k : Nat} {b : Node}, (t.set id m).get? k = some b →
        (k = id ∧ b = m) ∨ (k ≠ id ∧ t.get? k = some b) := by
      intro k b hb
      rw [hget] at hb
      split at hb
      · rename_i hk
        exact Or.inl ⟨hk, (Option.some.inj hb).symm⟩
      · rename_i hk
        exact Or.inr ⟨hk, hb⟩
    have hmem : ∀ {k : Nat} {b : Node}, t.get? k = some b → b.parent = some id → k ∈ n.childIds := by
      intro k b hb hp
      obtain ⟨q, i, hq, hi⟩ := h.sound.up hb hp
      obtain rfl := Option.some.inj (hq.symm.trans hn)
      exact Node.mem_childIds.2 ⟨i, hi⟩
    have hparent : ∀ {p : Nat} {b : Node}, m.parent = some p → (t.set id m).get? p = some b →
        t.get? p = some b := by
      intro p b hp hb
      rw [hlike.parent] at hp
      rcases hcases hb with ⟨rfl, rfl⟩ | ⟨-, hold⟩
      · exact absurd rfl (h.ne_of_mem hn (hmem hn hp))
      · exact hold
    constructor
    case fits =>
      intro k b hb
      rcases hcases hb with ⟨rfl, rfl⟩ | ⟨-, hold⟩
      · exact hfits
      · exact h.staged.fits hold
    case created =>
      intro k p b q hb hstatus hp hq
      rcases hcases hb with ⟨rfl, rfl⟩ | ⟨-, hold⟩
      · exact h.staged.created hn (hcreated hstatus) (hlike.parent.symm.trans hp) (hparent hp hq)
      · rcases hcases hq with ⟨rfl, rfl⟩ | ⟨-, hqold⟩
        · exact hcreatedBelow k (hmem hold hp) b hold hstatus
        · exact h.staged.created hold hstatus hp hqold
    case pending =>
      intro k p b q hb hstatus hp hq
      rcases hcases hb with ⟨rfl, rfl⟩ | ⟨-, hold⟩
      · rcases hpending hstatus with hbefore | hbefore
        · exact Or.inl
            (h.staged.created hn hbefore (hlike.parent.symm.trans hp) (hparent hp hq))
        · exact h.staged.pending hn hbefore (hlike.parent.symm.trans hp) (hparent hp hq)
      · rcases hcases hq with ⟨rfl, rfl⟩ | ⟨-, hqold⟩
        · exact hpendingBelow k (hmem hold hp) b hold hstatus
        · exact h.staged.pending hold hstatus hp hqold
    case asked =>
      intro k b hb hstatus
      rcases hcases hb with ⟨rfl, rfl⟩ | ⟨hne, hold⟩
      · rw [pendingQueries_congr (n := b) (t := t) rfl]
        · exact hasked hstatus
        · intro c hc
          rw [hlike.childIds] at hc
          rw [hget, if_neg (h.ne_of_mem hn hc)]
      · rw [pendingQueries_congr (n := b) (t := t) rfl]
        · exact h.staged.asked hold hstatus
        · intro c hc
          rw [hget]
          split
          · rename_i hself
            subst hself
            rw [hn, Option.bind_some, Option.bind_some]
            refine habove.resolve_right fun hnot => ?_
            exact hnot k b (h.parent_of_mem hold hc hn) hold hstatus
          · rfl

theorem Good.defer (h : Good t) (hn : t.get? id = some n) (hstatus : n.status = .created) :
    Good (t.set id { n with status := .pending }) := by
  have hslots := (h.staged.fits hn).fresh (Or.inl hstatus)
  have hchildless := Node.childIds_of_slots?_eq_none hslots
  refine h.set hn (like_status n .pending) ?_ ?_ ?_ ?_ ?_ ?_ ?_
  · exact ⟨Or.inr (Or.inl rfl), fun _ => hslots, by simp, by simp⟩
  · simp
  · exact fun _ => Or.inl hstatus
  · simp [hchildless]
  · simp [hchildless]
  · simp
  · right
    intro p b hp hb hasked
    rw [h.staged.created hn hstatus hp hb] at hasked
    cases hasked

theorem Evidence.status {heard : Option (Nat × Block)} {data : Block} {disk : Disk}
    (h : Evidence env heard st id n data disk) :
    n.status = .created ∨ n.status = .pending := by
  cases h with
  | stored hstatus => exact Or.inl hstatus
  | rebuilt hstatus => exact Or.inl hstatus
  | reply _ hstatus => exact Or.inr hstatus

theorem fits_admitted (h : n.Fits) (hstatus : n.status = .created ∨ n.status = .pending)
    (data : Block) : (n.admitted data).Fits where
  status := by simp
  fresh _ := by
    rw [(like_admitted data n).slots?]
    exact h.fresh (by rcases hstatus with hs | hs <;> simp [hs])
  opened := by simp
  table _ _ i hi := by
    cases hinner : n.inner? with
    | none =>
      have hleaf : (n.admitted data).inner? = none := by
        have hkind := Node.inner?_eq_none.1 hinner
        simp [Node.admitted, Node.inner?, hkind]
      rw [hleaf] at hi
      cases hi
    | some j =>
      rw [inner?_admitted data hinner] at hi
      obtain rfl := Option.some.inj hi
      rfl

/-- A known block may be taken where no query is outstanding for it. -/
theorem Good.admitted (h : Good t) (hn : t.get? id = some n)
    (hstatus : n.status = .created ∨ n.status = .pending) (data : Block)
    (habove : ∀ p b, n.parent = some p → t.get? p = some b → b.status ≠ .superqueryPending) :
    Good (t.set id (n.admitted data)) := by
  have hfits := h.staged.fits hn
  have hslots := hfits.fresh (by rcases hstatus with hs | hs <;> simp [hs])
  have hchildless := Node.childIds_of_slots?_eq_none hslots
  refine h.set hn (like_admitted data n) (fits_admitted hfits hstatus data) ?_ ?_ ?_ ?_ ?_
    (Or.inr habove)
  · simp
  · simp
  · simp [hchildless]
  · simp [hchildless]
  · simp

/-- A parent keeps its table when it takes a checksum, and has slots as before. -/
theorem fits_recorded {s : Suite} {slot : Nat} {child : Node} {status : Status} (h : m.Fits)
    (hbefore : m.status = .persistent ∨ m.status = .superqueryPending)
    (hstatus : status = .persistent ∨ status = .childrenPresent ∨ status = .superqueryPending) :
    Node.Fits { m.recorded s slot child with status := status } where
  status := by rcases hstatus with rfl | rfl | rfl <;> simp
  fresh := by rcases hstatus with rfl | rfl | rfl <;> simp
  opened _ := by
    have hslots := (like_recorded (m := m) s slot child).slots?
    change (m.recorded s slot child).slots?.isSome
    rw [hslots]
    exact h.opened (by rcases hbefore with hs | hs <;> simp [hs])
  table _ _ i hi := by
    change (m.recorded s slot child).inner? = some i at hi
    cases hinner : m.inner? with
    | none =>
      simp only [Node.recorded, hinner] at hi
      cases hi
    | some j =>
      rw [inner?_recorded s slot child hinner] at hi
      obtain rfl := Option.some.inj hi
      exact h.table (by rcases hbefore with hs | hs <;> simp [hs])
        (by rcases hbefore with hs | hs <;> simp [hs]) j hinner

/-- How telling the parent of an admitted node ends: the status that the parent is left with, and the
calls that are made. It asks on as long as a child is pending. -/
inductive Told (u : Tree) (p : NodeId) (b : Node) : Status → List SchedulerCall → Prop
  | starting (hs : b.status = .persistent) : Told u p b .persistent []
  | answered (hs : b.status = .superqueryPending) (hnone : pendingQueries (u.set p b) b = []) :
      Told u p b .childrenPresent [.update p none]
  | asking (hs : b.status = .superqueryPending) (hsome : pendingQueries (u.set p b) b ≠ []) :
      Told u p b .superqueryPending [.update p (some (superQuery (u.set p b) b))]

theorem Told.status {u : Tree} {p : Nat} {b : Node} {status : Status} {calls : List SchedulerCall}
    (h : Told u p b status calls) :
    status = .persistent ∨ status = .childrenPresent ∨ status = .superqueryPending := by
  cases h <;> simp

theorem Told.persistent_iff {u : Tree} {p : Nat} {b : Node} {status : Status}
    {calls : List SchedulerCall} (h : Told u p b status calls) :
    status = .persistent ↔ b.status = .persistent := by
  cases h with
  | starting hs => simp [hs]
  | answered hs _ => simp [hs]
  | asking hs _ => simp [hs]

theorem told_eq {u : Tree} {p : Nat} {b : Node} (hstatus : b.status = .persistent ∨
    b.status = .superqueryPending) :
    ∃ status calls, (told u p b).1 = u.set p { b with status := status } ∧
      (told u p b).2 = calls ∧ Told u p b status calls := by
  unfold told
  rcases hstatus with hs | hs
  · rw [if_pos hs]
    exact ⟨.persistent, _, by rw [← hs], rfl, .starting hs⟩
  · have hne : b.status ≠ .persistent := by simp [hs]
    rw [if_neg hne]
    by_cases hnone : pendingQueries (u.set p b) b = []
    · rw [if_pos hnone]
      exact ⟨.childrenPresent, _, rfl, rfl, .answered hs hnone⟩
    · rw [if_neg hnone]
      exact ⟨.superqueryPending, _, by rw [← hs], rfl, .asking hs hnone⟩

theorem Good.parent_status (h : Good t) (hn : t.get? id = some n)
    (hstatus : n.status = .created ∨ n.status = .pending) {p : Nat} (hp : n.parent = some p)
    (hm : t.get? p = some m) : m.status = .persistent ∨ m.status = .superqueryPending := by
  rcases hstatus with hs | hs
  · exact Or.inl (h.staged.created hn hs hp hm)
  · exact h.staged.pending hn hs hp hm

theorem Good.parent_table (h : Good t) (hn : t.get? id = some n)
    (hstatus : n.status = .created ∨ n.status = .pending) {p : Nat} (hp : n.parent = some p)
    (hm : t.get? p = some m) {i : Inner} (hi : m.inner? = some i) : i.table.isSome := by
  have hbefore := h.parent_status hn hstatus hp hm
  refine (h.staged.fits hm).table ?_ ?_ i hi <;> rcases hbefore with hs | hs <;> simp [hs]

/-- Telling the parent of an admitted node changes only the status of the parent. -/
theorem Good.told_parent {p : Nat} (h : Good t) (hn : t.get? id = some n)
    (hstatus : n.status = .created ∨ n.status = .pending) (hp : n.parent = some p)
    (hm : t.get? p = some m) (s : Suite) (slot : Nat) (data : Block) :
    p ≠ id ∧ (t.set id (n.admitted data)).get? p = some m ∧ ∃ status calls,
      (Download.told (t.set id (n.admitted data)) p (m.recorded s slot (n.admitted data))).1 =
        (t.set id (n.admitted data)).set p
          { m.recorded s slot (n.admitted data) with status := status } ∧
      (Download.told (t.set id (n.admitted data)) p (m.recorded s slot (n.admitted data))).2 = calls ∧
      Told (t.set id (n.admitted data)) p (m.recorded s slot (n.admitted data)) status calls := by
  have hbefore := h.parent_status hn hstatus hp hm
  have hne := h.sound.parent_ne_self hn hp
  exact ⟨hne, by rw [Tree.get?_set hn, if_neg hne, hm], told_eq (by simpa using hbefore)⟩

/-- A parent that asks for its children may as well be starting them still. -/
theorem Good.reopened (h : Good t) (hn : t.get? id = some n)
    (hbefore : n.status = .persistent ∨ n.status = .superqueryPending) :
    Good (t.set id { n with status := .persistent }) := by
  have hfits := h.staged.fits hn
  have hpast : n.status ≠ .created ∧ n.status ≠ .pending := by
    rcases hbefore with hs | hs <;> simp [hs]
  refine h.set hn (like_status n .persistent) ?_ ?_ ?_ ?_ ?_ ?_ (Or.inl ?_)
  · exact ⟨by simp, by simp, fun _ => hfits.opened (hbefore.imp_right Or.inr),
      fun _ _ => hfits.table hpast.1 hpast.2⟩
  · simp
  · simp
  · exact fun _ _ _ _ _ => rfl
  · exact fun _ _ _ _ _ => Or.inl rfl
  · simp
  · rw [wanted?_of_ne (by simp), wanted?_of_ne hpast.2]

/-- Under a parent that is still starting its children a node may be admitted at any time. -/
theorem Good.admitted_reopened {p : Nat} (h : Good t) (hn : t.get? id = some n)
    (hstatus : n.status = .created ∨ n.status = .pending) (hp : n.parent = some p)
    (hm : t.get? p = some m) (data : Block) :
    Good ((t.set p { m with status := .persistent }).set id (n.admitted data)) ∧
      ∀ k : Nat, ((t.set p { m with status := .persistent }).set id (n.admitted data)).get? k =
        if k = id then some (n.admitted data)
        else if k = p then some { m with status := .persistent } else t.get? k := by
  have hopen := Tree.get?_set hm { m with status := .persistent }
  have hn' : (t.set p { m with status := .persistent }).get? id = some n := by
    rw [hopen, if_neg (Ne.symm (h.sound.parent_ne_self hn hp)), hn]
  refine ⟨?_, fun k => by rw [Tree.get?_set hn', hopen]⟩
  refine (h.reopened hm (h.parent_status hn hstatus hp hm)).admitted hn' hstatus data
    fun q b hq hb hasked => ?_
  obtain rfl := Option.some.inj (hp.symm.trans hq)
  rw [hopen, if_pos rfl] at hb
  obtain rfl := Option.some.inj hb
  cases hasked

theorem Good.told {s : Suite} {p slot : Nat} (h : Good t) (hn : t.get? id = some n)
    (hstatus : n.status = .created ∨ n.status = .pending) (hp : n.parent = some p)
    (hm : t.get? p = some m) (data : Block) :
    Good (told (t.set id (n.admitted data)) p (m.recorded s slot (n.admitted data))).1 := by
  obtain ⟨hne, hm', status, calls, htree, -, htells⟩ := h.told_parent hn hstatus hp hm s slot data
  obtain ⟨hadmitted, hget⟩ := h.admitted_reopened hn hstatus hp hm data
  have hlike := like_recorded (m := m) s slot (n.admitted data)
  have hthree := htells.status
  -- The parent is told as if it had been starting its children all along.
  have hsame : ((t.set p { m with status := .persistent }).set id (n.admitted data)).set p
      { m.recorded s slot (n.admitted data) with status := status } =
        (t.set id (n.admitted data)).set p
          { m.recorded s slot (n.admitted data) with status := status } := by
    rw [Tree.set_comm hne, Tree.set_set]
  -- What the parent asks for does not depend on what has become of itself.
  have hqueries : pendingQueries
      ((t.set p { m with status := .persistent }).set id (n.admitted data))
        { m.recorded s slot (n.admitted data) with status := status } =
      pendingQueries ((t.set id (n.admitted data)).set p (m.recorded s slot (n.admitted data)))
        (m.recorded s slot (n.admitted data)) := by
    refine pendingQueries_congr rfl fun c hc => ?_
    have hcp : c ≠ p := h.ne_of_mem hm (hlike.childIds ▸ hc)
    rw [hget, Tree.get?_set hm', Tree.get?_set hn, if_neg hcp, if_neg hcp]
  have hbelow : ∀ c ∈ m.childIds, ∀ b,
      ((t.set p { m with status := .persistent }).set id (n.admitted data)).get? c = some b →
      b.status = .created → t.get? c = some b := by
    intro c hc b hb hcreated
    rw [hget, if_neg (h.ne_of_mem hm hc)] at hb
    split at hb
    · obtain rfl := Option.some.inj hb
      simp at hcreated
    · exact hb
  have hagain : Node.Like { m with status := .persistent }
      { m.recorded s slot (n.admitted data) with status := status } :=
    ⟨hlike.fileSize, hlike.position, hlike.length, hlike.parent, hlike.inner, hlike.leaf⟩
  have hfits : Node.Fits { m.recorded s slot (n.admitted data) with status := status } :=
    fits_recorded (h.staged.fits hm) (h.parent_status hn hstatus hp hm) hthree
  rw [htree, ← hsame]
  refine hadmitted.set (by rw [hget, if_neg hne, if_pos rfl]) hagain hfits ?_ ?_ ?_ ?_ ?_ (Or.inl ?_)
  · rcases hthree with rfl | rfl | rfl <;> simp
  · rcases hthree with rfl | rfl | rfl <;> simp
  · intro c hc b hb hcreated
    have hold := hbelow c hc b hb hcreated
    have hpersistent := h.staged.created hold hcreated (h.parent_of_mem hm hc hold) hm
    exact htells.persistent_iff.2 (by simpa using hpersistent)
  · intro c hc b hb hpending
    cases htells with
    | starting _ => exact Or.inl rfl
    | answered _ hnone =>
      rw [← hqueries] at hnone
      exact absurd hnone (pendingQueries_ne_nil (hlike.childIds ▸ hc) hb hpending)
    | asking _ _ => exact Or.inr rfl
  · intro hasked
    cases htells with
    | starting _ => cases hasked
    | answered _ _ => cases hasked
    | asking _ hsome =>
      rw [hqueries]
      exact hsome
  · rcases hthree with rfl | rfl | rfl <;> simp [Node.wanted?]

/-! ### Children come and go -/

theorem status_newChild (id : NodeId) (n : Node) (i : Inner) (j : Nat) :
    (Tree.newChild id n i j).status = .created := by
  unfold Tree.newChild
  split <;> exact Node.status_new ..

theorem like_newChild (id : NodeId) (n : Node) (i : Inner) (j : Nat) :
    (Node.new n.fileSize (n.position + j * coverage (i.depth - 1)) (i.depth - 1) (some id)).Like
      (Tree.newChild id n i j) := by
  unfold Tree.newChild
  split
  · exact ⟨rfl, rfl, rfl, rfl, fun x hx => ⟨x, hx, rfl, rfl, rfl, rfl, rfl⟩, fun hleaf => hleaf⟩
  · exact Node.Like.refl _

theorem inner?_newChild (id : NodeId) (n : Node) (i : Inner) (j : Nat) :
    (Tree.newChild id n i j).inner? = (Node.new n.fileSize
      (n.position + j * coverage (i.depth - 1)) (i.depth - 1) (some id)).inner? := by
  unfold Tree.newChild
  split <;> rfl

/-- A child that is named in the table of its parent takes its pair from there. -/
theorem chk_newChild {id : NodeId} {i : Inner} {j : Nat} {table : InnerBlock} {chk : Chk}
    (htable : i.table = some table) (hchk : table.chks[j]? = some chk) :
    (Tree.newChild id n i j).chk = chk := by
  simp only [Tree.newChild, htable, Option.bind_some, hchk]

theorem shaped_withChildren {size : Nat} {i : Inner} (h : n.Shaped size) (hi : n.inner? = some i)
    (base : Nat) : (Tree.withChildren n i base).Shaped size where
  fileSize := h.fileSize
  place := by
    rw [Tree.depth_withChildren hi]
    exact h.place
  length := by
    rw [Tree.depth_withChildren hi]
    exact h.length
  inner j hj := by
    obtain rfl := Option.some.inj hj
    obtain ⟨hpos, hcount, hcrcs, -⟩ := h.inner i hi
    refine ⟨hpos, hcount, hcrcs, ?_, fun slots hslots => ?_⟩
    · simp [Function.comp_def]
    · obtain rfl := Option.some.inj hslots
      simp

theorem Good.allocateChildren {i : Inner} (h : Good t) (hn : t.get? id = some n)
    (hstatus : n.status = .present) (hi : n.inner? = some i) :
    ∃ t', (t.set id { n with status := .persistent }).allocateChildren id =
        (some (List.range' t.nodes.size i.childCount), t') ∧
      Tree.Unfolded t id n (Tree.withChildren { n with status := .persistent } i t.nodes.size) i
        (Tree.newChild id n i) t' := by
  have hshape := h.sound.shaped hn
  have hnone : i.children = none := by
    have hslots := (h.staged.fits hn).fresh (Or.inr (Or.inr hstatus))
    simpa [Node.slots?, hi] using hslots
  have hget := Tree.get?_set hn { n with status := .persistent }
  have hself : (t.set id { n with status := .persistent }).get? id =
      some { n with status := .persistent } := by rw [hget, if_pos rfl]
  obtain ⟨t', hrun, hget', hroot, hfile, hsize⟩ := Tree.allocateChildren_spec hself hi hnone
  rw [Tree.size_set] at hrun hget' hsize
  have hdepth := Node.depth_of_inner hi
  refine ⟨t', hrun, ?_, hroot, hfile, hsize, rfl, ?_, rfl, rfl, ?_, ?_⟩
  · intro k
    rw [hget' k]
    by_cases hk : k = id
    · rw [if_pos hk, if_pos hk]
    · rw [if_neg hk, if_neg hk, hget, if_neg hk]
      rfl
  · exact shaped_withChildren (n := { n with status := .persistent })
      ((like_status n .persistent).shaped hshape) hi _
  · rw [hdepth]
    rfl
  · intro j _
    rw [hdepth, ← hshape.fileSize]
    exact like_newChild id n i j

theorem Good.unfolded {i : Inner} {ids : List NodeId} (h : Good t) (hn : t.get? id = some n)
    (hstatus : n.status = .present) (hi : n.inner? = some i)
    (hchildren : (t.set id { n with status := .persistent }).allocateChildren id = (some ids, t')) :
    ids = List.range' t.nodes.size i.childCount ∧
      Tree.Unfolded t id n (Tree.withChildren { n with status := .persistent } i t.nodes.size) i
        (Tree.newChild id n i) t' := by
  obtain ⟨t'', hrun, hunfold⟩ := h.allocateChildren hn hstatus hi
  rw [hchildren] at hrun
  obtain ⟨hids, rfl⟩ := Prod.mk.inj hrun
  exact ⟨Option.some.inj hids, hunfold⟩

theorem Good.pendingQueries_unfolded {i : Inner} {child : Nat → Node} (h : Good t)
    (hn : t.get? id = some n) (hstatus : n.status = .present)
    (hunfold : Tree.Unfolded t id n (Tree.withChildren { n with status := .persistent } i t.nodes.size)
      i child t') {k : Nat} {b : Node} (hb : t.get? k = some b) :
    pendingQueries t' b = pendingQueries t b := by
  refine pendingQueries_congr rfl fun c hc => ?_
  obtain ⟨j, hj⟩ := Node.mem_childIds.1 hc
  obtain ⟨x, hx, -⟩ := h.sound.down hb hj
  have hlt := Tree.lt_size_of_get? hx
  by_cases hself : c = id
  · subst hself
    have hbefore : n.wanted? = none := wanted?_of_ne (by simp [hstatus])
    have hafter : (Tree.withChildren { n with status := .persistent } i t.nodes.size).wanted? =
        none := wanted?_of_ne fun hs => by cases hs
    rw [hunfold.get?, if_pos rfl, hn, Option.bind_some, Option.bind_some, hbefore, hafter]
  · rw [hunfold.get?, if_neg hself, if_neg (by omega)]

theorem Good.unfold {ids : List NodeId} (h : Good t) (hn : t.get? id = some n)
    (hstatus : n.status = .present) (hinner : n.isInner)
    (hchildren : (t.set id { n with status := .persistent }).allocateChildren id = (some ids, t')) :
    Good t' := by
  obtain ⟨i, hi⟩ := Option.isSome_iff_exists.1 hinner
  have hfits := h.staged.fits hn
  have hslots := hfits.fresh (Or.inr (Or.inr hstatus))
  have hnone : i.children = none := by simpa [Node.slots?, hi] using hslots
  obtain ⟨-, hunfold⟩ := h.unfolded hn hstatus hi hchildren
  have hself := hunfold.get?_self
  have hold : ∀ {k p : Nat} {b m : Node}, t.get? k = some b → b.parent = some p →
      t'.get? p = some m → t.get? p = some m := by
    intro k p b m hb hp hm
    obtain ⟨q, -, hq, -⟩ := h.sound.up hb hp
    have hlt := Tree.lt_size_of_get? hq
    rw [hunfold.get?, if_neg (h.parent_ne hn hslots hb hp), if_neg (by omega)] at hm
    exact hm
  refine ⟨h.sound.unfolded hn hi hnone hunfold, ?_⟩
  constructor
  case fits =>
    intro k b hb
    rcases hunfold.back hb with ⟨-, rfl⟩ | ⟨j, -, -, rfl⟩ | ⟨-, hb⟩
    · refine ⟨Or.inr (Or.inr (Or.inr (Or.inl rfl))), ?_, fun _ => rfl, fun _ _ x hx => ?_⟩
      · rintro (hs | hs | hs) <;> cases hs
      · obtain rfl := Option.some.inj hx
        exact hfits.table (by simp [hstatus]) (by simp [hstatus]) i hi
    · have hcreated := status_newChild id n i j
      refine ⟨Or.inl hcreated, fun _ => ?_, by simp [hcreated], fun hne => absurd hcreated hne⟩
      rw [(like_newChild id n i j).slots?, Node.slots?_new]
    · exact h.staged.fits hb
  case created =>
    intro k p b m hb hcreated hp hm
    rcases hunfold.back hb with ⟨-, rfl⟩ | ⟨j, -, -, rfl⟩ | ⟨-, hb⟩
    · cases hcreated
    · rw [(like_newChild id n i j).parent, Node.parent_new] at hp
      obtain rfl := Option.some.inj hp
      obtain rfl := Option.some.inj (hm.symm.trans hself)
      rfl
    · exact h.staged.created hb hcreated hp (hold hb hp hm)
  case pending =>
    intro k p b m hb hpending hp hm
    rcases hunfold.back hb with ⟨-, rfl⟩ | ⟨j, -, -, rfl⟩ | ⟨-, hb⟩
    · cases hpending
    · rw [status_newChild] at hpending
      cases hpending
    · exact h.staged.pending hb hpending hp (hold hb hp hm)
  case asked =>
    intro k b hb hasked
    rcases hunfold.back hb with ⟨-, rfl⟩ | ⟨j, -, -, rfl⟩ | ⟨-, hb⟩
    · cases hasked
    · rw [status_newChild] at hasked
      cases hasked
    · rw [h.pendingQueries_unfolded hn hstatus hunfold hb]
      exact h.staged.asked hb hasked

theorem Good.settle (h : Good t) (hn : t.get? id = some n) (hstatus : n.status = .persistent)
    (hstarted : ∀ c ∈ n.childIds, ∀ b, t.get? c = some b → b.status ≠ .created) :
    Good (settled t id n).1 := by
  have hfits := h.staged.fits hn
  have hopened := hfits.opened (Or.inl hstatus)
  have htable := hfits.table (by simp [hstatus]) (by simp [hstatus])
  have hquiet : ∀ status, status ≠ .pending →
      Node.wanted? { n with status := status } = n.wanted? := by
    intro status hne
    rw [wanted?_of_ne hne, wanted?_of_ne (by simp [hstatus])]
  unfold settled
  by_cases hnone : pendingQueries t n = []
  · rw [if_pos hnone]
    refine h.set hn (like_status n _) ⟨by simp, by simp, fun _ => hopened, fun _ _ => htable⟩
      (by simp) (by simp) ?_ ?_ (by simp) (Or.inl (hquiet _ (by simp)))
    · intro c hc b hb hcreated
      exact absurd hcreated (hstarted c hc b hb)
    · intro c hc b hb hpending
      exact absurd hnone (pendingQueries_ne_nil hc hb hpending)
  · rw [if_neg hnone]
    refine h.set hn (like_status n _) ⟨by simp, by simp, fun _ => hopened, fun _ _ => htable⟩
      (by simp) (by simp) ?_ (fun _ _ _ _ _ => Or.inr rfl) (fun _ => ?_)
      (Or.inl (hquiet _ (by simp)))
    · intro c hc b hb hcreated
      exact absurd hcreated (hstarted c hc b hb)
    · exact hnone

theorem superHash_withoutChild (m : Node) (slot : Nat) :
    (Tree.withoutChild m slot).superHash = m.superHash := by
  cases hkind : m.kind <;>
    simp [Tree.withoutChild, Node.modifyInner, Node.superHash, Node.inner?, hkind]

theorem fits_withoutChild {slot : Nat} (h : m.Fits) : (Tree.withoutChild m slot).Fits where
  status := by simpa using h.status
  fresh hs := by
    rw [Tree.status_withoutChild] at hs
    rw [Tree.slots?_withoutChild, h.fresh hs]
    rfl
  opened hs := by
    rw [Tree.status_withoutChild] at hs
    rw [Tree.slots?_withoutChild, Option.isSome_map]
    exact h.opened hs
  table hcreated hpending i hi := by
    rw [Tree.status_withoutChild] at hcreated hpending
    obtain ⟨x, hx, rfl⟩ := Option.map_eq_some_iff.1 (Tree.inner?_withoutChild m slot ▸ hi)
    exact h.table hcreated hpending x hx

theorem Good.back_pruned (h : Good t) (hn : t.get? id = some n) (hstatus : n.status ≠ .pending)
    {k : Nat} {b : Node} (hb : (t.pruned id n).get? k = some b) :
    ∃ a, t.get? k = some a ∧ b.status = a.status ∧ b.parent = a.parent ∧ b.chk = a.chk ∧ b.Fits ∧
      b.superHash = a.superHash ∧ pendingQueries t b = pendingQueries t a ∧
      ∀ c ∈ b.childIds, c ∈ a.childIds ∧ c ≠ id := by
  have hquiet : (t.get? id).bind Node.wanted? = none := by
    rw [hn, Option.bind_some, wanted?_of_ne hstatus]
  obtain ⟨hne, a, ha, ⟨rfl, hparent⟩ | ⟨hparent, i, hi, rfl⟩⟩ := (h.sound.pruned hn).back hb
  · refine ⟨b, ha, rfl, rfl, rfl, h.staged.fits ha, rfl, rfl, fun c hc => ⟨hc, ?_⟩⟩
    rintro rfl
    exact hparent (h.parent_of_mem ha hc hn)
  · refine ⟨a, ha, Tree.status_withoutChild a i, Tree.parent_withoutChild a i,
      Tree.chk_withoutChild a i, fits_withoutChild (h.staged.fits ha), superHash_withoutChild a i,
      pendingQueries_withoutChild hi hquiet, fun c hc => ?_⟩
    obtain ⟨j, hj⟩ := Node.mem_childIds.1 hc
    rw [Tree.child?_withoutChild] at hj
    split at hj
    · cases hj
    · rename_i hslot
      refine ⟨Node.mem_childIds.2 ⟨j, hj⟩, ?_⟩
      rintro rfl
      exact hslot (h.sound.slot_inj ha hj hi)

theorem Good.pendingQueries_pruned (h : Good t) (hn : t.get? id = some n)
    (hstatus : n.status ≠ .pending) {k : Nat} {a b : Node} (ha : t.get? k = some a)
    (hb : (t.pruned id n).get? k = some b) :
    pendingQueries (t.pruned id n) b = pendingQueries t a := by
  obtain ⟨a', ha', -, -, -, -, -, hqueries, hids⟩ := h.back_pruned hn hstatus hb
  obtain rfl := Option.some.inj (ha.symm.trans ha')
  rw [← hqueries]
  refine pendingQueries_congr rfl fun c hc => ?_
  obtain ⟨hca, hne⟩ := hids c hc
  obtain ⟨j, hj⟩ := Node.mem_childIds.1 hca
  obtain ⟨x, hx, -⟩ := h.sound.down ha hj
  obtain ⟨y, hy⟩ := (h.sound.pruned hn).forth hx hne
  obtain ⟨x', hx', hys, -, hychk, -⟩ := h.back_pruned hn hstatus hy
  obtain rfl := Option.some.inj (hx.symm.trans hx')
  rw [hx, hy, Option.bind_some, Option.bind_some]
  simp only [Node.wanted?, hys, hychk]

theorem Good.prune (h : Good t) (hn : t.get? id = some n) (hchildless : n.childIds = [])
    (hstatus : n.status ≠ .pending) : Good (t.pruned id n) where
  sound := h.sound.of_pruned hn hchildless (h.sound.pruned hn)
  staged := by
    constructor
    case fits =>
      intro k b hb
      obtain ⟨a, -, -, -, -, hfits, -⟩ := h.back_pruned hn hstatus hb
      exact hfits
    case created =>
      intro k p b m hb hcreated hp hm
      obtain ⟨a, ha, hs, hparent, -⟩ := h.back_pruned hn hstatus hb
      obtain ⟨q, hq, hqs, -⟩ := h.back_pruned hn hstatus hm
      rw [hqs]
      exact h.staged.created ha (hs.symm.trans hcreated) (hparent.symm.trans hp) hq
    case pending =>
      intro k p b m hb hpending hp hm
      obtain ⟨a, ha, hs, hparent, -⟩ := h.back_pruned hn hstatus hb
      obtain ⟨q, hq, hqs, -⟩ := h.back_pruned hn hstatus hm
      rw [hqs]
      exact h.staged.pending ha (hs.symm.trans hpending) (hparent.symm.trans hp) hq
    case asked =>
      intro k b hb hasked
      obtain ⟨a, ha, hs, -⟩ := h.back_pruned hn hstatus hb
      rw [h.pendingQueries_pruned hn hstatus ha hb]
      exact h.staged.asked ha (hs.symm.trans hasked)

theorem Good.move {heard : Option (Nat × Block)} (h : Good st.tree) (hmove : Move env heard st st') :
    Good st'.tree := by
  cases hmove with
  | pad hpad => exact h.padded hpad
  | defer hn hstatus => exact h.defer hn hstatus
  | crown hn hparent hknown _ =>
    refine h.admitted hn hknown.status _ fun p b hp _ => ?_
    rw [hparent] at hp
    cases hp
  | adopt hn hparent hm _ hknown _ => exact h.told hn hknown.status hparent hm _
  | unfold hn hstatus hinner hchildren => exact h.unfold hn hstatus hinner hchildren
  | settle hn hstatus hstarted => exact h.settle hn hstatus hstarted
  | prune hn hchildless hstatus =>
    exact h.prune hn hchildless (by rcases hstatus with ⟨hs, -⟩ | hs <;> simp [hs])

theorem Good.moves (h : Good st.tree) (hmoves : Moves env st st') : Good st'.tree := by
  induction hmoves with
  | refl => exact h
  | tail _ hmove ih => exact ih.move hmove

end Moves

end Download

end ContentTree

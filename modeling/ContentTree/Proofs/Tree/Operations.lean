import ContentTree.Proofs.Tree.Releases
import ContentTree.Proofs.Tree.Steps

/-!
# Operations are sequences of moves

An operation of a download that ends well has made moves, after which every node rests. One that
fails was stopped by a checksum, after moves of its own, unless it had not yet begun.
-/

namespace ContentTree

namespace Download

variable {env : Env} {st : State} {t : Tree} {id : Nat} {n m : Node}

/-- What ends well has made moves, has started just the nodes in `started`, and leaves every node at
rest. -/
def Done (env : Env) (st : State) (started : Nat → Prop) (st' : State) : Prop :=
  Moves env st st' ∧ AllRest st'.tree ∧ Frame started st.tree st'.tree

/-- The known block of a node is accounted for in `last`. -/
def Counted (env : Env) (heard : Option (Nat × Block)) (st last : State) : Prop :=
  ∃ id n data disk, st.tree.get? id = some n ∧ Evidence env heard st id n data disk ∧
    last.meter = metered st.meter n

/-- What fails on the way, in the state `last`, was stopped by a checksum. -/
def Stopped (env : Env) (st : State) (e : TreeError) (last : State) : Prop :=
  ∃ st', Moves env st st' ∧ Rejected env none st' e ∧ Counted env none st' last

theorem Stopped.after {st' last : State} {e : TreeError} (h : Moves env st st')
    (hstopped : Stopped env st' e last) : Stopped env st e last := by
  obtain ⟨st'', hmoves, hrejected⟩ := hstopped
  exact ⟨st'', h.trans hmoves, hrejected⟩

theorem Done.after {st' st'' : State} {started later : Nat → Prop} (h : Moves env st st')
    (hframe : Frame started st.tree st'.tree) (hdone : Done env st' later st'') :
    Done env st (fun k => started k ∨ later k) st'' :=
  ⟨h.trans hdone.1, hdone.2.1, hframe.trans hdone.2.2⟩

theorem Done.congr {st' : State} {started later : Nat → Prop} (h : Done env st started st')
    (hsame : ∀ k, started k ↔ later k) : Done env st later st' :=
  ⟨h.1, h.2.1, h.2.2.congr hsame⟩

/-! ### Freeing -/

theorem cleared_set (t : Tree) (id : Nat) (n : Node) : (t.set id n).cleared id = t.cleared id := by
  have herase : (t.set id n).erase id = t.erase id := by simp [Tree.set, Tree.erase]
  unfold Tree.cleared
  rw [herase]
  rfl

theorem freed_setStatus (hn : st.tree.get? id = some n) (hchildless : n.childIds = [])
    (status : Status) (levels : Nat) :
    State.freed { st with tree := st.tree.set id { n with status := status } } levels id =
      st.freed levels id := by
  have hset : (st.tree.set id { n with status := status }).get? id =
      some { n with status := status } := by rw [Tree.get?_set hn, if_pos rfl]
  have hsame : Tree.freeUp levels (st.tree.set id { n with status := status }) id =
      Tree.freeUp levels st.tree id := by
    rw [Tree.freeUp_of_childless hset hchildless, Tree.freeUp_of_childless hn hchildless, cleared_set]
  simp only [State.freed, hsame]

/-- A node without children that is not waited for is freed once it is marked as done. -/
theorem ends_free {ok : Unit → State → Prop} {fail : TreeError → State → Prop} (h : Good st.tree)
    (hrest : RestsBut st.tree id) (hn : st.tree.get? id = some n) (hchildless : n.childIds = [])
    (hstatus : n.status = .present ∧ n.inner? = none ∨ n.status = .childrenPresent)
    (hok : ∀ st', Done env st (fun _ => False) st' → ok () st') :
    Ends (do onTree (·.setStatus id .done); free id) st ok fail := by
  rw [ends_bind, ends_onTree, Tree.setStatus_eq_set hn]
  have hrun : Ends (free id) { st with tree := st.tree.set id { n with status := .done } } ok fail ↔
      ok () (State.freed { st with tree := st.tree.set id { n with status := .done } }
        (treeDepth st.tree.fileSize) id) := Iff.rfl
  rw [hrun, freed_setStatus hn hchildless]
  exact hok _ (moves_freed _ h hrest hn hchildless hstatus (Nat.le_add_right _ _))

theorem ends_finish {ok : Unit → State → Prop} {fail : TreeError → State → Prop} (h : Good st.tree)
    (hrest : RestsBut st.tree id) (hn : st.tree.get? id = some n)
    (hstatus : n.status = .childrenPresent ∨ n.status = .superqueryPending)
    (hok : ∀ st', Done env st (fun _ => False) st' → ok () st') :
    Ends (finish id) st ok fail := by
  have hopened : n.slots?.isSome :=
    (h.staged.fits hn).opened (by rcases hstatus with hs | hs <;> simp [hs])
  obtain ⟨i, hi⟩ : ∃ i, n.inner? = some i :=
    Option.isSome_iff_exists.1 (Node.isInner_of_isSome_slots? hopened)
  have hlive := (h.sound.shaped hn).live_eq_zero hi
  have hnotpersistent : n.status ≠ .persistent := by rcases hstatus with hs | hs <;> simp [hs]
  unfold finish
  rw [ends_bind, ends_find?, hn]
  simp only [hi]
  split
  · rename_i hempty
    have hchildless := hlive.1 hempty.2
    refine ends_free h hrest hn hchildless (Or.inr ?_) hok
    rcases hstatus with hs | hs
    · exact hs
    · refine absurd ?_ (h.staged.asked hn hs)
      rw [pendingQueries_eq, hchildless, List.filterMap_nil]
  · rename_i hkept
    refine hok _ ⟨.refl, fun {k b} hb => ?_, frame_padded (Tree.Padded.refl _)⟩
    by_cases hk : k = id
    · subst hk
      obtain rfl := Option.some.inj (hb.symm.trans hn)
      have hnotpresent : b.status ≠ .present := by rcases hstatus with hs | hs <;> simp [hs]
      exact ⟨hnotpresent, fun _ hnone => hkept ⟨hnotpersistent, hlive.2 hnone⟩⟩
    · exact hrest hb hk

/-! ### Asking for children -/

theorem ends_settle {ok : Unit → State → Prop} {fail : TreeError → State → Prop} (h : Good st.tree)
    (hn : st.tree.get? id = some n) (hinner : n.isInner)
    (hok : ok () (State.said { st with tree := (settled st.tree id n).1 } (settled st.tree id n).2)) :
    Ends (do onTree (·.setStatus id .childrenPresent); refresh id) st ok fail := by
  obtain ⟨i, hi⟩ := Option.isSome_iff_exists.1 hinner
  have hset : (st.tree.set id { n with status := .childrenPresent }).get? id =
      some { n with status := .childrenPresent } := by rw [Tree.get?_set hn, if_pos rfl]
  have hqueries : pendingQueries (st.tree.set id { n with status := .childrenPresent })
      { n with status := .childrenPresent } = pendingQueries st.tree n := by
    refine pendingQueries_congr rfl fun c hc => ?_
    rw [Tree.get?_set hn, if_neg (h.ne_of_mem hn hc)]
  have hinner' : Node.inner? { n with status := .childrenPresent } = some i := hi
  have hsuper : (i.table.map InnerBlock.superHash).getD zeroDigest = n.superHash := by
    simp [Node.superHash, hi]
  rw [ends_bind, ends_onTree, Tree.setStatus_eq_set hn]
  unfold refresh
  rw [ends_bind, ends_find?]
  simp only [hset, hinner', reduceCtorEq, if_false]
  rw [ends_bind, ends_get]
  simp only [hqueries, List.isEmpty_iff, hsuper]
  unfold settled at hok
  by_cases hnone : pendingQueries st.tree n = []
  · simp only [hnone, if_true] at hok ⊢
    rw [ends_bind, ends_onTree, Tree.setStatus_eq_set hset, Tree.set_set, ends_pure]
    simpa [State.said] using hok
  · simp only [hnone, if_false] at hok ⊢
    rw [ends_bind, ends_onTree, Tree.setStatus_eq_set hset, Tree.set_set, ends_call]
    simpa [State.said, superQuery] using hok

theorem ends_refresh_parent {ok : Unit → State → Prop} {fail : TreeError → State → Prop}
    {u : Tree} {p : Nat} {a b : Node} (ha : u.get? p = some a) (hb : b.isInner)
    (htree : st.tree = u.set p b)
    (hstatus : b.status = .persistent ∨ b.status = .superqueryPending)
    (hok : ok () (State.said { st with tree := (told u p b).1 } (told u p b).2)) :
    Ends (refresh p) st ok fail := by
  obtain ⟨i, hi⟩ := Option.isSome_iff_exists.1 hb
  have hget : (u.set p b).get? p = some b := by rw [Tree.get?_set ha, if_pos rfl]
  have hsuper : (i.table.map InnerBlock.superHash).getD zeroDigest = b.superHash := by
    simp [Node.superHash, hi]
  unfold refresh
  rw [ends_bind, ends_find?, htree, hget]
  simp only [hi]
  unfold told at hok
  split
  · rename_i hs
    rw [if_pos hs] at hok
    rw [ends_pure]
    simpa [State.said, ← htree] using hok
  · rename_i hs
    have hasked := hstatus.resolve_left hs
    rw [if_neg hs] at hok
    rw [ends_bind, ends_get, htree]
    simp only [List.isEmpty_iff, hasked, hsuper, if_true]
    by_cases hnone : pendingQueries (u.set p b) b = []
    · simp only [hnone, if_true] at hok ⊢
      rw [ends_bind, ends_onTree, ends_call, htree, Tree.setStatus_eq_set hget, Tree.set_set]
      simpa [State.said] using hok
    · simp only [hnone, if_false] at hok ⊢
      rw [ends_call]
      simpa [State.said, superQuery, ← htree] using hok

/-! ### Starting the children of a node -/

/-- How starting a new node at a level ends. -/
def Starts (env : Env) (level : Nat) (start : NodeId → Step Unit) : Prop :=
  ∀ (st : State) (id : Nat) (n : Node), Good st.tree → AllRest st.tree →
    st.tree.get? id = some n → n.status = .created → n.depth = level →
    Ends (start id) st (fun _ st' => Done env st (· = id) st') (Stopped env st)

theorem ends_start_each {level : Nat} {start : NodeId → Step Unit} (hstart : Starts env level start)
    (ids : List Nat) (hnodup : ids.Nodup) (h : Good st.tree) (hrest : AllRest st.tree)
    (hids : ∀ c ∈ ids, ∃ b, st.tree.get? c = some b ∧ b.status = .created ∧ b.depth = level) :
    Ends (ids.forM fun child => do if (← find? child).isSome then start child) st
      (fun _ st' => Done env st (· ∈ ids) st') (Stopped env st) := by
  induction ids generalizing st with
  | nil =>
    exact ⟨.refl, hrest, (frame_padded (Tree.Padded.refl _)).congr fun k => by simp⟩
  | cons c ids ih =>
    obtain ⟨b, hb, hcreated, hdepth⟩ := hids c (by simp)
    rw [List.forM_eq_forM, List.forM_cons, ← List.forM_eq_forM, ends_bind, ends_bind, ends_find?, hb]
    simp only [Option.isSome_some, if_true]
    refine (hstart st c b h hrest hb hcreated hdepth).mono ?_ fun _ _ hstopped => hstopped
    intro _ st' hdone
    have hlater : ∀ d ∈ ids, ∃ b, st'.tree.get? d = some b ∧ b.status = .created ∧ b.depth = level := by
      intro d hd
      obtain ⟨x, hx, hxcreated, hxdepth⟩ := hids d (by simp [hd])
      have hne : d ≠ c := by
        rintro rfl
        exact (List.nodup_cons.1 hnodup).1 hd
      have hkept := hdone.2.2.created.2 ⟨⟨hx, hxcreated⟩, hne⟩
      exact ⟨x, hkept.1, hkept.2, hxdepth⟩
    refine (ih (List.nodup_cons.1 hnodup).2 (h.moves hdone.1) hdone.2.1 hlater).mono ?_ ?_
    · intro _ st'' hrestdone
      exact (Done.after hdone.1 hdone.2.2 hrestdone).congr fun k => by simp
    · exact fun _ _ hstopped => hstopped.after hdone.1

/-- The frame of a node that gets children, has all of them started, and then asks for them. -/
theorem frame_expanded {i : Inner} {t' t'' : Tree} {n' : Node} {child : Nat → Node} {status : Status}
    {u : Tree} (hn : t.get? id = some n) (hpresent : n.status = .present)
    (hunfold : Tree.Unfolded t id n n' i child t')
    (hchild : ∀ j, (child j).status = .created)
    (hframe : Frame (· ∈ List.range' t.nodes.size i.childCount) t' t'')
    (hm : t''.get? id = some m) (hstatus : status ≠ .created)
    (hstatus' : status ≠ .persistent) (hu : u = t''.set id { m with status := status }) :
    Frame (fun _ => False) t u := by
  have hid := Tree.lt_size_of_get? hn
  have hget := Tree.get?_set hm { m with status := status }
  constructor
  case created =>
    intro k b
    rw [not_false_eq_true, and_true, hu, hget]
    by_cases hk : k = id
    · subst hk
      rw [if_pos rfl, hn, Option.some.injEq, Option.some.injEq]
      constructor
      · rintro ⟨rfl, hs⟩
        exact absurd hs hstatus
      · rintro ⟨rfl, hs⟩
        rw [hpresent] at hs
        cases hs
    · rw [if_neg hk, hframe.created, hunfold.get?, if_neg hk, List.mem_range'_1]
      by_cases hbounds : t.nodes.size ≤ k ∧ k < t.nodes.size + i.childCount
      · rw [Tree.get?_eq_none_of_size_le hbounds.1]
        simp [hbounds]
      · rw [if_neg hbounds]
        simp [hbounds]
  case persistent =>
    intro k
    rw [hu, hget]
    by_cases hk : k = id
    · subst hk
      rw [if_pos rfl, hn]
      simp [hstatus', hpresent]
    · rw [if_neg hk, hframe.persistent, hunfold.get?, if_neg hk]
      split
      · rename_i hbounds
        rw [Tree.get?_eq_none_of_size_le hbounds.1]
        simp [hchild]
      · rfl

theorem settled_eq (t : Tree) (id : Nat) (n : Node) : ∃ status : Status,
    (settled t id n).1 = t.set id { n with status := status } ∧
      (status = .childrenPresent ∨ status = .superqueryPending) := by
  unfold settled
  split
  · exact ⟨.childrenPresent, rfl, Or.inl rfl⟩
  · exact ⟨.superqueryPending, rfl, Or.inr rfl⟩

/-- Children that are new are to be started, and all other nodes rest as before. -/
theorem rests_unfolded {i : Inner} {n' : Node} {child : Nat → Node} {t' : Tree}
    (hunfold : Tree.Unfolded t id n n' i child t') (hrest : RestsBut t id)
    (hstatus : n'.status = .persistent) (hchild : ∀ j, (child j).status = .created) : AllRest t' := by
  intro k b hb
  rcases hunfold.back hb with ⟨-, rfl⟩ | ⟨j, -, -, rfl⟩ | ⟨hk, hold⟩
  · exact ⟨by simp [hstatus], by simp [hstatus]⟩
  · exact ⟨by simp [hchild], by simp [hchild]⟩
  · exact hrest hold hk

/-- When all new children of a node have been started, it has no child that is to be started. -/
theorem started_unfolded {i : Inner} {n' : Node} {child : Nat → Node} {t' t'' : Tree}
    (hunfold : Tree.Unfolded t id n n' i child t') (hgood : Good t') (hgood' : Good t'')
    (hframe : Frame (· ∈ List.range' t.nodes.size i.childCount) t' t'') (hm : t''.get? id = some m)
    {c : Nat} {b : Node} (hc : c ∈ m.childIds) (hb : t''.get? c = some b) : b.status ≠ .created := by
  intro hcreated
  obtain ⟨⟨hbefore, -⟩, hnotstarted⟩ := hframe.created.1 ⟨hb, hcreated⟩
  obtain ⟨q, j, hq, hj⟩ := hgood.sound.up hbefore (hgood'.parent_of_mem hm hc hb)
  obtain rfl := Option.some.inj (hq.symm.trans hunfold.get?_self)
  obtain ⟨hlt, rfl⟩ := hunfold.child?.1 hj
  exact hnotstarted (List.mem_range'_1.2 (by omega))

theorem ends_expand {level : Nat} {start : NodeId → Step Unit} (hstart : Starts env level start)
    (h : Good st.tree) (hrest : RestsBut st.tree id) (hn : st.tree.get? id = some n)
    (hstatus : n.status = .present) (hinner : n.isInner) (hdepth : n.depth = level + 1) :
    Ends (expand start id) st (fun _ st' => Done env st (fun _ => False) st')
      (Stopped env st) := by
  obtain ⟨i, hi⟩ := Option.isSome_iff_exists.1 hinner
  obtain ⟨t, hrun, hunfold⟩ := h.allocateChildren hn hstatus hi
  have hunfoldmove : Move env none st { st with tree := t } := .unfold hn hstatus hinner hrun
  have hgood := h.move hunfoldmove
  have hrestnow : AllRest t := rests_unfolded hunfold hrest rfl fun j => status_newChild id n i j
  have hids : ∀ c ∈ List.range' st.tree.nodes.size i.childCount,
      ∃ b, t.get? c = some b ∧ b.status = .created ∧ b.depth = level := by
    intro c hc
    obtain ⟨j, hj, rfl⟩ := List.mem_range'.1 hc
    rw [Nat.one_mul]
    exact ⟨_, hunfold.get?_child hn hj, status_newChild _ _ _ _,
      by rw [hunfold.depth_child hj, hdepth, Nat.add_sub_cancel]⟩
  unfold expand
  rw [ends_bind]
  refine ends_node hn ?_
  rw [ends_bind, ends_onTree, Tree.setStatus_eq_set hn, ends_bind, ends_modifyGet]
  simp only [hrun, Option.getD_some]
  rw [ends_bind]
  refine (@ends_start_each env { st with tree := t } _ _ hstart _ List.nodup_range' hgood hrestnow
    hids).mono ?_ fun _ _ hstopped => hstopped.after (.single hunfoldmove)
  rintro _ st' ⟨hmoves, hrest', hframe⟩
  have hgood' := hgood.moves hmoves
  have hmovesall : Moves env st st' := (Relation.ReflTransGen.single hunfoldmove).trans hmoves
  obtain ⟨m, hm, hmstatus⟩ := hframe.persistent.2
    ⟨_, hunfold.get?_self, rfl⟩
  have hminner : m.isInner :=
    Node.isInner_of_isSome_slots? ((hgood'.staged.fits hm).opened (Or.inl hmstatus))
  have hstarted : ∀ c ∈ m.childIds, ∀ b, st'.tree.get? c = some b → b.status ≠ .created :=
    fun c hc b hb => started_unfolded hunfold hgood hgood' hframe hm hc hb
  have hsettle : Move env none st' (State.said { st' with tree := (settled st'.tree id m).1 }
      (settled st'.tree id m).2) := .settle hm hmstatus hstarted
  obtain ⟨status, htree, hsettled⟩ := settled_eq st'.tree id m
  have hlast := hgood'.move hsettle
  have hself : (settled st'.tree id m).1.get? id = some { m with status := status } := by
    rw [htree, Tree.get?_set hm, if_pos rfl]
  have hrestlast : RestsBut (settled st'.tree id m).1 id := by
    intro k b hb hk
    rw [htree, Tree.get?_set hm, if_neg hk] at hb
    exact hrest' hb
  have hframelast : Frame (fun _ => False) st.tree (settled st'.tree id m).1 :=
    frame_expanded hn hstatus hunfold (fun j => status_newChild id n i j) hframe hm
      (by rcases hsettled with hs | hs <;> simp [hs]) (by rcases hsettled with hs | hs <;> simp [hs])
      htree
  rw [ends_bind]
  refine ends_node hm ?_
  have hfinished : Ends (finish id)
      (State.said { st' with tree := (settled st'.tree id m).1 } (settled st'.tree id m).2)
      (fun _ st'' => Done env st (fun _ => False) st'') (Stopped env st) := by
    refine ends_finish hlast hrestlast hself hsettled fun st'' (hdone : Done env _ _ _) => ?_
    exact (Done.after (hmovesall.tail hsettle) hframelast hdone).congr fun k => by simp
  have hasked : Ends (do onTree (·.setStatus id .childrenPresent); refresh id) st'
      (fun _ st'' => Ends (finish id) st'' (fun _ st' => Done env st (fun _ => False) st')
        (Stopped env st)) (Stopped env st) :=
    ends_settle hgood' hm hminner hfinished
  rw [ends_bind] at hasked ⊢
  refine hasked.mono (fun _ st'' h => ?_) fun _ _ h => h
  rw [ends_bind]
  exact h

/-! ### A known block -/

theorem ends_checkTop {b : Node} {ok : Unit → State → Prop} {fail : TreeError → State → Prop}
    (hb : st.tree.get? id = some b)
    (hok : (st.tree.root = some id → ∀ crc, env.topCrc = some crc →
      env.suite.checksum b.payload = crc) → ok () st)
    (hfail : ∀ crc, st.tree.root = some id → env.topCrc = some crc →
      env.suite.checksum b.payload ≠ crc → fail (.corrupted b.depth b.position .fileChecksum) st) :
    Ends (checkTop env id) st ok fail := by
  unfold checkTop
  rw [ends_bind, ends_get]
  cases htop : env.topCrc with
  | none =>
    refine hok fun _ crc hcrc => ?_
    rw [htop] at hcrc
    cases hcrc
  | some expected =>
    simp only
    split
    · rename_i hroot
      rw [ends_bind]
      refine ends_node hb ?_
      split
      · rename_i hne
        exact hfail expected hroot htop hne
      · rename_i heq
        refine hok fun _ crc hcrc => ?_
        rw [htop] at hcrc
        rw [← Option.some.inj hcrc]
        exact not_not.1 heq
    · rename_i hroot
      exact hok fun h => absurd h hroot

theorem ends_recordChild {p slot : Nat} {c : Node} {i : Inner} {ok : Unit → State → Prop}
    {fail : TreeError → State → Prop} (hc : st.tree.get? id = some c)
    (hm : st.tree.get? p = some m) (hslot : m.slotOf? c.position = some slot)
    (hi : m.inner? = some i)
    (hok : m.Agrees env.suite slot c →
      ok () { st with tree := st.tree.set p (m.recorded env.suite slot c) })
    (hfail : ¬ m.Agrees env.suite slot c →
      ∀ t, fail (.corrupted m.depth m.position .childChecksums) { st with tree := t }) :
    Ends (recordChild env p id) st ok fail := by
  have hrecorded : m.recorded env.suite slot c =
      { m.setInner { i with childCrcs := Node.crcsWith env.suite i slot c } with
        data := if (Node.crcsWith env.suite i slot c).all Option.isSome then none else m.data } := by
    simp only [Node.recorded, hi]
  have hdepth : (m.setInner { i with childCrcs := Node.crcsWith env.suite i slot c }).depth =
      m.depth := (Node.depth_of_inner hi).symm
  unfold recordChild
  rw [ends_bind]
  refine ends_node hc ?_
  rw [ends_bind]
  refine ends_node hm ?_
  simp only [hslot, hi]
  rw [ends_bind, ends_onTree]
  change Ends (if (Node.crcsWith env.suite i slot c).all Option.isSome = true then _ else _) _ _ _
  split
  · rename_i hall
    have hget : (st.tree.set p
        (m.setInner { i with childCrcs := Node.crcsWith env.suite i slot c })).get? p =
          some (m.setInner { i with childCrcs := Node.crcsWith env.suite i slot c }) := by
      rw [Tree.get?_set hm, if_pos rfl]
    split
    · rename_i hne
      rw [ends_bind, ends_throw]
      have hf := hfail fun h => hne (h i hi hall)
      rw [← hdepth] at hf
      exact hf _
    · rename_i heq
      rw [ends_onTree, Tree.set_set]
      have hok' := hok fun j hj _ => by
        obtain rfl := Option.some.inj (hi.symm.trans hj)
        exact not_not.1 heq
      rw [hrecorded, if_pos hall] at hok'
      exact hok'
  · rename_i hall
    rw [ends_pure]
    have hok' := hok fun j hj hall' => by
      obtain rfl := Option.some.inj (hi.symm.trans hj)
      exact absurd hall' hall
    rw [hrecorded, if_neg hall] at hok'
    exact hok'

theorem frame_admitted (hn : t.get? id = some n)
    (hstatus : n.status = .created ∨ n.status = .pending) (data : Block) :
    Frame (· = id) t (t.set id (n.admitted data)) :=
  frame_set hn (by simp) (by rcases hstatus with hs | hs <;> simp [hs])

/-- What follows once a node has been admitted: its children are started, or it goes away. -/
theorem ends_admitted {start : NodeId → Step Unit} {b : Node} (h : Good st.tree)
    (hrest : RestsBut st.tree id) (hb : st.tree.get? id = some b) (hstatus : b.status = .present)
    (hstart : b.isInner → ∃ level, b.depth = level + 1 ∧ Starts env level start) :
    Ends (if b.isInner then expand start id
      else do
        onTree (·.setStatus id .done)
        free id) st
      (fun _ st' => Done env st (fun _ => False) st') (Stopped env st) := by
  split
  · rename_i hinner
    obtain ⟨level, hdepth, hstarts⟩ := hstart hinner
    exact ends_expand hstarts h hrest hb hstatus hinner hdepth
  · rename_i hleaf
    have hnone : b.inner? = none := by
      cases hkind : b.inner? with
      | none => rfl
      | some i => simp [Node.isInner, hkind] at hleaf
    exact ends_free h hrest hb (Node.childIds_of_inner?_eq_none hnone) (Or.inl ⟨hstatus, hnone⟩)
      fun _ hdone => hdone

theorem isInner_admitted (n : Node) (data : Block) : (n.admitted data).isInner = n.isInner := by
  cases hi : n.inner? with
  | none =>
    have hkind := Node.inner?_eq_none.1 hi
    simp [Node.admitted, Node.isInner, Node.inner?, hkind]
  | some i => simp [Node.isInner, inner?_admitted data hi, hi]

theorem RestsBut.set (h : AllRest t) (hn : t.get? id = some n) (m : Node) :
    RestsBut (t.set id m) id := by
  intro k x hx hk
  rw [Tree.get?_set hn, if_neg hk] at hx
  exact h hx

/-- What has come of a known block: a first move, which takes it, and those that follow. -/
def Taken (env : Env) (heard : Option (Nat × Block)) (st : State) (id : Nat) (st' : State) : Prop :=
  ∃ mid n data, st.tree.get? id = some n ∧ Evidence env heard st id n data mid.disk ∧
    Move env heard st mid ∧ mid.tree.get? id = some (n.admitted data) ∧ Moves env mid st' ∧
    AllRest st'.tree ∧ Frame (· = id) st.tree st'.tree

/-- What fails after a block is known was stopped by a checksum, at once or later. -/
def Halted (env : Env) (heard : Option (Nat × Block)) (st : State) (e : TreeError) (last : State) :
    Prop :=
  Rejected env heard st e ∧ Counted env heard st last ∨
    ∃ mid, Move env heard st mid ∧ Stopped env mid e last

theorem State.push_said (st : State) (calls : List SchedulerCall) (c : SchedulerCall) :
    { st.said calls with calls := (st.said calls).calls.push c } = st.said (calls ++ [c]) := by
  simp [State.said]

theorem State.said_said (st : State) (t : Tree) (calls rest : List SchedulerCall) :
    State.said { st.said calls with tree := t } rest =
      State.said { st with tree := t } (calls ++ rest) := by
  simp [State.said, Array.append_assoc]

/-- The parent that has been told of an admitted node rests, since the node is still in its slot. -/
theorem Good.rests_told {u : Tree} {p slot : Nat} (h : Good t) (hrest : AllRest t)
    (hn : t.get? id = some n) (hstatus : n.status = .created ∨ n.status = .pending)
    (hparent : n.parent = some p) (hm : t.get? p = some m) (hslot : m.child? slot = some id)
    (s : Suite) (data : Block)
    (hu : (Download.told (t.set id (n.admitted data)) p (m.recorded s slot (n.admitted data))).1 = u) :
    u.get? id = some (n.admitted data) ∧ RestsBut u id ∧ Frame (· = id) t u := by
  have hbefore := h.parent_status hn hstatus hparent hm
  obtain ⟨hne, hm', status, _, htree, -, htells⟩ :=
    h.told_parent hn hstatus hparent hm s slot data
  obtain ⟨hcreated, hpresent⟩ : status ≠ .created ∧ status ≠ .present := by
    rcases htells.status with rfl | rfl | rfl <;> simp
  have hpersistent : status = .persistent ↔ m.status = .persistent := by
    simpa using htells.persistent_iff
  rw [hu] at htree
  have hget : ∀ k : Nat, u.get? k =
      if k = p then some { m.recorded s slot (n.admitted data) with status := status }
      else if k = id then some (n.admitted data) else t.get? k := by
    intro k
    rw [htree, Tree.get?_set hm', Tree.get?_set hn]
  refine ⟨by rw [hget, if_neg (Ne.symm hne), if_pos rfl], fun {k x} hx hk => ?_, ?_⟩
  · rw [hget] at hx
    split at hx
    · obtain rfl := Option.some.inj hx
      refine ⟨hpresent, fun _ => ?_⟩
      have hslots := like_recorded (m := m) s slot (n.admitted data)
      exact List.ne_nil_of_mem (Node.mem_childIds.2 ⟨slot, (hslots.child? slot).trans hslot⟩)
    · exact hrest hx
  · have hlast : Frame (fun _ => False) (t.set id (n.admitted data)) u := by
      rw [htree]
      refine (frame_set hm' hcreated hpersistent).of_none_created fun hk hb => ?_
      rw [hk, hm'] at hb
      obtain rfl := Option.some.inj hb
      rcases hbefore with hs | hs <;> simp [hs]
    exact ((frame_admitted hn hstatus data).trans hlast).congr fun k => by simp

section Admitted

variable {heard : Option (Nat × Block)} {start : NodeId → Step Unit} {data : Block} {disk : Disk}
  (h : Good st.tree) (hrest : AllRest st.tree) (hn : st.tree.get? id = some n)
  (hknown : Evidence env heard st id n data disk)
  (hstart : n.isInner → ∃ level, n.depth = level + 1 ∧ Starts env level start)

include h hrest hn hknown hstart

omit hrest in
/-- What follows the move that takes the block. -/
theorem ends_taken {mid : State} (hmove : Move env heard st mid) (hdisk : mid.disk = disk)
    (hself : mid.tree.get? id = some (n.admitted data)) (hrestbut : RestsBut mid.tree id)
    (hframe : Frame (· = id) st.tree mid.tree) :
    Ends (if (n.admitted data).isInner then expand start id
      else do
        onTree (·.setStatus id .done)
        free id) mid (fun _ st' => Taken env heard st id st') (Halted env heard st) := by
  rw [← isInner_admitted n data, ← (like_admitted data n).depth] at hstart
  refine (ends_admitted (h.move hmove) hrestbut hself (status_admitted data n) hstart).mono
    (fun _ st' hdone => ?_) fun _ _ hstopped => .inr ⟨mid, hmove, hstopped⟩
  exact ⟨mid, n, data, hn, hdisk ▸ hknown, hmove, hself, hdone.1, hdone.2.1,
    (hframe.trans hdone.2.2).congr fun k => by simp⟩

theorem ends_crowned (hparent : n.parent = none)
    (htop : ∀ crc, env.topCrc = some crc → env.suite.checksum (n.admitted data).payload = crc) :
    Ends (do
      call (.update id none)
      if (n.admitted data).isInner then expand start id
        else do
          onTree (·.setStatus id .done)
          free id)
      (State.said
        { st with
          tree := st.tree.set id (n.admitted data), disk := disk, meter := metered st.meter n }
        (haste st.meter n))
      (fun _ st' => Taken env heard st id st') (Halted env heard st) := by
  rw [ends_bind, ends_call, State.push_said]
  exact ends_taken h hn hknown hstart (.crown hn hparent hknown htop) rfl
    (by simp [State.said, Tree.get?_set hn]) (RestsBut.set hrest hn _)
    (frame_admitted hn hknown.status data)

theorem ends_adopted {p : Nat} (hparent : n.parent = some p) :
    Ends (do
      recordChild env p id
      refresh p
      if (n.admitted data).isInner then expand start id
        else do
          onTree (·.setStatus id .done)
          free id)
      (State.said
        { st with
          tree := st.tree.set id (n.admitted data), disk := disk, meter := metered st.meter n }
        (haste st.meter n))
      (fun _ st' => Taken env heard st id st') (Halted env heard st) := by
  have hstatus := hknown.status
  have hadmitted := like_admitted data n
  have hself : (st.tree.set id (n.admitted data)).get? id = some (n.admitted data) := by
    rw [Tree.get?_set hn, if_pos rfl]
  obtain ⟨m, slot, hm, hslot, hdepth, -, -⟩ := h.sound.parent hn hparent
  have hbefore := h.parent_status hn hstatus hparent hm
  have hne := h.sound.parent_ne_self hn hparent
  obtain ⟨i, hi⟩ : ∃ i, m.inner? = some i :=
    Option.isSome_iff_exists.1 ((h.sound.shaped hm).isSome_inner?.2 (by omega))
  have hm' : (st.tree.set id (n.admitted data)).get? p = some m := by
    rw [Tree.get?_set hn, if_neg hne, hm]
  have hslotof : m.slotOf? (n.admitted data).position = some slot := by
    rw [hadmitted.position]
    exact h.sound.slotOf? hm hslot hn
  rw [ends_bind]
  refine ends_recordChild hself hm' hslotof hi (fun hagrees => ?_) fun hnot _ => ?_
  swap
  · exact .inl ⟨.children hn hparent hm hslot hknown hnot, id, n, data, disk, hn, hknown, rfl⟩
  obtain ⟨hselflast, hrestbut, hframe⟩ :=
    h.rests_told hrest hn hstatus hparent hm hslot env.suite data rfl
  rw [ends_bind]
  refine ends_refresh_parent hm' ?_ rfl (by simpa using hbefore) ?_
  · simp [Node.isInner, inner?_recorded env.suite slot (n.admitted data) hi]
  · rw [State.said_said]
    exact ends_taken h hn hknown hstart (.adopt hn hparent hm hslot hknown hagrees) rfl hselflast
      hrestbut hframe

theorem ends_arrive {b : Node} {now : State} (hb : { b with status := .present } = n.admitted data)
    (hnow : now = State.said
      { st with tree := st.tree.set id b, disk := disk, meter := metered st.meter n }
      (haste st.meter n)) :
    Ends (arrive env start id) now (fun _ st' => Taken env heard st id st')
      (Halted env heard st) := by
  have hlike := like_of_admitted hb
  have hpayload : b.payload = (n.admitted data).payload := by rw [← hb]; rfl
  have hinner : b.isInner = (n.admitted data).isInner := by rw [← hb]; rfl
  have hget : (st.tree.set id b).get? id = some b := by rw [Tree.get?_set hn, if_pos rfl]
  have hset : ((st.tree.set id b).setStatus id .present) = st.tree.set id (n.admitted data) := by
    rw [Tree.setStatus_eq_set hget, Tree.set_set, hb]
  subst hnow
  unfold arrive
  rw [ends_bind]
  refine ends_checkTop hget ?_ ?_
  swap
  · intro crc hroot htop hne
    rw [hlike.depth, hlike.position]
    exact .inl ⟨.top hn ((h.sound.root_iff hn).2 hroot) hknown htop (hpayload ▸ hne),
      id, n, data, disk, hn, hknown, rfl⟩
  intro htop
  rw [ends_bind]
  refine ends_node hget ?_
  rw [ends_bind, ends_onTree]
  change Ends _ (State.said { st with
    tree := (st.tree.set id b).setStatus id .present, disk := disk, meter := metered st.meter n }
    (haste st.meter n)) _ _
  rw [hset, hinner, hlike.parent]
  cases hparent : n.parent with
  | none =>
    simp only
    refine ends_crowned h hrest hn hknown hstart hparent ?_
    rw [← hpayload]
    exact htop ((h.sound.root_iff hn).1 hparent)
  | some p =>
    simp only
    exact ends_adopted h hrest hn hknown hstart hparent

end Admitted

/-! ### Visiting new nodes -/

theorem Taken.done {st' : State} (h : Taken env none st id st') : Done env st (· = id) st' := by
  obtain ⟨mid, -, -, -, -, hmove, -, hmoves, hrest, hframe⟩ := h
  exact ⟨(Relation.ReflTransGen.single hmove).trans hmoves, hrest, hframe⟩

theorem Halted.stopped {e : TreeError} {last : State} (h : Halted env none st e last) :
    Stopped env st e last := by
  rcases h with hrejected | ⟨mid, hmove, hstopped⟩
  · exact ⟨st, .refl, hrejected⟩
  · exact hstopped.after (.single hmove)

/-- A new node that is not found is pending from now on, whatever has been spent on the search. -/
theorem ends_defer {ok : Unit → State → Prop} {fail : TreeError → State → Prop} {status : Status}
    (hrest : AllRest st.tree) (hn : st.tree.get? id = some n) (hstatus : n.status = .created)
    (hpadded : Tree.Padded (st.tree.set id { n with status := status }) t)
    (hok : ∀ st', Done env st (· = id) st' → ok () st') :
    Ends (do
      onTree (·.setStatus id .pending)
      if n.parent.isNone then call (.request id .own (Query.new [n.chk.query])))
      { st with tree := t } ok fail := by
  have hpadded' : Tree.Padded (st.tree.set id { n with status := .pending })
      (t.setStatus id .pending) := hpadded.setStatus hn .pending
  let said : List SchedulerCall :=
    if n.parent.isNone then [.request id .own (Query.new [n.chk.query])] else []
  have hdefer : Move env none st
      (State.said { st with tree := st.tree.set id { n with status := .pending } } said) :=
    .defer hn hstatus
  have hpad : Move env none
      (State.said { st with tree := st.tree.set id { n with status := .pending } } said)
      (State.said { st with tree := t.setStatus id .pending } said) := .pad hpadded'
  have hown : Frame (· = id) st.tree (st.tree.set id { n with status := .pending }) :=
    frame_set hn (by simp) (by simp [hstatus])
  have hframe : Frame (· = id) st.tree (t.setStatus id .pending) :=
    (hown.trans (frame_padded hpadded')).congr fun k => by simp
  have hrest' : AllRest (t.setStatus id .pending) := by
    intro k b hb
    rw [hpadded'.get?, Tree.get?_set hn] at hb
    split at hb
    · obtain rfl := Option.some.inj hb
      refine ⟨fun heq => ?_, fun heq => ?_⟩ <;> cases heq
    · exact hrest hb
  have hdone := hok _ ⟨(Relation.ReflTransGen.single hdefer).tail hpad, hrest', hframe⟩
  rw [ends_bind, ends_onTree]
  cases hparent : n.parent with
  | none =>
    simp only [Option.isNone_none, if_true]
    rw [ends_call]
    simpa [State.said, said, hparent] using hdone
  | some p =>
    simp only [Option.isNone_some, Bool.false_eq_true, if_false]
    rw [ends_pure]
    simpa [State.said, said, hparent] using hdone

/-- A rebuilt node has the block that it would have been given. -/
theorem admitted_rebuilt {src : Source} (hshape : n.Shaped src.size) (hsize : src.size ≤ maxSize)
    (hinner : n.isInner) (status : Status) :
    { rebuiltNode env.suite src { n with status := status } with status := .present } =
      n.admitted (src.block env.suite n.depth n.position) := by
  obtain ⟨i, hi⟩ := Option.isSome_iff_exists.1 hinner
  have hkind := Node.inner?_eq_some.1 hi
  have hplace := hshape.place
  obtain ⟨level, hlevel⟩ : ∃ level, n.depth = level + 1 := by
    have hpos := hshape.isSome_inner?.1 hinner
    exact ⟨n.depth - 1, by omega⟩
  have hdepth : Node.depth { n with status := status } = level + 1 := hlevel
  have hcount : i.childCount = childCount src.size n.position (level + 1) := by
    rw [(hshape.inner i hi).2.1, ← Node.depth_of_inner hi, hlevel]
  rw [hlevel] at hplace
  have hdecode := Source.decode_block (s := env.suite) hsize hplace
  have hrebuilt : rebuiltNode env.suite src { n with status := status } =
      Node.setTable { n with
        data := some (src.block env.suite (level + 1) n.position), status := status }
        (src.table env.suite level n.position) := by
    unfold rebuiltNode
    rw [hdepth]
  rw [hrebuilt, hlevel]
  simp only [Node.admitted, hi, hcount, hdecode, Node.setTable, Node.modifyInner, hkind]

/-- A node that has been rebuilt arrives, whatever numbers the search has spent. -/
theorem ends_rebuilt {start : NodeId → Step Unit} (h : Good st.tree) (hrest : AllRest st.tree)
    (hn : st.tree.get? id = some n) (hstatus : n.status = .created) (hinner : n.isInner)
    (hstart : n.isInner → ∃ level, n.depth = level + 1 ∧ Starts env level start)
    (hleaves : ∀ start, Place n.fileSize 0 start → Covers n.depth n.position 0 start →
      env.storage.HasLeaf st.disk n.fileSize start)
    (hchk : (env.storage.source st.disk n.fileSize).chk env.suite n.depth n.position = n.chk)
    (hpadded : Tree.Padded (st.tree.set id (rebuiltNode env.suite
      (env.storage.source st.disk n.fileSize) { n with status := .notPresent })) t) :
    Ends (arrive env start id) { st with tree := t } (fun _ st' => Done env st (· = id) st')
      (Stopped env st) := by
  let src := env.storage.source st.disk n.fileSize
  let b := rebuiltNode env.suite src { n with status := .notPresent }
  have hshape := h.sound.shaped hn
  have hsize : n.fileSize ≤ maxSize := hshape.fileSize ▸ h.sound.fileSize_le
  have hshape' : n.Shaped src.size := by
    rw [← hshape.fileSize] at hshape
    exact hshape
  have hset : (st.tree.set id b).get? id = some b := by rw [Tree.get?_set hn, if_pos rfl]
  have hb : t.get? id = some b := (hpadded.get? id).trans hset
  -- It is as if the numbers had been spent before the search began.
  have hspent : Tree.Padded st.tree (t.set id n) := by
    have hlast := hpadded.set hset n
    rwa [Tree.set_set, Tree.set_of_get? hn] at hlast
  have hpad : Move env none st { st with tree := t.set id n } := .pad hspent
  have hn' : (t.set id n).get? id = some n := by rw [Tree.get?_set hb, if_pos rfl]
  have hknown : Evidence env none { st with tree := t.set id n } id n
      (src.block env.suite n.depth n.position) st.disk :=
    .rebuilt hstatus hinner hleaves hchk
  have hrest' : AllRest (t.set id n) := fun {k x} hx => hrest ((hspent.get? k).symm.trans hx)
  have hnow : { st with tree := t } = State.said
      { st with tree := (t.set id n).set id b, disk := st.disk, meter := metered st.meter n }
      (haste st.meter n) := by
    rw [Tree.set_set, Tree.set_of_get? hb, haste_of_created st.meter hstatus, said_nil, metered,
      if_pos hinner]
  refine (ends_arrive (h.move hpad) hrest' hn' hknown hstart
    (admitted_rebuilt hshape' hsize hinner .notPresent) hnow).mono (fun _ st' htaken => ?_)
    fun _ _ hhalted => hhalted.stopped.after (.single hpad)
  exact (Done.after (.single hpad) (frame_padded hspent) htaken.done).congr fun k => by simp

theorem starts_visit {level : Nat} {start : NodeId → Step Unit}
    (hstart : ∀ lower, level = lower + 1 → Starts env lower start) :
    Starts env level (visit env start) := by
  intro st id n h hrest hn hstatus hdepth
  have hbelow : n.isInner → ∃ lower, n.depth = lower + 1 ∧ Starts env lower start := by
    intro hinner
    have hpos := (h.sound.shaped hn).isSome_inner?.1 hinner
    exact ⟨n.depth - 1, by omega, hstart _ (by omega)⟩
  refine ends_visit h.sound hn (fun t hpadded _ _ => ?_) (fun t hinner hleaves hchk hpadded => ?_)
    fun data b hread hkey hb _ => ?_
  · exact ends_defer hrest hn hstatus hpadded fun _ hdone => hdone
  · exact ends_rebuilt h hrest hn hstatus hinner hbelow hleaves hchk hpadded
  · have hknown : Evidence env none st id n data st.disk := .stored hstatus hread hkey
    have hnow : { st with tree := st.tree.set id b, meter := metered st.meter n } = State.said
        { st with tree := st.tree.set id b, disk := st.disk, meter := metered st.meter n }
        (haste st.meter n) := by rw [haste_of_created st.meter hstatus, said_nil]
    exact (ends_arrive h hrest hn hknown hbelow hb hnow).mono (fun _ _ htaken => htaken.done)
      fun _ _ hhalted => hhalted.stopped

theorem starts_below (env : Env) (level : Nat) : Starts env level (below env (level + 1)) := by
  induction level with
  | zero =>
    refine starts_visit fun lower hlower => ?_
    omega
  | succ level ih =>
    refine starts_visit fun lower hlower => ?_
    obtain rfl : lower = level := by omega
    exact ih

/-! ### The operations of a download -/

/-- Between two operations no child is to be started and no node is starting its children. -/
structure Idle (t : Tree) : Prop where
  good : Good t
  rest : AllRest t
  created : ∀ {k : Nat} {n}, t.get? k = some n → n.status ≠ .created
  persistent : ∀ {k : Nat} {n}, t.get? k = some n → n.status ≠ .persistent

theorem Idle.of_frame {started : Nat → Prop} {t' : Tree} (h : Idle t) (hgood : Good t')
    (hrest : AllRest t') (hframe : Frame started t t') : Idle t' where
  good := hgood
  rest := hrest
  created hn hs := h.created (hframe.created.1 ⟨hn, hs⟩).1.1 hs
  persistent hn hs := by
    obtain ⟨m, hm, hms⟩ := hframe.persistent.1 ⟨_, hn, hs⟩
    exact h.persistent hm hms

/-- Nothing has been started yet but the root, which is new. -/
structure Unstarted (t : Tree) : Prop where
  good : Good t
  rest : AllRest t
  root : ∃ n, t.get? 0 = some n ∧ n.status = .created
  created : ∀ {k : Nat} {n}, t.get? k = some n → n.status = .created → k = 0
  persistent : ∀ {k : Nat} {n}, t.get? k = some n → n.status ≠ .persistent

/-- The only node of a tree in which nothing has been started. -/
def firstNode (f : FileIdentifier) : Node :=
  { Node.new f.length.toNat 0 (treeDepth f.length.toNat) none with chk := f.chk }

theorem get?_new_zero (f : FileIdentifier) : (Tree.new f.length.toNat).get? 0 =
    some (Node.new f.length.toNat 0 (treeDepth f.length.toNat) none) := rfl

theorem forDownload_eq (f : FileIdentifier) :
    Tree.forDownload f = (Tree.new f.length.toNat).set 0 (firstNode f) :=
  Tree.modify_eq_set (get?_new_zero f) _

theorem get?_forDownload (f : FileIdentifier) (k : Nat) :
    (Tree.forDownload f).get? k = if k = 0 then some (firstNode f) else none := by
  rw [forDownload_eq, Tree.get?_set (get?_new_zero f)]
  cases k <;> rfl

theorem eq_firstNode {f : FileIdentifier} {k : Nat} (hn : (Tree.forDownload f).get? k = some n) :
    k = 0 ∧ n = firstNode f := by
  rw [get?_forDownload, Option.ite_none_right_eq_some] at hn
  exact ⟨hn.1, (Option.some.inj hn.2).symm⟩

theorem like_firstNode (f : FileIdentifier) :
    (Node.new f.length.toNat 0 (treeDepth f.length.toNat) none).Like (firstNode f) :=
  .of_kind rfl rfl rfl rfl rfl

theorem inner?_firstNode (f : FileIdentifier) : (firstNode f).inner? =
    (Node.new f.length.toNat 0 (treeDepth f.length.toNat) none).inner? := rfl

@[simp]
theorem status_firstNode (f : FileIdentifier) : (firstNode f).status = .created :=
  Node.status_new ..

@[simp]
theorem parent_firstNode (f : FileIdentifier) : (firstNode f).parent = none := Node.parent_new ..

theorem sound_forDownload (f : FileIdentifier) : (Tree.forDownload f).Sound := by
  have hsize : f.length.toNat ≤ maxSize := by
    have hlt := f.length.toNat_lt
    have hmax : maxSize = 2 ^ 64 - 1 := rfl
    omega
  rw [forDownload_eq]
  exact (Tree.sound_new hsize).of_like (Tree.like_set (get?_new_zero f) (like_firstNode f))

theorem staged_forDownload (f : FileIdentifier) : Staged (Tree.forDownload f) where
  fits hn := by
    obtain ⟨-, rfl⟩ := eq_firstNode hn
    have hslots : (firstNode f).slots? = none := by
      rw [(like_firstNode f).slots?, Node.slots?_new]
    exact ⟨Or.inl (status_firstNode f), fun _ => hslots, by simp,
      fun hne => absurd (status_firstNode f) hne⟩
  created hn _ hp := by
    obtain ⟨-, rfl⟩ := eq_firstNode hn
    rw [parent_firstNode] at hp
    cases hp
  pending hn _ hp := by
    obtain ⟨-, rfl⟩ := eq_firstNode hn
    rw [parent_firstNode] at hp
    cases hp
  asked hn hs := by
    obtain ⟨-, rfl⟩ := eq_firstNode hn
    rw [status_firstNode] at hs
    cases hs

theorem unstarted_forDownload (f : FileIdentifier) : Unstarted (Tree.forDownload f) where
  good := ⟨sound_forDownload f, staged_forDownload f⟩
  rest hn := by
    obtain ⟨-, rfl⟩ := eq_firstNode hn
    exact ⟨by simp, by simp⟩
  root := ⟨firstNode f, get?_forDownload f 0, status_firstNode f⟩
  created hn _ := (eq_firstNode hn).1
  persistent hn := by
    obtain ⟨-, rfl⟩ := eq_firstNode hn
    simp

/-- A download starts with moves, unless a checksum stops it. -/
theorem ends_start (h : Unstarted st.tree) :
    Ends (start env 0) st (fun _ st' => Moves env st st' ∧ Idle st'.tree)
      (Stopped env st) := by
  obtain ⟨n, hn, hstatus⟩ := h.root
  have hstarts : Starts env n.depth (visit env (below env n.depth)) :=
    starts_visit fun lower hlower => by
      rw [hlower]
      exact starts_below env lower
  unfold start
  rw [ends_bind]
  refine ends_node hn ?_
  refine (hstarts st 0 n h.good h.rest hn hstatus rfl).mono (fun _ st' hdone => ?_) fun _ _ h => h
  obtain ⟨hmoves, hrest, hframe⟩ := hdone
  refine ⟨hmoves, h.good.moves hmoves, hrest, fun hm hs => ?_, fun hm hs => ?_⟩
  · obtain ⟨⟨hbefore, -⟩, hne⟩ := hframe.created.1 ⟨hm, hs⟩
    exact hne (h.created hbefore hs)
  · obtain ⟨b, hb, hbs⟩ := hframe.persistent.1 ⟨_, hm, hs⟩
    exact h.persistent hb hbs

/-- A reply for a node is ignored unless the node is pending. It is turned away with nothing
changed, or taken, and after it has been taken only a checksum can stop what follows. -/
theorem ends_receiveOwn {reply : Block} (h : Idle st.tree) :
    Ends (receiveOwn env id reply) st
      (fun _ st' => st' = st ∧ (∀ n, st.tree.get? id = some n → n.status ≠ .pending) ∨
        ∃ n, st.tree.get? id = some n ∧ n.status = .pending ∧
          Taken env (some (id, reply)) st id st' ∧ Idle st'.tree)
      (fun e st' => ∃ n, st.tree.get? id = some n ∧ n.status = .pending ∧
        (st' = st ∧ Refused env reply st id n e ∨ Halted env (some (id, reply)) st e st')) := by
  refine ends_receiveOwn_of (fun hignored => .inl ⟨rfl, hignored⟩)
    (fun n e hn hstatus hrefused => ⟨n, hn, hstatus, .inl ⟨rfl, hrefused⟩⟩)
    fun n b disk hn hstatus hknown hb => ?_
  have hbelow : n.isInner → ∃ level, n.depth = level + 1 ∧
      Starts env level (below env n.depth) := by
    intro hinner
    have hpos := (h.good.sound.shaped hn).isSome_inner?.1 hinner
    obtain ⟨level, hlevel⟩ : ∃ level, n.depth = level + 1 := ⟨n.depth - 1, by omega⟩
    exact ⟨level, hlevel, hlevel ▸ starts_below env level⟩
  refine (ends_arrive h.good h.rest hn hknown hbelow hb rfl).mono (fun _ st' htaken => ?_)
    fun e st' hhalted => ⟨n, hn, hstatus, .inr hhalted⟩
  have htaken' := htaken
  obtain ⟨mid, -, -, -, -, hmove, -, hmoves, hrest, hframe⟩ := htaken'
  exact .inr ⟨n, hn, hstatus, htaken,
    h.of_frame ((h.good.move hmove).moves hmoves) hrest hframe⟩

def addressee? (t : Tree) (id : NodeId) (handler : ReplyHandler) (query : Digest) : Option NodeId :=
  match handler with
  | .own => some id
  | .children => pendingChild? t id query

theorem ends_receive {handler : ReplyHandler} {query : Digest} {reply : Block} (h : Idle st.tree) :
    Ends (receive env id handler query reply) st
      (fun _ st' => st' = st ∧ (∀ k n, addressee? st.tree id handler query = some k →
          st.tree.get? k = some n → n.status ≠ .pending) ∨
        ∃ k n, addressee? st.tree id handler query = some k ∧ st.tree.get? k = some n ∧
          n.status = .pending ∧ Taken env (some (k, reply)) st k st' ∧ Idle st'.tree)
      (fun e st' => ∃ k n, addressee? st.tree id handler query = some k ∧
        st.tree.get? k = some n ∧ n.status = .pending ∧
        (st' = st ∧ Refused env reply st k n e ∨ Halted env (some (k, reply)) st e st')) := by
  have hown : ∀ {k : Nat}, addressee? st.tree id handler query = some k →
      Ends (receiveOwn env k reply) st
        (fun _ st' => st' = st ∧ (∀ k n, addressee? st.tree id handler query = some k →
            st.tree.get? k = some n → n.status ≠ .pending) ∨
          ∃ k n, addressee? st.tree id handler query = some k ∧ st.tree.get? k = some n ∧
            n.status = .pending ∧ Taken env (some (k, reply)) st k st' ∧ Idle st'.tree)
        (fun e st' => ∃ k n, addressee? st.tree id handler query = some k ∧
          st.tree.get? k = some n ∧ n.status = .pending ∧
          (st' = st ∧ Refused env reply st k n e ∨ Halted env (some (k, reply)) st e st')) := by
    intro k hk
    refine (ends_receiveOwn h).mono ?_ ?_
    · rintro _ st' (⟨hsame, hignored⟩ | ⟨n, hn, hstatus, htaken, hidle⟩)
      · refine .inl ⟨hsame, fun k' n hk' hn => ?_⟩
        obtain rfl := Option.some.inj (hk.symm.trans hk')
        exact hignored n hn
      · exact .inr ⟨k, n, hk, hn, hstatus, htaken, hidle⟩
    · rintro e st' ⟨n, hn, hstatus, hcase⟩
      exact ⟨k, n, hk, hn, hstatus, hcase⟩
  unfold receive
  cases handler with
  | own => exact hown rfl
  | children =>
    simp only
    rw [ends_bind, ends_get]
    cases hchild : pendingChild? st.tree id query with
    | none =>
      refine .inl ⟨rfl, fun k n hk _ => ?_⟩
      rw [addressee?, hchild] at hk
      cases hk
    | some child => exact hown hchild

end Download

end ContentTree

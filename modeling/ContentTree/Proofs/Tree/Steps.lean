import ContentTree.Proofs.Tree.Recompute

/-!
# The steps of a download

What happens before a node arrives with its block is said once: the block is looked for on disk, or a
reply is compared and written. What the changes of single nodes and the calls keep, every operation
that is built from them keeps.
-/

namespace ContentTree

namespace Download

variable {env : Env} {st : State} {id : Nat} {n : Node} {data : Block}

/-! ### A node that holds its block -/

theorem admitted_of_leaf (hi : n.inner? = none) (data : Block) :
    { n with data := some data, status := .present } = n.admitted data := by
  simp [Node.admitted, hi]

theorem admitted_of_inner {i : Inner} (hi : n.inner? = some i) (data : Block) :
    { Node.setTable { n with data := some data } (InnerBlock.decode data i.childCount) with
      status := .present } = n.admitted data := by
  have hkind := Node.inner?_eq_some.1 hi
  simp [Node.admitted, hi, Node.setTable, Node.modifyInner, hkind]

theorem like_of_admitted {b : Node} (hb : { b with status := .present } = n.admitted data) :
    n.Like b := by
  have hlike := like_admitted data n
  rw [← hb] at hlike
  exact hlike.trans (.of_kind rfl rfl rfl rfl rfl)

theorem metered_of_leaf (m : Meter) (hi : n.inner? = none) : metered m n = m.add n.length := by
  simp [metered, Node.isInner, hi]

theorem metered_of_inner (m : Meter) {i : Inner} (hi : n.inner? = some i) : metered m n = m := by
  simp [metered, Node.isInner, hi]

theorem haste_of_created (m : Meter) (h : n.status = .created) : haste m n = [] := by
  simp [haste, h]

theorem haste_of_inner (m : Meter) {i : Inner} (hi : n.inner? = some i) : haste m n = [] := by
  simp [haste, hi]

theorem haste_of_leaf (m : Meter) (hstatus : n.status = .pending) (hi : n.inner? = none) :
    haste m n = if crossesThreshold m.stats.progress (m.stats.progress + n.length)
      m.stats.fileSize then [.endgame] else [] := by
  simp [haste, hstatus, hi]

theorem said_nil (st : State) : st.said [] = st := by simp [State.said]

/-! ### Before a node arrives -/

section Ends

variable {ok : Unit → State → Prop} {fail : TreeError → State → Prop}

theorem ends_isPresent {ok : Bool → State → Prop} (hn : st.tree.get? id = some n)
    (hlost : (∀ data, env.storage.readBlock st.disk n.depth n.position n.length = .ok data →
        env.suite.hash (data.toList.take n.length) ≠ n.chk.key) →
      ok false { st with tree := st.tree.set id { n with status := .notPresent } })
    (hfound : ∀ data b, env.storage.readBlock st.disk n.depth n.position n.length = .ok data →
      env.suite.hash (data.toList.take n.length) = n.chk.key →
      { b with status := .present } = n.admitted data → b.status = .present ∨ b.status = n.status →
      ok true { st with tree := st.tree.set id b, meter := metered st.meter n }) :
    Ends (isPresent env id) st ok fail := by
  unfold isPresent
  rw [ends_bind, ends_find?, hn]
  simp only
  rw [ends_bind, ends_get]
  have hnot : (∀ data, env.storage.readBlock st.disk n.depth n.position n.length = .ok data →
      env.suite.hash (data.toList.take n.length) ≠ n.chk.key) → Ends (do
      onTree (·.setStatus id .notPresent)
      return false : Step Bool) st ok fail := by
    intro hnone
    rw [ends_bind, ends_onTree, Tree.setStatus_eq_set hn, ends_pure]
    exact hlost hnone
  cases hread : env.storage.readBlock st.disk n.depth n.position n.length with
  | error e => exact hnot (by simp [hread])
  | ok data =>
    simp only
    split
    · rename_i hkey
      refine hnot fun other hother => ?_
      obtain rfl := Except.ok.inj (hread.symm.trans hother)
      exact hkey
    · rename_i hkey
      have hkey := not_not.1 hkey
      cases hi : n.inner? with
      | none =>
        have hlast := hfound data { n with data := some data, status := .present } hread hkey
          (admitted_of_leaf hi data) (.inl rfl)
        rw [metered_of_leaf st.meter hi] at hlast
        simp only
        rw [ends_bind, ends_modify, ends_pure]
        exact hlast
      | some i =>
        have hkind := Node.inner?_eq_some.1 hi
        have hlast := hfound data _ hread hkey (admitted_of_inner hi data)
          (.inr (by simp [Node.setTable, Node.modifyInner, hkind]))
        rw [metered_of_inner st.meter hi] at hlast
        simp only
        rw [ends_bind, ends_onTree, ends_pure]
        exact hlast

/-- A node arrives if its block is stored or can be rebuilt, and is deferred if not. Numbers may have
been spent on the search. -/
theorem ends_visit {start : NodeId → Step Unit} (hsound : st.tree.Sound)
    (hn : st.tree.get? id = some n)
    (hdeferred : ∀ t, Tree.Padded (st.tree.set id { n with status := .notPresent }) t →
      (∀ data, env.storage.readBlock st.disk n.depth n.position n.length = .ok data →
        env.suite.hash (data.toList.take n.length) ≠ n.chk.key) →
      (n.isInner → ¬ ((∀ start, Place n.fileSize 0 start → Covers n.depth n.position 0 start →
          env.storage.HasLeaf st.disk n.fileSize start) ∧
        (env.storage.source st.disk n.fileSize).chk env.suite n.depth n.position = n.chk)) →
      Ends (do
        onTree (·.setStatus id .pending)
        if n.parent.isNone then call (.request id .own (Query.new [n.chk.query])))
        { st with tree := t } ok fail)
    (hrebuilt : ∀ t, n.isInner → (∀ start, Place n.fileSize 0 start →
        Covers n.depth n.position 0 start → env.storage.HasLeaf st.disk n.fileSize start) →
      (env.storage.source st.disk n.fileSize).chk env.suite n.depth n.position = n.chk →
      Tree.Padded (st.tree.set id (rebuiltNode env.suite (env.storage.source st.disk n.fileSize)
        { n with status := .notPresent })) t →
      Ends (arrive env start id) { st with tree := t } ok fail)
    (hstored : ∀ data b, env.storage.readBlock st.disk n.depth n.position n.length = .ok data →
      env.suite.hash (data.toList.take n.length) = n.chk.key →
      { b with status := .present } = n.admitted data → b.status = .present ∨ b.status = n.status →
      Ends (arrive env start id)
        { st with tree := st.tree.set id b, meter := metered st.meter n } ok fail) :
    Ends (visit env start id) st ok fail := by
  unfold visit
  rw [ends_bind]
  refine ends_node hn ?_
  rw [ends_bind]
  refine ends_isPresent hn (fun hlost => ?_) fun data b hread hkey hb hstatus => ?_
  · simp only [Bool.false_eq_true, if_false]
    have hlike := like_status n .notPresent
    have hset : (st.tree.set id { n with status := .notPresent }).get? id =
        some { n with status := .notPresent } := by rw [Tree.get?_set hn, if_pos rfl]
    by_cases hinner : n.isInner
    · simp only [hinner, if_true]
      rw [ends_bind]
      refine ends_recompute (hsound.of_like (Tree.like_set hn hlike)) hset hinner ?_ ?_
      · intro t hpadded hnot
        simp only [Bool.false_eq_true, if_false]
        exact hdeferred t hpadded hlost fun _ => hnot
      · intro t hleaves hchk hpadded
        simp only [if_true]
        rw [Tree.set_set] at hpadded
        exact hrebuilt t hinner hleaves hchk hpadded
    · simp only [hinner, Bool.false_eq_true, if_false]
      rw [ends_bind, ends_pure]
      simp only [Bool.false_eq_true, if_false]
      exact hdeferred _ (Tree.Padded.refl _) hlost fun h => absurd h hinner
  · simp only [if_true]
    rw [ends_bind, ends_pure]
    simp only [if_true]
    exact hstored data b hread hkey hb hstatus

/-- Why a reply is turned away before anything has changed. -/
inductive Refused (env : Env) (reply : Block) (st : State) (id : Nat) (n : Node) : TreeError → Prop
  | content (hkey : env.suite.hash ((env.suite.decrypt n.chk.key reply).toList.take n.length) ≠
      n.chk.key) : Refused env reply st id n (.corrupted n.depth n.position .content)
  | storage {e : StorageError} (hwrite : env.storage.write st.disk n.depth n.position
      ((env.suite.decrypt n.chk.key reply).toList.take n.length) = .error e) :
      Refused env reply st id n (.storage e)

/-- A reply for a node is ignored unless the node is pending. It is turned away with nothing changed,
or written to the place of the node, which then arrives with its block. -/
theorem ends_receiveOwn_of {reply : Block}
    (hignored : (∀ n, st.tree.get? id = some n → n.status ≠ .pending) → ok () st)
    (hrefused : ∀ n e, st.tree.get? id = some n → n.status = .pending →
      Refused env reply st id n e → fail e st)
    (harrives : ∀ n b disk, st.tree.get? id = some n → n.status = .pending →
      Evidence env (some (id, reply)) st id n (env.suite.decrypt n.chk.key reply) disk →
      { b with status := .present } = n.admitted (env.suite.decrypt n.chk.key reply) →
      Ends (arrive env (below env n.depth) id) (State.said
        { st with tree := st.tree.set id b, disk := disk, meter := metered st.meter n }
        (haste st.meter n)) ok fail) :
    Ends (receiveOwn env id reply) st ok fail := by
  unfold receiveOwn
  rw [ends_bind, ends_find?]
  cases hn : st.tree.get? id with
  | none => exact hignored (by simp [hn])
  | some n =>
    simp only
    split
    · rename_i hstatus
      refine hignored fun m hm => ?_
      obtain rfl := Option.some.inj (hn.symm.trans hm)
      exact hstatus
    · rename_i hstatus
      have hstatus := not_not.1 hstatus
      split
      · rename_i hkey
        exact hrefused n _ hn hstatus (.content hkey)
      · rename_i hkey
        rw [ends_bind, ends_get]
        cases hwrite : env.storage.write st.disk n.depth n.position
            ((env.suite.decrypt n.chk.key reply).toList.take n.length) with
        | error e => exact hrefused n _ hn hstatus (.storage hwrite)
        | ok disk =>
          have hlast := fun b => harrives n b disk hn hstatus
            (.reply rfl hstatus (not_not.1 hkey) hwrite)
          simp only
          rw [ends_bind, ends_modify]
          cases hi : n.inner? with
          | some i =>
            simp only
            rw [ends_bind, ends_onTree]
            have hnow := hlast _ (admitted_of_inner hi _)
            rwa [haste_of_inner st.meter hi, metered_of_inner st.meter hi, said_nil] at hnow
          | none =>
            have hprogress : (st.meter.add n.length).stats.progress =
                st.meter.stats.progress + n.length := rfl
            have hfile : (st.meter.add n.length).stats.fileSize = st.meter.stats.fileSize := rfl
            have hnow := hlast { n with data := some (env.suite.decrypt n.chk.key reply) }
              (admitted_of_leaf hi _)
            rw [haste_of_leaf st.meter hstatus hi, metered_of_leaf st.meter hi] at hnow
            simp only
            rw [ends_bind, ends_get, ends_bind, ends_modify, ends_bind, ends_get]
            simp only [hprogress, hfile]
            split
            · rename_i hcrosses
              rw [if_pos hcrosses] at hnow
              rw [ends_bind, ends_call]
              simpa [State.said] using hnow
            · rename_i hcrosses
              rwa [if_neg hcrosses, said_nil] at hnow

end Ends

/-! ### What every step keeps -/

section Lookup

variable {R : State → State → Prop} [IsPreorder State R]

theorem carries_find? (id : NodeId) : Carries R (find? id) := fun st => refl_of R st

theorem carries_node (id : NodeId) : Carries R (node id) := by
  refine (carries_find? id).bind fun found => ?_
  cases found with
  | none => exact carries_throw _
  | some n => exact carries_pure n

theorem carries_state : Carries R (get : Step State) := fun st => refl_of R st

end Lookup

/-- The steps of which the operations consist keep `R`, except for those that search the disk, take a
reply or leave a node pending. -/
structure Persists (env : Env) (R : State → State → Prop) : Prop where
  setStatus : ∀ id status, status ≠ .pending → Carries R (onTree (·.setStatus id status))
  call : ∀ c, c ≠ .endgame → Carries R (call c)
  free : ∀ id, Carries R (free id)
  allocate : ∀ id, Carries R (modifyGet fun st : State => ((st.tree.allocateChildren id).1.getD [],
    { st with tree := (st.tree.allocateChildren id).2 }) : Step (List NodeId))
  record : ∀ parent child, Carries R (recordChild env parent child)

namespace Persists

variable {R : State → State → Prop}

theorem weaken {R' : State → State → Prop} (h : Persists env R)
    (hR : ∀ {st st'}, R st st' → R' st st') : Persists env R' where
  setStatus id status hne st := (h.setStatus id status hne st).mono (fun _ _ => hR) fun _ _ => hR
  call c hne st := (h.call c hne st).mono (fun _ _ => hR) fun _ _ => hR
  free id st := (h.free id st).mono (fun _ _ => hR) fun _ _ => hR
  allocate id st := (h.allocate id st).mono (fun _ _ => hR) fun _ _ => hR
  record parent child st := (h.record parent child st).mono (fun _ _ => hR) fun _ _ => hR

variable [IsPreorder State R] (h : Persists env R)

include h

theorem refresh (id : NodeId) : Carries R (refresh id) := by
  refine (carries_find? id).bind fun found => ?_
  cases found with
  | none => exact carries_pure _
  | some n =>
    simp only
    split
    · exact carries_pure _
    · split
      · exact carries_pure _
      · refine carries_state.bind fun st => ?_
        split
        · refine (h.setStatus id _ (by decide)).bind fun _ => ?_
          split
          · exact h.call _ (by simp)
          · exact carries_pure _
        · split
          · exact h.call _ (by simp)
          · exact (h.setStatus id _ (by decide)).bind fun _ => h.call _ (by simp)

theorem last (id : NodeId) : Carries R (do onTree (·.setStatus id .done); Download.free id) :=
  (h.setStatus id _ (by decide)).bind fun _ => h.free id

theorem finish (id : NodeId) : Carries R (finish id) := by
  refine (carries_find? id).bind fun found => ?_
  cases found with
  | none => exact carries_pure _
  | some n =>
    simp only
    split
    · exact carries_pure _
    · split
      · exact h.last id
      · exact carries_pure _

omit h in
theorem checkTop (id : NodeId) : Carries R (checkTop env id) := by
  refine carries_state.bind fun st => ?_
  split
  · exact carries_pure _
  · split
    · refine (carries_node id).bind fun n => ?_
      split
      · exact carries_throw _
      · exact carries_pure _
    · exact carries_pure _

theorem expand {start : NodeId → Step Unit} (hstart : ∀ id, Carries R (start id)) (id : NodeId) :
    Carries R (expand start id) := by
  refine (carries_node id).bind fun _ => (h.setStatus id _ (by decide)).bind fun _ => ?_
  refine (h.allocate id).bind fun ids => (carries_forM (fun child => ?_) ids).bind fun _ => ?_
  · refine (carries_find? child).bind fun found => ?_
    split
    · exact hstart child
    · exact carries_pure _
  · exact (carries_node id).bind fun _ => (h.setStatus id _ (by decide)).bind fun _ =>
      (h.refresh id).bind fun _ => h.finish id

/-- A node that is present tells its parent, or the scheduler if it has none. -/
theorem told {last : Step Unit} (hlast : Carries R last) (parent : Option NodeId) (id : NodeId) :
    Carries R (do
      match parent with
      | some parent =>
        recordChild env parent id
        Download.refresh parent
      | none => Download.call (.update id none)
      last) := by
  cases parent with
  | none => exact (h.call _ (by simp)).bind fun _ => hlast
  | some parent =>
    exact (h.record parent id).bind fun _ => (h.refresh parent).bind fun _ => hlast

theorem arrive {start : NodeId → Step Unit} (hstart : ∀ id, Carries R (start id)) (id : NodeId) :
    Carries R (arrive env start id) := by
  refine (checkTop id).bind fun _ => (carries_node id).bind fun n => ?_
  refine (h.setStatus id _ (by decide)).bind fun _ => h.told ?_ n.parent id
  split
  · exact h.expand hstart id
  · exact h.last id

end Persists

end Download

end ContentTree

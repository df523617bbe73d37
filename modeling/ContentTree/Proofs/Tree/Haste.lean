import ContentTree.Proofs.Tree.Operations

/-!
# When a download calls for haste

Of all operations on a tree only the one that takes a reply for a leaf calls the endgame, and it
does so once, just when the leaf takes progress past a threshold. This holds in any state of a
download and also when the operation fails later on.
-/

namespace ContentTree

namespace Download

variable {α : Type} {env : Env} {st st' : State} {id : NodeId} {n : Node}

/-- What the scheduler is told meanwhile has no endgame in it. -/
def Unhurried (st st' : State) : Prop :=
  ∃ said : List SchedulerCall, st'.calls = st.calls ++ said.toArray ∧ .endgame ∉ said

/-- No progress is made, and no endgame called. -/
structure Silent (st st' : State) : Prop where
  meter : st'.meter = st.meter
  unhurried : Unhurried st st'

/-- Bytes may have been counted, one report each time. -/
structure Counts (st st' : State) : Prop where
  progress_le : st.meter.stats.progress ≤ st'.meter.stats.progress
  fileSize : st'.meter.stats.fileSize = st.meter.stats.fileSize
  reports : ∀ r ∈ st'.meter.reports, r ∈ st.meter.reports ∨ r ≤ st'.meter.stats.progress

/-- No endgame is called, whatever is counted. -/
structure Quiet (st st' : State) : Prop where
  counts : Counts st st'
  unhurried : Unhurried st st'

theorem Unhurried.refl (st : State) : Unhurried st st := ⟨[], by simp, by simp⟩

theorem Unhurried.trans {st'' : State} (h : Unhurried st st') (h' : Unhurried st' st'') :
    Unhurried st st'' := by
  obtain ⟨said, hcalls, hnot⟩ := h
  obtain ⟨said', hcalls', hnot'⟩ := h'
  exact ⟨said ++ said', by simp [hcalls', hcalls], by simp [hnot, hnot']⟩

theorem Counts.refl (st : State) : Counts st st := ⟨Nat.le_refl _, rfl, fun _ => .inl⟩

theorem Counts.trans {st'' : State} (h : Counts st st') (h' : Counts st' st'') :
    Counts st st'' where
  progress_le := h.progress_le.trans h'.progress_le
  fileSize := h'.fileSize.trans h.fileSize
  reports r hr := by
    rcases h'.reports r hr with hr' | hle
    · exact (h.reports r hr').imp_right fun hle => hle.trans h'.progress_le
    · exact .inr hle

theorem counts_of_meter_eq (h : st'.meter = st.meter) : Counts st st' := by
  refine ⟨?_, ?_, fun r hr => .inl ?_⟩
  · rw [h]
  · rw [h]
  · rwa [h] at hr

theorem counts_add (bytes : Nat) (h : st'.meter = st.meter.add bytes) : Counts st st' := by
  refine ⟨?_, ?_, fun r hr => ?_⟩
  · rw [h]
    exact Nat.le_add_right _ _
  · rw [h]
    rfl
  · rw [h] at hr ⊢
    rcases Array.mem_push.1 hr with hr | hr
    · exact .inl hr
    · exact .inr (Nat.le_of_eq hr)

instance : IsPreorder State Silent where
  refl st := ⟨rfl, .refl st⟩
  trans _ _ _ h h' := ⟨h'.meter.trans h.meter, h.unhurried.trans h'.unhurried⟩

instance : IsPreorder State Quiet where
  refl st := ⟨.refl st, .refl st⟩
  trans _ _ _ h h' := ⟨h.counts.trans h'.counts, h.unhurried.trans h'.unhurried⟩

theorem Silent.quiet (h : Silent st st') : Quiet st st' := ⟨counts_of_meter_eq h.meter, h.unhurried⟩

theorem silent_of_calls_eq (hmeter : st'.meter = st.meter) (hcalls : st'.calls = st.calls) :
    Silent st st' := ⟨hmeter, [], by simp [hcalls], by simp⟩

theorem quiet_of_silent {x : Step α} (h : Carries Silent x) : Carries Quiet x :=
  fun st => (h st).mono (fun _ _ h => h.quiet) fun _ _ h => h.quiet

/-! ### Without progress -/

theorem silent_onTree (f : Tree → Tree) : Carries Silent (onTree f) :=
  carries_modify fun _ => silent_of_calls_eq rfl rfl

theorem silent_call {c : SchedulerCall} (h : c ≠ .endgame) : Carries Silent (call c) := by
  refine carries_modify fun st => ⟨rfl, [c], ?_, ?_⟩
  · rw [Array.push_eq_append]
  · simpa using h.symm

theorem silent_free (id : NodeId) : Carries Silent (free id) := by
  refine carries_modify fun st => ⟨rfl, (st.tree.free id).1.map .release, rfl, ?_⟩
  simp

theorem silent_recordChild (parent child : NodeId) :
    Carries Silent (recordChild env parent child) := by
  refine (carries_node child).bind fun c => (carries_node parent).bind fun p => ?_
  split
  · refine (silent_onTree _).bind fun _ => ?_
    split
    · split
      · exact (carries_throw _).bind fun _ => silent_onTree _
      · exact silent_onTree _
    · exact carries_pure _
  · exact carries_pure _

theorem silent_recompute (id : NodeId) : Carries Silent (recompute env id) := by
  refine (carries_node id).bind fun n => carries_get fun st => ?_
  exact silent_of_calls_eq rfl rfl

theorem persists_silent (env : Env) : Persists env Silent where
  setStatus _ _ _ := silent_onTree _
  call _ hne := silent_call hne
  free id := silent_free id
  allocate _ := carries_modifyGet fun _ => silent_of_calls_eq rfl rfl
  record parent child := silent_recordChild parent child

/-! ### Without replies -/

theorem persists_quiet (env : Env) : Persists env Quiet := (persists_silent env).weaken Silent.quiet

theorem quiet_isPresent (id : NodeId) : Carries Quiet (isPresent env id) := by
  refine (carries_find? id).bind fun found => ?_
  cases found with
  | none => exact carries_pure _
  | some n =>
    have hlost : Carries Quiet (do onTree (·.setStatus id .notPresent); return false : Step Bool) :=
      quiet_of_silent ((silent_onTree _).bind fun _ => carries_pure _)
    refine carries_state.bind fun st => ?_
    split
    · exact hlost
    · split
      · exact hlost
      · cases n.inner? with
        | none =>
          refine Carries.bind (carries_modify fun st => ⟨?_, ?_⟩) fun _ => carries_pure _
          · exact counts_add n.length rfl
          · exact ⟨[], by simp, by simp⟩
        | some inner => exact quiet_of_silent ((silent_onTree _).bind fun _ => carries_pure _)

theorem quiet_visit {start : NodeId → Step Unit} (hstart : ∀ id, Carries Quiet (start id))
    (id : NodeId) : Carries Quiet (visit env start id) := by
  refine (carries_node id).bind fun n => (quiet_isPresent id).bind fun stored => ?_
  have hlast : ∀ present : Bool, Carries Quiet (if present then arrive env start id
      else do
        onTree (·.setStatus id .pending)
        if n.parent.isNone then call (.request id .own (Query.new [n.chk.query]))) := by
    intro present
    split
    · exact (persists_quiet env).arrive hstart id
    · refine quiet_of_silent ((silent_onTree _).bind fun _ => ?_)
      split
      · exact silent_call (by simp)
      · exact carries_pure _
  cases stored with
  | true => exact hlast true
  | false =>
    cases hinner : n.isInner with
    | true => exact (quiet_of_silent (silent_recompute id)).bind hlast
    | false => exact hlast false

theorem quiet_below (levels : Nat) (id : NodeId) : Carries Quiet (below env levels id) := by
  induction levels generalizing id with
  | zero => exact carries_pure _
  | succ levels ih => exact quiet_visit ih id

theorem quiet_start (id : NodeId) : Carries Quiet (start env id) :=
  (carries_node id).bind fun n => quiet_visit (quiet_below n.depth) id

/-! ### With a reply -/

/-- The call ran from `st` to `st'`, and called the endgame just if it is for a leaf and takes
progress past a threshold. -/
structure Hastens (leaf : Prop) (st st' : State) : Prop where
  counts : Counts st st'
  said : ∃ said : List SchedulerCall, st'.calls = st.calls ++ said.toArray ∧
    said.count .endgame ≤ 1 ∧ (.endgame ∈ said ↔ leaf ∧ crossesThreshold
      st.meter.stats.progress st'.meter.stats.progress st.meter.stats.fileSize)

theorem Unhurried.hastens {leaf : Prop} (hcounts : Counts st st') (h : Unhurried st st')
    (hnot : ¬ (leaf ∧ crossesThreshold
      st.meter.stats.progress st'.meter.stats.progress st.meter.stats.fileSize)) :
    Hastens leaf st st' := by
  obtain ⟨said, hcalls, hmem⟩ := h
  refine ⟨hcounts, said, hcalls, ?_, iff_of_false hmem hnot⟩
  rw [List.count_eq_zero_of_not_mem hmem]
  exact Nat.zero_le 1

theorem Quiet.hastens {leaf : Prop} (h : Quiet st st') (hleaf : ¬ leaf) : Hastens leaf st st' :=
  h.unhurried.hastens h.counts fun hboth => hleaf hboth.1

/-- No threshold is passed without progress. -/
theorem crossesThreshold_self (progress size : Nat) :
    crossesThreshold progress progress size = false := by
  simp only [crossesThreshold, List.any_eq_false, decide_eq_true_eq]
  omega

theorem Silent.hastens (leaf : Prop) (h : Silent st st') : Hastens leaf st st' := by
  refine h.unhurried.hastens h.quiet.counts fun hboth => ?_
  rw [h.meter, crossesThreshold_self] at hboth
  exact Bool.noConfusion hboth.2

/-- What follows on a leaf counts nothing any more. -/
theorem ends_arrive_leaf {start : NodeId → Step Unit} (hn : st.tree.get? id = some n)
    (hleaf : n.inner? = none) :
    Ends (arrive env start id) st (fun _ => Silent st) (fun _ => Silent st) := by
  have hkind : n.isInner = false := by simp [Node.isInner, hleaf]
  unfold arrive
  rw [ends_bind]
  refine ends_checkTop hn (fun _ => ?_) fun _ _ _ _ => refl_of Silent st
  rw [ends_bind]
  refine ends_node hn ?_
  refine Carries.bind (silent_onTree _) (fun _ => ?_) st
  simp only [hkind, Bool.false_eq_true, if_false]
  exact (persists_silent env).told ((persists_silent env).last _) n.parent _

/-- In `mid` a leaf has been counted, and the endgame called if progress passed a threshold. -/
theorem ends_arrive_counted {leaf : Prop} {mid : State} {start : NodeId → Step Unit}
    {said : List SchedulerCall} (hn : mid.tree.get? id = some n) (hinner : n.inner? = none)
    (hleaf : leaf) (bytes : Nat) (hmeter : mid.meter = st.meter.add bytes)
    (hcalls : mid.calls = st.calls ++ said.toArray)
    (hsaid : said = if crossesThreshold st.meter.stats.progress (st.meter.stats.progress + bytes)
      st.meter.stats.fileSize then [.endgame] else []) :
    Ends (arrive env start id) mid (fun _ => Hastens leaf st) (fun _ => Hastens leaf st) := by
  have hafter : ∀ last, Silent mid last → Hastens leaf st last := by
    intro last h
    obtain ⟨later, hlater, hnot⟩ := h.unhurried
    have hprogress : last.meter.stats.progress = st.meter.stats.progress + bytes := by
      rw [h.meter, hmeter]
      rfl
    refine ⟨counts_add bytes (h.meter.trans hmeter), said ++ later, ?_, ?_, ?_⟩
    · simp [hlater, hcalls]
    · rw [List.count_append, List.count_eq_zero_of_not_mem hnot, hsaid]
      split <;> simp
    · rw [hprogress, hsaid]
      split <;> simp_all
  exact (ends_arrive_leaf hn hinner).mono (fun _ => hafter) fun _ => hafter

theorem ends_receiveOwn_hastens {leaf : Prop} {reply : Block}
    (hleaf : leaf ↔ ∃ n, st.tree.get? id = some n ∧ n.inner? = none) :
    Ends (receiveOwn env id reply) st (fun _ => Hastens leaf st) (fun _ => Hastens leaf st) := by
  have hnothing : Hastens leaf st st := (refl_of Silent st).hastens leaf
  refine ends_receiveOwn_of (fun _ => hnothing) (fun _ _ _ _ _ => hnothing)
    fun n b disk hn hstatus _ hb => ?_
  have hinner : b.isInner = n.isInner := by
    rw [← isInner_admitted n (env.suite.decrypt n.chk.key reply), ← hb]
    rfl
  cases hi : n.inner? with
  | some inner =>
    have hnot : ¬ leaf := by
      rw [hleaf, hn]
      rintro ⟨m, hm, hnone⟩
      obtain rfl := Option.some.inj hm
      rw [hi] at hnone
      cases hnone
    have hset : ∀ t, Silent st { st with tree := t, disk := disk } := fun t =>
      silent_of_calls_eq rfl rfl
    rw [haste_of_inner st.meter hi, metered_of_inner st.meter hi, said_nil]
    exact (((persists_quiet env).arrive (quiet_below n.depth) id).after (hset _).quiet).mono
      (fun _ _ h => h.hastens hnot) fun _ _ h => h.hastens hnot
  | none =>
    have hself : leaf := hleaf.2 ⟨n, hn, hi⟩
    have hset : (st.tree.set id b).get? id = some b := by rw [Tree.get?_set hn, if_pos rfl]
    have hbleaf : b.inner? = none := by simpa [Node.isInner, hi] using hinner
    exact ends_arrive_counted hset hbleaf hself n.length (metered_of_leaf st.meter hi) rfl
      (haste_of_leaf st.meter hstatus hi)

def ForLeaf (t : Tree) (id : NodeId) (handler : ReplyHandler) (query : Digest) : Prop :=
  ∃ k n, addressee? t id handler query = some k ∧ t.get? k = some n ∧ n.inner? = none

/-- However a call with a reply ends, the endgame is called at most once, and just if the reply is
for a leaf and takes progress past a threshold. -/
theorem hastens_receive (id : NodeId) (handler : ReplyHandler) (query : Digest) (reply : Block) :
    Carries (fun st => Hastens (ForLeaf st.tree id handler query) st)
      (receive env id handler query reply) := by
  intro st
  have hown : ∀ k, addressee? st.tree id handler query = some k →
      Ends (receiveOwn env k reply) st (fun _ => Hastens (ForLeaf st.tree id handler query) st)
        (fun _ => Hastens (ForLeaf st.tree id handler query) st) := by
    refine fun k hk => ends_receiveOwn_hastens ?_
    simp only [ForLeaf, hk, Option.some.injEq, ↓existsAndEq, true_and]
  unfold receive
  cases handler with
  | own => exact hown id rfl
  | children =>
    simp only
    rw [ends_bind, ends_get]
    cases hchild : pendingChild? st.tree id query with
    | none => exact (refl_of Silent st).hastens _
    | some child => exact hown child hchild

end Download

end ContentTree

import ContentTree.Proofs.Tree.Upload

/-!
# Insertions that are cut short

An insertion does the same whatever receives its messages, up to the first message that is rejected.
There it stops. So what it sends, and in which order, is known from the walk that nothing interrupts.
-/

namespace ContentTree

def Sink.record : Sink (List ClientMessage) := ⟨fun m said => (.ok (), said ++ [m])⟩

namespace Upload

variable {σ α β : Type} {env : Env σ}

/-- The receiver accepts each of these messages in turn. -/
def Taken (env : Env σ) (x : σ) : List ClientMessage → Prop
  | [] => True
  | m :: ms => (env.sink.submit m x).1 = .ok () ∧ Taken env (env.sink.submit m x).2 ms

/-- Of these messages the receiver rejects one, and that is the last it has had. -/
def CutShort (env : Env σ) (x : σ) (ms : List ClientMessage) (error : TreeError) (x' : σ) : Prop :=
  ∃ sent m rest e, ms = sent ++ m :: rest ∧ Taken env x sent ∧
    (env.sink.submit m (delivered env x sent)).1 = .error e ∧ error = .network e ∧
    x' = delivered env x (sent ++ [m])

theorem taken_append (x : σ) (ms ms' : List ClientMessage) :
    Taken env x (ms ++ ms') ↔ Taken env x ms ∧ Taken env (delivered env x ms) ms' := by
  induction ms generalizing x with
  | nil => simp [Taken, delivered]
  | cons m ms ih =>
    rw [List.cons_append, Taken, ih, Taken, and_assoc]
    rfl

theorem CutShort.append {x x' : σ} {ms : List ClientMessage} {error : TreeError}
    (h : CutShort env x ms error x') (ms' : List ClientMessage) :
    CutShort env x (ms ++ ms') error x' := by
  obtain ⟨sent, m, rest, e, rfl, htaken, hrest⟩ := h
  exact ⟨sent, m, rest ++ ms', e, by simp, htaken, hrest⟩

theorem CutShort.after {x x' : σ} {ms ms' : List ClientMessage} {error : TreeError}
    (htaken : Taken env x ms) (h : CutShort env (delivered env x ms) ms' error x') :
    CutShort env x (ms ++ ms') error x' := by
  obtain ⟨sent, m, rest, e, rfl, hsent, hrejected, herror, rfl⟩ := h
  refine ⟨ms ++ sent, m, rest, e, by simp, (taken_append x ms sent).2 ⟨htaken, hsent⟩, ?_, herror, ?_⟩
  · rwa [delivered_append]
  · rw [List.append_assoc, delivered_append _ ms]

/-! ### Following the walk that nothing interrupts -/

/-- Where `y` ends well with a receiver that keeps everything, `x` does the same up to the first
message that is rejected. -/
def Follows (env : Env σ) (x : Walk σ α) (y : Walk (List ClientMessage) α) : Prop :=
  ∀ (st : State σ) (said : List ClientMessage), Ends y ⟨st.tree, st.meter, said⟩
    (fun a after => ∃ ms, after.sink = said ++ ms ∧ Ends x st
      (fun b st' => b = a ∧ Taken env st.sink ms ∧
        st' = ⟨after.tree, after.meter, delivered env st.sink ms⟩)
      (fun e st' => CutShort env st.sink ms e st'.sink))
    (fun _ _ => True)

/-- What has nothing to do with the receiver goes alike. -/
theorem follows_of_eq {x : Walk σ α} {y : Walk (List ClientMessage) α}
    (h : ∀ (st : State σ) (said : List ClientMessage), Ends y ⟨st.tree, st.meter, said⟩
      (fun a after => after.sink = said ∧
        Ends x st (fun b st' => b = a ∧ st' = ⟨after.tree, after.meter, st.sink⟩) fun _ _ => False)
      (fun _ _ => True)) : Follows env x y := by
  intro st said
  refine (h st said).mono (fun a after hok => ?_) fun _ _ _ => trivial
  obtain ⟨hsaid, hends⟩ := hok
  refine ⟨[], by simp [hsaid], hends.mono (fun b st' hsame => ?_) fun _ _ hfail => hfail.elim⟩
  exact ⟨hsame.1, trivial, hsame.2⟩

theorem Follows.bind {x : Walk σ α} {y : Walk (List ClientMessage) α} {f : α → Walk σ β}
    {g : α → Walk (List ClientMessage) β} (h : Follows env x y)
    (hf : ∀ a, Follows env (f a) (g a)) : Follows env (x >>= f) (y >>= g) := by
  intro st said
  rw [ends_bind]
  refine (h st said).mono (fun a after hx => ?_) fun _ _ _ => trivial
  obtain ⟨ms, hsaid, hx⟩ := hx
  have hnext := hf a ⟨after.tree, after.meter, delivered env st.sink ms⟩ (said ++ ms)
  rw [← hsaid] at hnext
  refine hnext.mono (fun b last hy => ?_) fun _ _ _ => trivial
  obtain ⟨ms', hlast, hy⟩ := hy
  refine ⟨ms ++ ms', by rw [hlast, hsaid, List.append_assoc], ?_⟩
  rw [ends_bind]
  refine hx.mono ?_ fun e st' hcut => hcut.append ms'
  rintro _ _ ⟨rfl, htaken, rfl⟩
  refine hy.mono ?_ fun e st' hcut => hcut.after htaken
  rintro _ _ ⟨rfl, htaken', rfl⟩
  exact ⟨rfl, (taken_append _ _ _).2 ⟨htaken, htaken'⟩, by rw [delivered_append]⟩

theorem follows_pure (a : α) :
    Follows env (pure a : Walk σ α) (pure a : Walk (List ClientMessage) α) :=
  follows_of_eq fun _ _ => ⟨rfl, rfl, rfl⟩

theorem follows_modify {f : State σ → State σ}
    {g : State (List ClientMessage) → State (List ClientMessage)}
    (h : ∀ st said, (g ⟨st.tree, st.meter, said⟩).sink = said ∧
      f st = ⟨(g ⟨st.tree, st.meter, said⟩).tree, (g ⟨st.tree, st.meter, said⟩).meter, st.sink⟩) :
    Follows env (modify f : Walk σ PUnit) (modify g : Walk (List ClientMessage) PUnit) :=
  follows_of_eq fun st said => ⟨(h st said).1, rfl, (h st said).2⟩

theorem follows_onTree (f : Tree → Tree) :
    Follows env (onTree f) (onTree f : Walk (List ClientMessage) Unit) :=
  follows_modify fun _ _ => ⟨rfl, rfl⟩

theorem follows_node (id : NodeId) : Follows env (node id) (node id) := by
  refine follows_of_eq fun st said => ?_
  unfold node
  rw [ends_bind, ends_get]
  cases hn : st.tree.get? id with
  | none => trivial
  | some n =>
    simp only
    rw [ends_pure]
    refine ⟨rfl, ?_⟩
    rw [ends_bind, ends_get, hn]
    exact ⟨rfl, rfl⟩

theorem follows_lift (x : Except TreeError α) :
    Follows env (liftM x : Walk σ α) (liftM x : Walk (List ClientMessage) α) := by
  refine follows_of_eq fun st said => ?_
  rw [ends_liftM]
  refine ⟨fun a ha => ⟨rfl, ?_⟩, fun _ _ => trivial⟩
  rw [ends_liftM]
  refine ⟨fun b hb => ⟨Except.ok.inj (hb.symm.trans ha), rfl⟩, fun e he => ?_⟩
  rw [ha] at he
  cases he

theorem follows_allocateChildren (id : NodeId) :
    Follows env
      (modifyGet fun st => ((st.tree.allocateChildren id).1.getD [],
        { st with tree := (st.tree.allocateChildren id).2 }))
      (modifyGet fun st => ((st.tree.allocateChildren id).1.getD [],
        { st with tree := (st.tree.allocateChildren id).2 })) :=
  follows_of_eq fun _ _ => ⟨rfl, rfl, rfl⟩

def Env.recording (env : Env σ) : Env (List ClientMessage) where
  suite := env.suite
  disk := env.disk
  storage := env.storage
  direction := env.direction
  priority := env.priority
  index := env.index
  sink := Sink.record

theorem messages_recording (src : Source) (level position : Nat) :
    messages env.recording src level position = messages env src level position := by
  induction level generalizing position with
  | zero => rfl
  | succ level ih =>
    rw [messages, messages, funext ih]
    rfl

theorem cutShort_of_rejected {x : σ} {m : ClientMessage} {e : SinkError}
    (h : (env.sink.submit m x).1 = .error e) :
    CutShort env x [m] (.network e) (env.sink.submit m x).2 :=
  ⟨[], m, [], e, rfl, trivial, h, rfl, rfl⟩

theorem follows_send (m : ClientMessage) : Follows env (send env m) (send env.recording m) := by
  intro st said
  unfold send submit
  rw [ends_bind, ends_modifyGet]
  refine ⟨[m], rfl, ?_⟩
  rw [ends_bind, ends_modifyGet]
  simp only
  split
  · rename_i hverdict
    exact ⟨trivial, ⟨hverdict, trivial⟩, rfl⟩
  · rename_i e hverdict
    exact cutShort_of_rejected hverdict

theorem follows_sendSuper (hinsert : env.direction = .insert) (hash : Digest) :
    Follows env (sendSuper env hash) (sendSuper env.recording hash) := by
  intro st said
  unfold sendSuper submit
  rw [ends_bind, ends_modifyGet]
  refine ⟨[env.direction.superMessage env.priority hash], rfl, ?_⟩
  rw [ends_bind, ends_modifyGet]
  simp only
  split
  · rename_i hverdict
    exact ⟨trivial, ⟨hverdict, trivial⟩, rfl⟩
  · rename_i e hverdict
    have hstops : ¬ (env.direction = .delete ∧ e = .refused) := by simp [hinsert]
    rw [if_neg hstops]
    exact cutShort_of_rejected hverdict

theorem follows_leaf (id : NodeId) : Follows env (leaf env id) (leaf env.recording id) := by
  unfold leaf
  refine (follows_node id).bind fun n => (follows_lift _).bind fun data => ?_
  exact (follows_modify fun _ _ => ⟨rfl, rfl⟩).bind fun _ => follows_send _

theorem follows_children {walk : NodeId → Walk σ Unit}
    {walk' : NodeId → Walk (List ClientMessage) Unit} (hwalk : ∀ id, Follows env (walk id) (walk' id))
    (ids : List NodeId) : Follows env (children env walk ids) (children env.recording walk' ids) := by
  induction ids with
  | nil => exact follows_pure []
  | cons id ids ih =>
    refine (hwalk id).bind fun _ => (follows_node id).bind fun n => ?_
    exact (follows_onTree _).bind fun _ => ih.bind fun results => follows_pure _

theorem follows_inner (hinsert : env.direction = .insert) {walk : NodeId → Walk σ Unit}
    {walk' : NodeId → Walk (List ClientMessage) Unit} (hwalk : ∀ id, Follows env (walk id) (walk' id))
    (id : NodeId) : Follows env (inner env walk id) (inner env.recording walk' id) := by
  unfold inner
  refine (follows_onTree _).bind fun _ => (follows_allocateChildren id).bind fun ids => ?_
  refine (follows_children hwalk ids).bind fun results => ?_
  by_cases hindex : env.index = 0
  · have hindex' : env.recording.index = 0 := hindex
    simp only [hindex, hindex', ne_eq, not_true_eq_false, if_false]
    refine (follows_node id).bind fun n => ?_
    exact (follows_onTree _).bind fun _ => follows_send _
  · have hindex' : ¬ env.recording.index = 0 := hindex
    simp only [hindex, hindex', ne_eq, not_false_eq_true, if_true]
    refine (follows_sendSuper hinsert _).bind fun _ => (follows_node id).bind fun n => ?_
    exact (follows_onTree _).bind fun _ => follows_send _

theorem follows_subtree (hinsert : env.direction = .insert) (levels : Nat) (id : NodeId) :
    Follows env (subtree env levels id) (subtree env.recording levels id) := by
  induction levels generalizing id with
  | zero =>
    refine (follows_node id).bind fun n => ?_
    split
    · exact follows_pure ()
    · exact follows_leaf id
  | succ levels ih =>
    refine (follows_node id).bind fun n => ?_
    split
    · exact follows_inner hinsert ih id
    · exact follows_leaf id

theorem follows_run (hinsert : env.direction = .insert) (id : NodeId) :
    Follows env (run env id) (run env.recording id) :=
  (follows_node id).bind fun n => follows_subtree hinsert n.depth id

/-! ### Verdicts -/

theorem taken_record {env : Env (List ClientMessage)} (hsink : env.sink = Sink.record)
    (said ms : List ClientMessage) : Accepted env said ms ∧ delivered env said ms = said ++ ms := by
  induction ms generalizing said with
  | nil => exact ⟨trivial, (List.append_nil said).symm⟩
  | cons m ms ih =>
    have hsubmit : env.sink.submit m said = (.ok (), said ++ [m]) := by rw [hsink]; rfl
    obtain ⟨haccepted, hdelivered⟩ := ih (said ++ [m])
    refine ⟨⟨.inl (by rw [hsubmit]), ?_⟩, ?_⟩
    · rwa [hsubmit]
    · rw [delivered, List.foldl_cons, hsubmit]
      exact hdelivered.trans (by simp)

end Upload

end ContentTree

import ContentTree.Proofs.Insertion

/-!
# A deletion is an insertion with opposite messages

A deletion does what an insertion does whose receiver puts the opposite message in place of each and
forgives the refusal of a super hash. So the two send message for opposite message, whatever the
index, and stop alike.
-/

namespace ContentTree

/-- The message that undoes an insertion, and the other way round. -/
def ClientMessage.opposite : ClientMessage → ClientMessage
  | .insert priority block => .delete priority block
  | .delete priority block => .insert priority block
  | .index entry => .unindex entry
  | .unindex entry => .index entry
  | .indexSuper priority hash => .unindexSuper priority hash
  | .unindexSuper priority hash => .indexSuper priority hash
  | m => m

/-- That a super hash is gone already is no reason to stop. -/
def forgiven : ClientMessage → Except SinkError Unit → Except SinkError Unit
  | .indexSuper _ _, .error .refused => .ok ()
  | _, verdict => verdict

/-- The receiver has the opposite messages. -/
def Sink.opposite {σ : Type} (sink : Sink σ) : Sink σ where
  submit m x :=
    let (verdict, x) := sink.submit m.opposite x
    (forgiven m verdict, x)

namespace Upload

variable {σ α β : Type} {env : Env σ} {x : σ} {m : ClientMessage} {ms : List ClientMessage}

def Env.opposite (env : Env σ) : Env σ where
  suite := env.suite
  disk := env.disk
  storage := env.storage
  direction := .insert
  priority := env.priority
  index := env.index
  sink := env.sink.opposite

/-! ### The same walk -/

theorem submit_opposite (m : ClientMessage) :
    submit env.opposite m = forgiven m <$> submit env m.opposite := rfl

theorem send_opposite (hm : ∀ priority hash, m ≠ .indexSuper priority hash) :
    send env.opposite m = send env m.opposite := by
  have hforgiven : forgiven m = id := by
    funext verdict
    cases m <;> first | rfl | exact absurd rfl (hm _ _)
  unfold send
  rw [submit_opposite, hforgiven, id_map]

theorem sendSuper_opposite (hdelete : env.direction = .delete) (hash : Digest) :
    sendSuper env.opposite hash = sendSuper env hash := by
  have hmessage : env.opposite.direction.superMessage env.opposite.priority hash =
      .indexSuper env.priority hash := rfl
  have hopposite : (ClientMessage.indexSuper env.priority hash).opposite =
      env.direction.superMessage env.priority hash := by rw [hdelete]; rfl
  unfold sendSuper
  rw [hmessage, submit_opposite, hopposite, bind_map_left]
  refine bind_congr fun verdict => ?_
  rcases verdict with ⟨_ | _⟩ | _
  · simp [forgiven]
  · simp [forgiven, hdelete]
  · rfl

theorem leaf_opposite (hdelete : env.direction = .delete) (id : NodeId) :
    leaf env.opposite id = leaf env id := by
  unfold leaf
  refine bind_congr fun n => bind_congr fun data => bind_congr fun _ => ?_
  rw [send_opposite, hdelete]
  · change send env (ClientMessage.opposite (if env.index = 0 then _ else _)) = _
    split <;> rfl
  · intro priority hash
    change (if env.index = 0 then _ else _) ≠ _
    split <;> nofun

theorem children_opposite (walk : NodeId → Walk σ Unit) (ids : List NodeId) :
    children env.opposite walk ids = children env walk ids := by
  induction ids with
  | nil => rfl
  | cons id ids ih =>
    unfold children
    rw [ih]
    rfl

theorem inner_opposite (hdelete : env.direction = .delete) (walk : NodeId → Walk σ Unit)
    (id : NodeId) : inner env.opposite walk id = inner env walk id := by
  have hblock : ∀ cipher, send env.opposite (env.opposite.direction.blockMessage
      env.opposite.priority cipher) = send env (env.direction.blockMessage env.priority cipher) := by
    intro cipher
    have hne : ∀ priority hash, env.opposite.direction.blockMessage env.opposite.priority cipher ≠
        .indexSuper priority hash := fun _ _ h => by cases h
    rw [send_opposite hne, hdelete]
    rfl
  unfold inner
  rw [funext (children_opposite walk)]
  simp only [hblock, sendSuper_opposite hdelete]
  rfl

theorem subtree_opposite (hdelete : env.direction = .delete) (levels : Nat) (id : NodeId) :
    subtree env.opposite levels id = subtree env levels id := by
  induction levels generalizing id with
  | zero =>
    unfold subtree
    simp only [leaf_opposite hdelete]
  | succ levels ih =>
    unfold subtree
    simp only [leaf_opposite hdelete, funext ih, inner_opposite hdelete]

/-- A deletion is an insertion whose receiver has the opposite messages. -/
theorem run_opposite (hdelete : env.direction = .delete) (id : NodeId) :
    run env.opposite id = run env id := by
  unfold run
  exact bind_congr fun n => subtree_opposite hdelete n.depth id

/-! ### What the receiver has had -/

theorem delivered_opposite (x : σ) (ms : List ClientMessage) :
    delivered env.opposite x ms = delivered env x (ms.map .opposite) := by
  rw [delivered, delivered, List.foldl_map]
  rfl

theorem eq_error_of_forgiven {verdict : Except SinkError Unit} {e : SinkError}
    (h : forgiven m verdict = .error e) : verdict = .error e := by
  rcases verdict with ⟨_ | _⟩ | _ <;> cases m <;> first | exact h | cases h

theorem forgiven_eq_ok {verdict : Except SinkError Unit} :
    forgiven m verdict = .ok () ↔ Passes m.opposite verdict := by
  unfold Passes
  rcases verdict with ⟨_ | _⟩ | _ <;> cases m <;> simp [forgiven, ClientMessage.opposite]

theorem taken_opposite (x : σ) (ms : List ClientMessage) :
    Taken env.opposite x ms ↔ Accepted env x (ms.map .opposite) := by
  induction ms generalizing x with
  | nil => exact Iff.rfl
  | cons m ms ih => exact and_congr forgiven_eq_ok (ih _)

variable {src : Source} {level position id : Nat} {parent : Option NodeId}

theorem messages_opposite (hdelete : env.direction = .delete) (level position : Nat) :
    messages env src level position = (messages env.opposite src level position).map .opposite := by
  induction level generalizing position with
  | zero =>
    change _ = [ClientMessage.opposite (if env.index = 0 then _ else _)]
    rw [messages, leafMessage, hdelete]
    split <;> rfl
  | succ level ih =>
    change _ = List.map _ (_ ++ ((if env.index ≠ 0 then _ else _) ++ _))
    rw [messages, hdelete, List.map_append, List.map_flatMap, funext ih]
    split <;> rfl

theorem not_unindexSuper_of_mem_messages (hinsert : env.direction = .insert)
    (hm : m ∈ messages env src level position) : ∀ priority hash, m ≠ .unindexSuper priority hash := by
  induction level generalizing position with
  | zero =>
    obtain rfl := List.mem_singleton.1 hm
    exact leafMessage_ne src position
  | succ level ih =>
    rw [messages, hinsert] at hm
    rcases List.mem_append.1 hm with hbelow | hself
    · obtain ⟨start, -, hstart⟩ := List.mem_flatMap.1 hbelow
      exact ih hstart
    · rintro priority hash rfl
      split at hself <;> simp [superMessage, blockMessage] at hself

/-- The messages are sent up to the first one whose verdict stops the walk. -/
def Stopped (env : Env σ) (x : σ) (ms : List ClientMessage) (error : TreeError) (x' : σ) : Prop :=
  ∃ sent m rest e, ms = sent ++ m :: rest ∧ Accepted env x sent ∧
    (env.sink.submit m (delivered env x sent)).1 = .error e ∧ ¬ Passes m (.error e) ∧
    error = .network e ∧ x' = delivered env x (sent ++ [m])

theorem Taken.accepted (h : Taken env x ms) : Accepted env x ms := by
  induction ms generalizing x with
  | nil => trivial
  | cons m ms ih => exact ⟨.inl h.1, ih h.2⟩

theorem CutShort.stopped {x' : σ} {e : TreeError} (h : CutShort env x ms e x')
    (hms : ∀ m ∈ ms, ∀ priority hash, m ≠ .unindexSuper priority hash) : Stopped env x ms e x' := by
  obtain ⟨sent, m, rest, e, rfl, htaken, hrejected, rfl, rfl⟩ := h
  refine ⟨sent, m, rest, e, rfl, htaken.accepted, hrejected, ?_, rfl, rfl⟩
  rintro (hok | ⟨-, priority, hash, hm⟩)
  · cases hok
  · exact hms m (by simp) priority hash hm

theorem CutShort.stopped_of_opposite {x' : σ} {e : TreeError} (h : CutShort env.opposite x ms e x') :
    Stopped env x (ms.map .opposite) e x' := by
  obtain ⟨sent, m, rest, e, rfl, htaken, hrejected, rfl, rfl⟩ := h
  have hforgiven : forgiven m (env.sink.submit m.opposite
      (delivered env x (sent.map .opposite))).1 = .error e := by
    rw [← delivered_opposite]
    exact hrejected
  have hverdict := eq_error_of_forgiven hforgiven
  refine ⟨sent.map .opposite, m.opposite, rest.map .opposite, e, by simp,
    (taken_opposite x sent).1 htaken, hverdict, fun hpasses => ?_, rfl, ?_⟩
  · rw [hverdict, forgiven_eq_ok.2 hpasses] at hforgiven
    cases hforgiven
  · rw [delivered_opposite, List.map_append]
    rfl

/-- How an insertion of a new node ends whose leaves can all be read. -/
theorem ends_run_of_insert (hinsert : env.direction = .insert) (hsize : src.size ≤ maxSize)
    (hsrc : src = env.storage.source env.disk src.size) (hheld : LeavesHeld env src level position)
    (st : State σ) (hplace : Place src.size level position)
    (hid : st.tree.get? id = some (Node.new src.size position level parent))
    (hroot : ∀ r : Nat, st.tree.root = some r → r < st.tree.nodes.size) :
    Ends (run env id) st
      (fun _ st' => Taken env st.sink (messages env src level position) ∧
        st'.sink = delivered env st.sink (messages env src level position))
      (fun e st' => CutShort env st.sink (messages env src level position) e st'.sink) := by
  have hrecorded := @taken_record env.recording rfl [] (messages env.recording src level position)
  have hwhole := (@walks_run _ env.recording src hsize hsrc level ⟨st.tree, st.meter, []⟩ id position
    parent hplace hid hroot).and (follows_run hinsert id st [])
  obtain ⟨_, after, -, ⟨-, hsent, -⟩, ms, hms, hends⟩ := hwhole.exists_ok fun _ _ hfail =>
    hfail.1.2 ⟨hheld, hrecorded.1⟩
  rw [hsent, hrecorded.2, List.nil_append, List.nil_append, messages_recording] at hms
  subst hms
  refine hends.mono ?_ fun _ _ hcut => hcut
  rintro _ _ ⟨-, htaken, rfl⟩
  exact ⟨htaken, rfl⟩

/-- How a walk of either kind over a new node ends whose leaves can all be read. -/
theorem ends_run (hsize : src.size ≤ maxSize) (hsrc : src = env.storage.source env.disk src.size)
    (hheld : LeavesHeld env src level position) (st : State σ) (hplace : Place src.size level position)
    (hid : st.tree.get? id = some (Node.new src.size position level parent))
    (hroot : ∀ r : Nat, st.tree.root = some r → r < st.tree.nodes.size) :
    Ends (run env id) st
      (fun _ st' => Accepted env st.sink (messages env src level position) ∧
        st'.sink = delivered env st.sink (messages env src level position))
      (fun e st' => Stopped env st.sink (messages env src level position) e st'.sink) := by
  cases hdirection : env.direction with
  | insert =>
    refine (ends_run_of_insert hdirection hsize hsrc hheld st hplace hid hroot).mono ?_ ?_
    · rintro _ st' ⟨htaken, hsink⟩
      exact ⟨htaken.accepted, hsink⟩
    · rintro e st' hcut
      exact hcut.stopped fun m hm => not_unindexSuper_of_mem_messages hdirection hm
  | delete =>
    rw [← run_opposite hdirection, messages_opposite hdirection]
    have hends := @ends_run_of_insert _ env.opposite src level position id parent rfl hsize hsrc hheld
      st hplace hid hroot
    refine hends.mono ?_ ?_
    · rintro _ st' ⟨htaken, hsink⟩
      exact ⟨(taken_opposite _ _).1 htaken, by rw [hsink, delivered_opposite]⟩
    · exact fun e st' hcut => hcut.stopped_of_opposite

/-! ### The journal -/

/-- How a walk that has these messages to send goes by the verdicts on them. It is given by its
result and its journal. -/
structure Conducted (ms : List ClientMessage) (walk : Except TreeError Unit × Journal) : Prop where
  ordered : walk.2.map Prod.fst <+: ms
  stopped : ∀ before m verdict after, walk.2 = before ++ (m, verdict) :: after →
    ¬ Passes m verdict → after = [] ∧ ∃ e, verdict = .error e ∧ walk.1 = .error (.network e)
  finished : (∀ entry ∈ walk.2, Passes entry.1 entry.2) →
    walk.2.map Prod.fst = ms ∧ walk.1 = .ok ()

theorem conducted_of_passes {journal : Journal} (h : ∀ entry ∈ journal, Passes entry.1 entry.2) :
    Conducted (journal.map Prod.fst) (.ok (), journal) where
  ordered := List.prefix_refl _
  stopped before m verdict after heq hstops := by
    obtain rfl : journal = _ := heq
    exact absurd (h (m, verdict) (by simp)) hstops
  finished _ := ⟨rfl, rfl⟩

theorem conducted_of_stop {journal : Journal} {rest : List ClientMessage} {e : SinkError}
    (h : ∀ entry ∈ journal, Passes entry.1 entry.2) (hstops : ¬ Passes m (.error e)) :
    Conducted (journal.map Prod.fst ++ m :: rest)
      (.error (.network e), journal ++ [(m, .error e)]) where
  ordered := ⟨rest, by simp⟩
  stopped before m' verdict after heq hstops' := by
    obtain rfl | ⟨others, last, rfl⟩ := List.eq_nil_or_concat after
    · have hentry := (List.append_inj' heq rfl).2
      obtain ⟨rfl, rfl⟩ : m = m' ∧ .error e = verdict := by simpa using hentry
      exact ⟨rfl, e, rfl, rfl⟩
    · -- Whatever stands before the last entry has passed.
      rw [List.concat_eq_append, ← List.cons_append, ← List.append_assoc] at heq
      have hjournal := (List.append_inj' heq rfl).1
      exact absurd (h (m', verdict) (by rw [hjournal]; simp)) hstops'
  finished hall := absurd (hall (m, .error e) (by simp)) hstops

theorem journal_accepted {sink : Sink σ} {env : Env (σ × Journal)} (hsink : env.sink = sink.logged)
    (x : σ × Journal) (ms : List ClientMessage) (h : Accepted env x ms) :
    ∃ journal, (delivered env x ms).2 = x.2 ++ journal ∧ journal.map Prod.fst = ms ∧
      ∀ entry ∈ journal, Passes entry.1 entry.2 := by
  induction ms generalizing x with
  | nil => exact ⟨[], (List.append_nil _).symm, rfl, nofun⟩
  | cons m ms ih =>
    have hfirst : (env.sink.submit m x).2.2 = x.2 ++ [(m, (env.sink.submit m x).1)] := by
      rw [hsink]
      rfl
    obtain ⟨journal, hrest, hms, hpasses⟩ := ih _ h.2
    refine ⟨(m, (env.sink.submit m x).1) :: journal, ?_, by simp [hms], ?_⟩
    · rw [hfirst, List.append_assoc] at hrest
      exact hrest
    · exact List.forall_mem_cons.2 ⟨h.1, hpasses⟩

def Env.logged (env : Env σ) : Env (σ × Journal) where
  suite := env.suite
  disk := env.disk
  storage := env.storage
  direction := env.direction
  priority := env.priority
  index := env.index
  sink := env.sink.logged

theorem messages_logged (src : Source) (level position : Nat) :
    messages env.logged src level position = messages env src level position := by
  induction level generalizing position with
  | zero => rfl
  | succ level ih =>
    rw [messages, messages, funext ih]
    rfl

/-- The result and the journal of a walk over a new tree. -/
def journey (env : Env σ) (size : Nat) (x : σ) : Except TreeError Unit × Journal :=
  let (result, st) := (run env.logged 0).run ⟨Tree.new size, Meter.new size, (x, [])⟩
  (result, st.sink.2)

theorem conducted_journey {size : Nat} (hsize : size ≤ maxSize)
    (hheld : ∀ start, Place size 0 start → env.storage.HasLeaf env.disk size start) (x : σ) :
    Conducted (messages env (env.storage.source env.disk size) (treeDepth size) 0)
      (journey env size x) := by
  have hends := @ends_run _ env.logged (env.storage.source env.disk size) (treeDepth size) 0 0 none
    hsize rfl (fun start hstart _ => hheld start hstart) ⟨Tree.new size, Meter.new size, (x, [])⟩
    (place_root size) (Tree.get?_new size) (by rintro r ⟨⟩; exact Nat.one_pos)
  rw [messages_logged] at hends
  unfold journey
  rcases hrun : (run env.logged 0).run ⟨Tree.new size, Meter.new size, (x, [])⟩ with ⟨e | _, st⟩
  · obtain ⟨sent, m, rest, e, hms, haccepted, hverdict, hstops, rfl, hsink⟩ := hends.of_error hrun
    obtain ⟨journal, hjournal, rfl, hpasses⟩ := journal_accepted rfl _ sent haccepted
    have hlast : st.sink.2 = journal ++ [(m, .error e)] := by
      rw [hsink, delivered_append, ← hverdict]
      change (delivered env.logged (x, []) _).2 ++ _ = _
      rw [hjournal]
      rfl
    simp only [hlast, hms]
    exact conducted_of_stop hpasses hstops
  · obtain ⟨haccepted, hsink⟩ := hends.of_ok hrun
    obtain ⟨journal, hjournal, hms, hpasses⟩ := journal_accepted rfl _ _ haccepted
    rw [← hsink] at hjournal
    simp only [hjournal, ← hms]
    exact conducted_of_passes hpasses

end Upload

namespace Files

variable {d : Disk} {path : String}

/-- A call on a tree over a file that is open in `storage`, with the index as it is given. -/
def callEnv {σ : Type} (s : Suite) (d : Disk) (opts : InsertOptions) (storage : Storage)
    (direction : Upload) (sink : Sink σ) : Upload.Env σ where
  suite := s
  disk := d
  storage := storage
  direction := direction
  priority := opts.priority
  index := opts.index
  sink := sink

/-- A file that is open for reading has its leaves at hand and makes its own blocks. -/
theorem openReadable_eq_ok {c : FileContent} (s : Suite) (hc : d.contentAt path = .ok c)
    (hsize : c.size ≤ Handle.offsetLimit) :
    ∃ storage, Storage.openReadable d c.size path = .ok storage ∧
      (∀ start, Place c.size 0 start → storage.HasLeaf d c.size start) ∧
      ∀ level position, Place c.size level position →
        (storage.source d c.size).block s level position =
          (Source.ofFile c.toBytes).block s level position := by
  obtain ⟨object, hentry, rfl⟩ := Disk.contentAt_eq_ok.1 hc
  have hmax : (d.content object).size ≤ maxSize := hsize.trans (by decide)
  have hheld : ∀ {storage : Storage},
      storage.levels[0]? = some (some (.file object false)) →
      ∀ start, Place (d.content object).size 0 start →
        storage.HasLeaf d (d.content object).size start :=
    fun hobject start hstart => hasLeaf_of_content hobject hsize hstart
  simp only [Storage.openReadable, hentry]
  exact ⟨_, rfl, hheld rfl, fun level position hplace => block_eq rfl hmax (hheld rfl) hplace⟩

/-- Message for message a deletion sends the opposite of what an insertion sends, over a new tree, for
every index and priority. The refusal of a super hash does not stop it, any other verdict against a
message does. A file that has not got the expected identifier is left alone. -/
theorem delete_eq_opposite (s : Suite) (d : Disk) (path : String) (opts : InsertOptions) :
    (∀ c, d.contentAt path = .ok c → c.size ≤ Handle.offsetLimit →
      ∃ storage, Storage.openReadable d c.size path = .ok storage ∧
        ∀ {σ : Type} (sink : Sink σ) (x : σ),
          let ms := (Source.ofFile c.toBytes).insertions s opts.priority opts.index
            (treeDepth c.size) 0
          Upload.Conducted ms
              (Upload.journey (callEnv s d opts storage .insert sink) c.size x) ∧
            Upload.Conducted (ms.map .opposite)
              (Upload.journey (callEnv s d opts storage .delete sink) c.size x)) ∧
    ∀ f, identify s d path opts ≠ .ok f → ∀ {σ : Type} (sink : Sink σ) (x : σ),
      ∃ e, delete s d path opts (some f) sink x = (.error e, x) ∧
        ∀ g, identify s d path opts = .ok g → e = .mismatch f := by
  refine ⟨fun c hc hsize => ?_, fun f hother σ sink x => ?_⟩
  · have hmax : c.size ≤ maxSize := hsize.trans (by decide)
    obtain ⟨storage, hopen, hheld, hblock⟩ := openReadable_eq_ok s hc hsize
    have hfilesize : (Source.ofFile c.toBytes).size = c.size := FileContent.length_toBytes c
    refine ⟨storage, hopen, fun {σ} sink x => ?_⟩
    intro ms
    have hmessages : ∀ {env : Upload.Env σ}, env.suite = s → env.priority = opts.priority →
        env.index = opts.index → env.direction = .insert →
        Upload.messages env (storage.source d c.size) (treeDepth c.size) 0 = ms := by
      rintro env rfl hpriority hindex hinsert
      rw [@Source.messages_eq (Source.ofFile c.toBytes) _ _ _ _ _ (hfilesize ▸ hmax) hfilesize.symm
        hinsert (hfilesize ▸ hblock) (hfilesize ▸ place_root _), hpriority, hindex]
    have hwalk : ∀ direction, Upload.Conducted
        (Upload.messages (callEnv s d opts storage direction sink)
          (storage.source d c.size) (treeDepth c.size) 0)
        (Upload.journey (callEnv s d opts storage direction sink) c.size x) :=
      fun direction => Upload.conducted_journey hmax hheld x
    have hinsert := hwalk .insert
    have hdelete := hwalk .delete
    rw [hmessages rfl rfl rfl rfl] at hinsert
    rw [Upload.messages_opposite rfl, hmessages rfl rfl rfl rfl] at hdelete
    exact ⟨hinsert, hdelete⟩
  · unfold delete
    cases hidentify : identify s d path opts with
    | error e => exact ⟨e, rfl, nofun⟩
    | ok g =>
      have hne : g ≠ f := fun heq => hother (by rw [hidentify, heq])
      exact ⟨.mismatch f, by simp only [if_neg hne], fun _ _ => rfl⟩

/-- Knows of no super hash, and accepts all else. -/
def forgetful : Sink Unit where
  submit
    | .unindexSuper _ _, u => (.error .refused, u)
    | _, u => (.ok (), u)

/-- A file of two leaves is unindexed there, and is left alone if another file is expected. -/
theorem delete_eq_opposite_of_forgetful :
    ∃ storage, Storage.openReadable (lone ⟨1025, []⟩) 1025 "f" = .ok storage ∧
      Upload.Conducted (((Source.ofFile (FileContent.toBytes ⟨1025, []⟩)).insertions Suite.standard 0 1
          (treeDepth 1025) 0).map .opposite)
        (Upload.journey (callEnv Suite.standard (lone ⟨1025, []⟩) ⟨0, 1⟩ storage .delete forgetful)
          1025 ()) ∧
      ∃ e, delete Suite.standard (lone ⟨1025, []⟩) "f" ⟨0, 1⟩ (some ⟨.zero, 0, 0⟩) forgetful () =
        (.error e, ()) := by
  obtain ⟨hsame, hother⟩ := delete_eq_opposite Suite.standard (lone ⟨1025, []⟩) "f" ⟨0, 1⟩
  obtain ⟨storage, hopen, hwalks⟩ := hsame ⟨1025, []⟩ (contentAt_lone _) (by decide)
  have hidentify : identify Suite.standard (lone ⟨1025, []⟩) "f" ⟨0, 1⟩ ≠ .ok ⟨.zero, 0, 0⟩ := by
    rw [(identifies (contentAt_lone _) (by decide)).2 ⟨0, 1⟩]
    intro hsame
    have hsize : (Source.ofFile (FileContent.toBytes ⟨1025, []⟩)).size = 1025 :=
      FileContent.length_toBytes _
    have hlength := @Source.toNat_length_identifier Suite.standard _ (hsize.trans_le (by decide))
    rw [Except.ok.inj hsame, hsize] at hlength
    exact absurd hlength (by decide)
  obtain ⟨e, he, -⟩ := hother _ hidentify forgetful ()
  exact ⟨storage, hopen, (hwalks forgetful ()).2, e, he⟩

end Files

end ContentTree

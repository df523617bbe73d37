import ContentTree.Proofs.Identity
import ContentTree.Proofs.Tree.Interrupted
import ContentTree.Proofs.Tree.Kept

/-!
# The order of an insertion

An insertion sends what belongs to a place after all that belongs to the places below it. Wherever it
is stopped, the blocks that a sent block names have been sent and accepted before.
-/

namespace ContentTree

/-- Messages with the verdicts on them, in order. -/
abbrev Journal := List (ClientMessage × Except SinkError Unit)

/-- The receiver, with a journal of what it has had. -/
def Sink.logged {σ : Type} (sink : Sink σ) : Sink (σ × Journal) where
  submit m st :=
    let (verdict, x) := sink.submit m st.1
    (verdict, x, st.2 ++ [(m, verdict)])

namespace Source

/-- The messages of an insertion: each leaf's in file order and, for each place above, after all its
children its super hash if leaves are indexed, and then its block. -/
def insertions (s : Suite) (src : Source) (priority : UInt32) (index : UInt16) :
    Nat → Nat → List ClientMessage
  | 0, position =>
    [if index = 0 then .insert priority (src.cipher s 0 position)
      else .index ⟨(src.chk s 0 position).query, priority, Lookup.sharedLeaf.code, index,
        UInt64.ofNat position⟩]
  | level + 1, position =>
    (src.starts level position).flatMap (insertions s src priority index level) ++
      ((if index ≠ 0 then [.indexSuper priority (src.table s level position).superHash] else []) ++
        [.insert priority (src.cipher s (level + 1) position)])

variable {s : Suite} {src : Source} {priority : UInt32} {index : UInt16} {level position : Nat}

/-- Where contents are sent, there is one message for each place. -/
theorem insertions_raw (level position : Nat) : src.insertions s priority 0 level position =
    (src.places level position).map fun place => .insert priority (src.cipher s place.1 place.2) := by
  induction level generalizing position with
  | zero => rfl
  | succ level ih =>
    rw [insertions, places, List.map_append, List.map_flatMap, funext ih]
    rfl

/-- A place stands after its children. -/
def ChildrenFirst (src : Source) (places : List (Nat × Nat)) : Prop :=
  ∀ before level position after, places = before ++ (level + 1, position) :: after →
    ∀ start ∈ src.starts level position, (level, start) ∈ before

theorem ChildrenFirst.append {places others : List (Nat × Nat)} (h : src.ChildrenFirst places)
    (h' : src.ChildrenFirst others) : src.ChildrenFirst (places ++ others) := by
  intro before level position after heq start hstart
  obtain ⟨rest, rfl, hothers⟩ | ⟨rest, rfl, hrest⟩ := List.append_eq_append_iff.1 heq
  · exact List.mem_append_right _ (h' rest level position after hothers start hstart)
  · cases rest with
    | nil =>
      have hmem := h' [] level position after hrest.symm start hstart
      cases hmem
    | cons place rest =>
      obtain ⟨rfl, -⟩ := List.cons_eq_cons.1 hrest
      exact h before level position rest rfl start hstart

theorem childrenFirst_flatMap {f : Nat → List (Nat × Nat)} (hf : ∀ x, src.ChildrenFirst (f x))
    (xs : List Nat) : src.ChildrenFirst (xs.flatMap f) := by
  induction xs with
  | nil =>
    intro before level position after heq
    simp at heq
  | cons x xs ih =>
    rw [List.flatMap_cons]
    exact (hf x).append ih

theorem self_mem_places (level position : Nat) : (level, position) ∈ src.places level position := by
  cases level <;> simp [places]

theorem childrenFirst_places (level position : Nat) : src.ChildrenFirst (src.places level position) := by
  induction level generalizing position with
  | zero =>
    intro before above place after heq
    have hmem : (above + 1, place) ∈ src.places 0 position := by simp [heq]
    simp [places] at hmem
  | succ level ih =>
    intro before above place after heq start hstart
    rw [places] at heq
    obtain rfl | ⟨rest, last, rfl⟩ := List.eq_nil_or_concat after
    · -- The place itself stands last, with all of its children's before it.
      obtain ⟨rfl, hself⟩ := List.append_inj' heq rfl
      simp only [List.cons.injEq, Prod.mk.injEq, Nat.add_right_cancel_iff, and_true] at hself
      obtain ⟨rfl, rfl⟩ := hself
      exact List.mem_flatMap.2 ⟨start, hstart, self_mem_places level start⟩
    · rw [List.concat_eq_append, ← List.cons_append, ← List.append_assoc] at heq
      exact childrenFirst_flatMap ih _ before above place rest (List.append_inj' heq rfl).1 start hstart

/-- The messages depend on the blocks alone. -/
theorem messages_eq {σ : Type} {env : Upload.Env σ} {src' : Source} (hsize : src.size ≤ maxSize)
    (hsame : src'.size = src.size) (hinsert : env.direction = .insert)
    (hblock : ∀ level position, Place src.size level position →
      src'.block env.suite level position = src.block env.suite level position)
    (hplace : Place src.size level position) : Upload.messages env src' level position =
      src.insertions env.suite env.priority env.index level position := by
  have hchk : ∀ {level position}, Place src.size level position →
      src'.chk env.suite level position = src.chk env.suite level position := by
    intro level position hplace
    rw [chk, chk, hsame, hblock level position hplace]
  have hcipher : ∀ {level position}, Place src.size level position →
      src'.cipher env.suite level position = src.cipher env.suite level position := by
    intro level position hplace
    rw [cipher, cipher, hchk hplace, hblock level position hplace]
  induction level generalizing position with
  | zero =>
    rw [Upload.messages, Upload.leafMessage, hchk hplace, hcipher hplace, hinsert]
    rfl
  | succ level ih =>
    have htable : src'.table env.suite level position = src.table env.suite level position := by
      rw [← decode_block (hsame ▸ hsize) (hsame ▸ hplace), hblock _ _ hplace, hsame,
        decode_block hsize hplace]
    have hstarts : src'.starts level position = src.starts level position := by
      simp only [starts, hsame]
    rw [Upload.messages, insertions, hstarts, htable, hcipher hplace, hinsert]
    congr 1
    refine List.flatMap_congr fun start hstart => ih ?_
    exact place_of_mem_starts hsize hplace hstart

end Source

/-! ### The journal of an insertion -/

namespace Upload

variable {σ : Type} {sink : Sink σ} {env : Env (σ × Journal)}

theorem journal_taken (hsink : env.sink = sink.logged) (x : σ × Journal) (ms : List ClientMessage)
    (h : Taken env x ms) : (delivered env x ms).2 = x.2 ++ ms.map fun m => (m, .ok ()) := by
  induction ms generalizing x with
  | nil => exact (List.append_nil _).symm
  | cons m ms ih =>
    have hjournal : (env.sink.submit m x).2.2 = x.2 ++ [(m, (env.sink.submit m x).1)] := by
      rw [hsink]
      rfl
    have hrest := ih _ h.2
    rw [hjournal, h.1, List.append_assoc] at hrest
    exact hrest

theorem journal_rejected (hsink : env.sink = sink.logged) {x : σ × Journal} {sent : List ClientMessage}
    {m : ClientMessage} {e : SinkError} (h : Taken env x sent)
    (hrejected : (env.sink.submit m (delivered env x sent)).1 = .error e) :
    (delivered env x (sent ++ [m])).2 =
      (x.2 ++ sent.map fun m => (m, .ok ())) ++ [(m, .error e)] := by
  have hjournal : (env.sink.submit m (delivered env x sent)).2.2 =
      (delivered env x sent).2 ++ [(m, (env.sink.submit m (delivered env x sent)).1)] := by
    rw [hsink]
    rfl
  rw [← journal_taken hsink x sent h, ← hrejected, ← hjournal, delivered_append]
  rfl

/-- However a walk over the whole tree ends, the root is there to be freed. -/
theorem ends_rooted {σ : Type} {env : Env σ} {size : Nat} (hsize : size ≤ maxSize) (meter : Meter)
    (x : σ) : Ends (do run env 0; node 0 : Walk σ Node) ⟨Tree.new size, meter, x⟩
      (fun _ st => st.tree.Sound ∧ st.tree.root = some 0)
      (fun _ st => st.tree.Sound ∧ st.tree.root = some 0) := by
  have hwalk := @walks_run σ env (env.storage.source env.disk size) hsize rfl (treeDepth size)
    ⟨Tree.new size, meter, x⟩ 0 0 none (place_root size) (Tree.get?_new size)
    fun r hr => by
      obtain rfl := Option.some.inj hr
      exact Nat.one_pos
  have hkept := @kept_run σ env 0 ⟨Tree.new size, meter, x⟩
  rw [ends_bind]
  refine (hwalk.and hkept).mono (fun _ st hst => ?_) fun _ _ hst =>
    ⟨(hst.2 (Tree.sound_new hsize)).sound, hst.1.1.root⟩
  have hrooted := And.intro (hst.2 (Tree.sound_new hsize)).sound hst.1.1.root
  unfold node
  rw [ends_bind, ends_get]
  split
  · exact hrooted
  · exact hrooted

end Upload

namespace Tree

theorem Sound.root_free {t : Tree} (h : t.Sound) {id : Nat} (hroot : t.root = some id) :
    (t.free id).2.root = none := by
  obtain ⟨n, hn, -⟩ := h.rooted hroot
  have hparent : n.parent = none := (h.root_iff hn).2 hroot
  have hbelow : (freeBelow n.depth t id).2.root = some id :=
    (freed_freeBelow n.depth t id).root.trans hroot
  rw [free, freeUp.eq_def]
  simp only [hn, hparent, hbelow, if_true]

theorem count_eq_zero {t : Tree} (h : ∀ id : Nat, t.get? id = none) : t.count = 0 := by
  rw [count, Array.countP_eq_zero]
  intro slot hslot
  obtain ⟨id, hid⟩ := Array.mem_iff_getElem?.1 hslot
  have hnone := h id
  rw [get?, hid, Option.join_some] at hnone
  simp [hnone]

end Tree

namespace Files

variable {σ : Type} {s : Suite} {d : Disk} {path : String} {opts : InsertOptions}

/-- Nothing is left of the tree once a walk over it is over, however it ended. -/
theorem count_walkAll {env : Upload.Env σ} {size : Nat} (hsize : size ≤ maxSize) (meter : Meter)
    (x : σ) : (walkAll env ⟨Tree.new size, meter, x⟩).2.tree.count = 0 := by
  have hend := @Upload.ends_rooted σ env size hsize meter x
  unfold walkAll
  rcases hrun : (do Upload.run env 0; Upload.node 0 : Upload.Walk σ Node).run
    ⟨Tree.new size, meter, x⟩ with ⟨result, st⟩
  have hst : st.tree.Sound ∧ st.tree.root = some 0 := by
    cases result with
    | ok n => exact hend.of_ok hrun
    | error e => exact hend.of_error hrun
  simp only [hrun]
  have honward : Tree.Onward Tree.anything st.tree (st.tree.free 0).2 := hst.1.onward_free 0
  exact Tree.count_eq_zero (honward.sound.empty (hst.1.root_free hst.2))

/-- What the journal and the result of an insertion tell. -/
structure Journaled (s : Suite) (src : Source) (priority : UInt32) (index : UInt16)
    (journal : Journal) (result : Except ClientError FileIdentifier) : Prop where
  ordered : journal.map Prod.fst <+: src.insertions s priority index (treeDepth src.size) 0
  rejected : ∀ before m e after, journal = before ++ (m, .error e) :: after →
    after = [] ∧ result = .error (.tree (.network e))
  accepted : (∀ entry ∈ journal, entry.2 = .ok ()) →
    journal.map Prod.fst = src.insertions s priority index (treeDepth src.size) 0 ∧
      result = .ok (src.identifier s)
  /-- With contents sent, the block of an inner node comes after the blocks that its table names. -/
  closed : index = 0 → ∀ before level position after,
    src.places (treeDepth src.size) 0 = before ++ (level + 1, position) :: after →
    before.length < journal.length →
      (journal[before.length]?).map Prod.fst =
        some (.insert priority (src.cipher s (level + 1) position)) ∧
      ∀ chk ∈ (src.table s level position).chks, ∃ block,
        (.insert priority block, .ok ()) ∈ journal.take before.length ∧
          s.hash block.toList = chk.query

theorem closed_of_ordered {src : Source} {priority : UInt32} {journal : Journal}
    (hordered : journal.map Prod.fst <+: src.insertions s priority 0 (treeDepth src.size) 0)
    (hrejected : ∀ before m e after, journal = before ++ (m, .error e) :: after → after = [])
    {before after : List (Nat × Nat)} {level position : Nat}
    (hplaces : src.places (treeDepth src.size) 0 = before ++ (level + 1, position) :: after)
    (hlength : before.length < journal.length) :
    (journal[before.length]?).map Prod.fst =
        some (.insert priority (src.cipher s (level + 1) position)) ∧
      ∀ chk ∈ (src.table s level position).chks, ∃ block,
        (.insert priority block, .ok ()) ∈ journal.take before.length ∧
          s.hash block.toList = chk.query := by
  -- The entry of a number is about the place of that number.
  have hentry : ∀ {i : Nat} {place : Nat × Nat}, i < journal.length →
      (src.places (treeDepth src.size) 0)[i]? = some place →
        (journal[i]?).map Prod.fst = some (.insert priority (src.cipher s place.1 place.2)) := by
    intro i place hi hplace
    have hbound : i < (journal.map Prod.fst).length := by simpa using hi
    obtain ⟨rest, hrest⟩ := hordered
    rw [← List.getElem?_map, ← List.getElem?_append_left hbound, hrest, Source.insertions_raw,
      List.getElem?_map, hplace]
    rfl
  have hself : (src.places (treeDepth src.size) 0)[before.length]? = some (level + 1, position) := by
    simp [hplaces]
  refine ⟨hentry hlength hself, fun chk hchk => ?_⟩
  simp only [Source.table, InnerBlock.ofChildren, List.mem_map] at hchk
  obtain ⟨start, hstart, rfl⟩ := hchk
  have hbefore := Source.childrenFirst_places _ _ before level position after hplaces start hstart
  obtain ⟨i, hi, hchild⟩ := List.mem_iff_getElem.1 hbefore
  have hplace : (src.places (treeDepth src.size) 0)[i]? = some (level, start) := by
    rw [hplaces, List.getElem?_append_left hi, List.getElem?_eq_getElem hi, hchild]
  have hsent := hentry (hi.trans hlength) hplace
  rw [List.getElem?_eq_getElem (hi.trans hlength), Option.map_some, Option.some.injEq] at hsent
  -- What is not last in the journal has been accepted.
  have haccepted : journal[i].2 = .ok () := by
    rcases hverdict : journal[i].2 with e | ⟨⟩
    · have hsplit : journal = journal.take i ++ (journal[i].1, .error e) :: journal.drop (i + 1) := by
        rw [← hverdict, List.getElem_cons_drop, List.take_append_drop]
      have hlast := hrejected _ _ _ _ hsplit
      rw [List.drop_eq_nil_iff] at hlast
      omega
    · rfl
  refine ⟨src.cipher s level start, ?_, rfl⟩
  rw [List.mem_take_iff_getElem]
  exact ⟨i, by omega, Prod.ext hsent haccepted⟩

/-- A message that the receiver has accepted. -/
abbrev taken (m : ClientMessage) : ClientMessage × Except SinkError Unit := (m, .ok ())

theorem ne_of_taken {sent : List ClientMessage} {before after : Journal} {m : ClientMessage}
    {e : SinkError} : sent.map taken ≠ before ++ (m, .error e) :: after := by
  intro heq
  have hmem : (m, .error e) ∈ before ++ (m, .error e) :: after := by simp
  rw [← heq, List.mem_map] at hmem
  obtain ⟨m', -, hm'⟩ := hmem
  cases hm'

theorem map_fst_taken (sent : List ClientMessage) : (sent.map taken).map Prod.fst = sent := by
  simp [Function.comp_def]

theorem journaled_of_taken {src : Source} {priority : UInt32} {index : UInt16}
    {ms : List ClientMessage} (h : ms = src.insertions s priority index (treeDepth src.size) 0) :
    Journaled s src priority index (ms.map taken) (.ok (src.identifier s)) := by
  have hordered : (ms.map taken).map Prod.fst <+:
      src.insertions s priority index (treeDepth src.size) 0 :=
    ⟨[], by rw [map_fst_taken, h, List.append_nil]⟩
  refine ⟨hordered, fun before m e after heq => absurd heq ne_of_taken,
    fun _ => ⟨by rw [map_fst_taken, h], rfl⟩, ?_⟩
  rintro rfl before level position after hplaces hlength
  exact closed_of_ordered hordered (fun before m e after heq => absurd heq ne_of_taken)
    hplaces hlength

theorem journaled_of_rejected {src : Source} {priority : UInt32} {index : UInt16}
    {sent rest : List ClientMessage} {m : ClientMessage} (e : SinkError)
    (h : sent ++ m :: rest = src.insertions s priority index (treeDepth src.size) 0) :
    Journaled s src priority index (sent.map taken ++ [(m, .error e)])
      (.error (.tree (.network e))) := by
  have hordered : (sent.map taken ++ [(m, Except.error e)]).map Prod.fst <+:
      src.insertions s priority index (treeDepth src.size) 0 := by
    rw [List.map_append, map_fst_taken, ← h]
    exact ⟨rest, by simp⟩
  have hlast : ∀ (before : Journal) (m' : ClientMessage) (e' : SinkError) (after : Journal),
      sent.map taken ++ [(m, Except.error e)] = before ++ (m', Except.error e') :: after →
        after = [] ∧ e' = e := by
    intro before m' e' after heq
    obtain rfl | ⟨others, last, rfl⟩ := List.eq_nil_or_concat after
    · have hentry := (List.append_inj' heq rfl).2
      simp only [List.cons.injEq, Prod.mk.injEq, Except.error.injEq, and_true] at hentry
      exact ⟨rfl, hentry.2.symm⟩
    · rw [List.concat_eq_append, ← List.cons_append, ← List.append_assoc] at heq
      exact absurd (List.append_inj' heq rfl).1 ne_of_taken
  refine ⟨hordered, fun before m' e' after heq => ?_, fun hall => ?_, ?_⟩
  · obtain ⟨hnone, rfl⟩ := hlast _ _ _ _ heq
    exact ⟨hnone, rfl⟩
  · have hverdict := hall (m, .error e) (List.mem_append_right _ (List.mem_singleton_self _))
    cases hverdict
  · rintro rfl before level position after hplaces hlength
    exact closed_of_ordered hordered (fun before m' e' after heq => (hlast _ _ _ _ heq).1)
      hplaces hlength

/-- How an insertion ends whose leaves can all be read. -/
theorem ends_insertion {env : Upload.Env σ} {src : Source} (hinsert : env.direction = .insert)
    (hsize : src.size ≤ maxSize) (hsrc : src = env.storage.source env.disk src.size)
    (hheld : ∀ start, Place src.size 0 start → env.storage.HasLeaf env.disk src.size start)
    (meter : Meter) (x : σ) :
    Ends (do Upload.run env 0; Upload.node 0 : Upload.Walk σ Node) ⟨Tree.new src.size, meter, x⟩
      (fun n st => n = Upload.walked env.suite src none (treeDepth src.size) 0 ∧
        Upload.Taken env x (Upload.messages env src (treeDepth src.size) 0) ∧
        st.sink = Upload.delivered env x (Upload.messages env src (treeDepth src.size) 0))
      (fun e st => Upload.CutShort env x (Upload.messages env src (treeDepth src.size) 0) e st.sink) := by
  have hfollows : Upload.Follows env (do Upload.run env 0; Upload.node 0)
      (do Upload.run env.recording 0; Upload.node 0) :=
    (Upload.follows_run hinsert 0).bind fun _ => Upload.follows_node 0
  have hrecorded := @Upload.taken_record env.recording rfl []
    (Upload.messages env.recording src (treeDepth src.size) 0)
  -- The walk that nothing interrupts goes over the whole tree, and this one follows it.
  have hwhole := (@ends_walk _ env.recording src hsize hsrc meter []).and
    (hfollows ⟨Tree.new src.size, meter, x⟩ [])
  obtain ⟨n, after, -, ⟨rfl, hsent, -⟩, ms, hms, hends⟩ := hwhole.exists_ok fun _ _ hfail =>
    hfail.1 ⟨fun start hstart _ => hheld start hstart, hrecorded.1⟩
  rw [hsent, hrecorded.2, List.nil_append, List.nil_append, Upload.messages_recording] at hms
  subst hms
  refine hends.mono ?_ fun _ _ hcut => hcut
  rintro _ _ ⟨rfl, htaken, rfl⟩
  exact ⟨rfl, htaken, rfl⟩

/-- Whatever verdicts the receiver gives, an insertion sends its messages in one order, stops at the
first that is rejected, and leaves nothing of its tree. -/
theorem journaled_of_insert {c : FileContent} (s : Suite) (opts : InsertOptions)
    (hc : d.contentAt path = .ok c) (hsize : c.size ≤ Handle.offsetLimit) (sink : Sink σ) (x : σ) :
    (∃ result x' journal, insert s d path opts sink.logged (x, []) = (result, x', journal) ∧
      Journaled s (Source.ofFile c.toBytes) opts.priority
        (if c.size ≤ leafCapacity then 0 else opts.index) journal result) ∧
    ∀ env start, openWalk s d path opts .insert sink.logged (x, []) = .ok (env, start) →
      (walkAll env start).2.tree.count = 0 := by
  have hmax : c.size ≤ maxSize := hsize.trans (by decide)
  obtain ⟨storage, object, rfl, hobject, -, hopen⟩ := openWalk_eq s opts hc
  refine ⟨?_, fun env start hrun => ?_⟩
  swap
  · rw [hopen] at hrun
    obtain ⟨rfl, rfl⟩ := Prod.mk.inj (Except.ok.inj hrun)
    exact count_walkAll hmax _ _
  let env := walkEnv s d opts (d.content object).size storage .insert sink.logged
  let read := storage.source d (d.content object).size
  have hfilesize : (Source.ofFile (d.content object).toBytes).size = (d.content object).size :=
    FileContent.length_toBytes _
  have hheld : ∀ start, Place (d.content object).size 0 start →
      storage.HasLeaf d (d.content object).size start :=
    fun start hstart => hasLeaf_of_content hobject hsize hstart
  have hmessages : Upload.messages env read (treeDepth (d.content object).size) 0 =
      (Source.ofFile (d.content object).toBytes).insertions s opts.priority env.index
        (treeDepth (Source.ofFile (d.content object).toBytes).size) 0 := by
    rw [hfilesize]
    exact Source.messages_eq (hfilesize ▸ hmax) hfilesize.symm rfl
      (fun level position hplace => block_eq hobject hmax hheld (hfilesize ▸ hplace))
      (hfilesize ▸ place_root _)
  have hends := @ends_insertion _ env read rfl hmax rfl hheld (Meter.new (d.content object).size)
    (x, [])
  rcases hinsert : insert s d path opts sink.logged (x, []) with ⟨result, x', journal⟩
  refine ⟨result, x', journal, rfl, ?_⟩
  have hrun := hinsert
  unfold insert at hrun
  rw [hopen] at hrun
  simp only [walkAll] at hrun
  rcases hwalk : (do Upload.run env 0; Upload.node 0 : Upload.Walk _ Node).run
    ⟨Tree.new (d.content object).size, Meter.new (d.content object).size, (x, [])⟩ with ⟨e | n, st⟩
  · obtain ⟨sent, m, rest, e, hsplit, htaken, hrejected, rfl, hsink⟩ := hends.of_error hwalk
    simp only [env] at hwalk hsink
    rw [hwalk] at hrun
    obtain ⟨rfl, hstate⟩ := Prod.mk.inj hrun
    have hjournal := Upload.journal_rejected rfl htaken hrejected
    rw [← hsink, hstate] at hjournal
    obtain rfl : journal = _ := hjournal
    exact journaled_of_rejected e (hsplit.symm.trans hmessages)
  · obtain ⟨-, htaken, hsink⟩ := hends.of_ok hwalk
    simp only [env] at hwalk hsink
    rw [hwalk] at hrun
    obtain ⟨rfl, hstate⟩ := Prod.mk.inj hrun
    have hjournal := Upload.journal_taken rfl _ _ htaken
    rw [← hsink, hstate] at hjournal
    obtain rfl : journal = _ := hjournal
    obtain ⟨hidentifier, -⟩ := insert_eq_ok hc hmax hinsert
    change Journaled s _ _ _ _ (.ok (identifierOf s _ n))
    rw [hidentifier]
    exact journaled_of_taken hmessages

/-- Accepts as many messages as its state says, and refuses the rest. -/
def limited : Sink Nat := ⟨fun _ n => (if n = 0 then .error .refused else .ok (), n - 1)⟩

/-- Of the three messages for a file of two leaves the second is refused, and the third is not
sent. -/
theorem journaled_of_refused :
    ∃ result x' journal, insert Suite.standard (lone ⟨1025, []⟩) "f" ⟨0, 0⟩ limited.logged (1, []) =
        (result, x', journal) ∧ journal.length = 2 ∧
      Journaled Suite.standard (Source.ofFile (FileContent.toBytes ⟨1025, []⟩)) 0 0 journal result := by
  obtain ⟨⟨result, x', journal, hinsert, hjournaled⟩, -⟩ := journaled_of_insert Suite.standard ⟨0, 0⟩
    (contentAt_lone ⟨1025, []⟩) (by decide) limited (1 : Nat)
  have hlength : (insert Suite.standard (lone ⟨1025, []⟩) "f" ⟨0, 0⟩ limited.logged
      (1, [])).2.2.length = 2 := by decide +kernel
  rw [hinsert] at hlength
  exact ⟨result, x', journal, hinsert, hlength, hjournaled⟩

end Files

end ContentTree

import ContentTree.Proofs.Opposites

/-!
# Walking a tree again

A walk frees the children of an inner node and leaves their slots behind, empty. For the next walk
the node is one that has had its children created and has none left. So a tree of a single leaf can
be walked any number of times, and the root of any other is hollow from the second time on: its block
is that of no children, and nothing is sent but what belongs to it.
-/

namespace ContentTree

def Sink.Accepting {σ : Type} (sink : Sink σ) : Prop := ∀ m x, (sink.submit m x).1 = .ok ()

namespace Upload

/-- A call on a tree: an insertion without a receiver or with one, or a deletion. -/
inductive Visit
  | compute
  | insert
  | delete
  deriving DecidableEq

namespace Visit

def direction : Visit → Upload
  | delete => .delete
  | _ => .insert

/-- These messages of an insertion as the visit sends them. -/
def turned : Visit → List ClientMessage → List ClientMessage
  | delete, ms => ms.map .opposite
  | _, ms => ms

/-- What the receiver has of them. -/
def said : Visit → List ClientMessage → List ClientMessage
  | compute, _ => []
  | v, ms => v.turned ms

def sink {σ : Type} (sink : Sink σ) : Visit → Sink (σ × Journal)
  | compute => ⟨fun _ x => (.ok (), x)⟩
  | _ => sink.logged

end Visit

/-- How the root is after a call that has succeeded, and what the receiver has had in it. -/
structure Report where
  visit : Visit
  chk : Chk
  payload : Bytes
  said : List ClientMessage

section Visits

variable {σ : Type} (env : Env σ)

def Env.visiting (v : Visit) : Env (σ × Journal) where
  suite := env.suite
  disk := env.disk
  storage := env.storage
  direction := v.direction
  priority := env.priority
  index := env.index
  sink := v.sink env.sink

def visit (v : Visit) : Walk (σ × Journal) Report := do
  modify fun st => { st with sink := (st.sink.1, []) }
  run (env.visiting v) 0
  let root ← node 0
  return ⟨v, root.chk, root.payload, (← get).sink.2.map Prod.fst⟩

/-- One call after the other on one tree. -/
def visits : List Visit → Walk (σ × Journal) (List Report)
  | [] => return []
  | v :: vs => do
    let report ← visit env v
    return report :: (← visits vs)

end Visits

/-! ### Reports -/

section Reports

variable (s : Suite) (priority : UInt32) (index : UInt16)

def wholeReport (src : Source) (v : Visit) : Report where
  visit := v
  chk := src.chk s (treeDepth src.size) 0
  payload := src.payload s (treeDepth src.size) 0
  said := v.said (src.insertions s priority index (treeDepth src.size) 0)

/-- The block above no children. -/
def hollowTable : InnerBlock := InnerBlock.ofChildren s [] (s.chain [])

def hollowCipher (length : Nat) : Block :=
  s.encrypt (s.pair length (hollowTable s).encode).key (hollowTable s).encode

def hollowMessages (length : Nat) : List ClientMessage :=
  (if index ≠ 0 then [.indexSuper priority (hollowTable s).superHash] else []) ++
    [.insert priority (hollowCipher s length)]

/-- The report of a call that finds the root without children. -/
def hollowReport (size : Nat) (v : Visit) : Report where
  visit := v
  chk := s.pair (nodeLength size (treeDepth size) 0) (hollowTable s).encode
  payload := (hollowTable s).encode.toList.take (nodeLength size (treeDepth size) 0)
  said := v.said (hollowMessages s priority index (nodeLength size (treeDepth size) 0))

@[simp]
theorem visit_hollowReport (size : Nat) (v : Visit) :
    (hollowReport s priority index size v).visit = v := rfl

end Reports

/-! ### An inner node that has been walked -/

/-- The children of the node have been created, and none is left. -/
structure Spent (n : Node) : Prop where
  depth_pos : 0 < n.depth
  slots : n.slots?.isSome
  childless : n.childIds = []

/-- What a walk makes of such a node. -/
def hollowed (s : Suite) (n : Node) : Node :=
  let data := (hollowTable s).encode
  Node.setTable { n with
    status := .persistent
    data := some data
    chk := s.pair n.length data } (hollowTable s)

section Hollowed

variable {s : Suite} {n : Node}

theorem Spent.exists_inner (h : Spent n) :
    ∃ i, n.inner? = some i ∧ n.kind = .inner i ∧ i.children.isSome := by
  obtain ⟨slots, hslots⟩ := Option.isSome_iff_exists.1 h.slots
  obtain ⟨i, hi, hchildren⟩ := Option.bind_eq_some_iff.1 hslots
  exact ⟨i, hi, Node.inner?_eq_some.1 hi, by rw [hchildren]; rfl⟩

theorem spent_hollowed (s : Suite) (h : Spent n) : Spent (hollowed s n) := by
  obtain ⟨i, -, hkind, -⟩ := h.exists_inner
  have hdepth : (hollowed s n).depth = n.depth := by
    simp [hollowed, Node.setTable, Node.modifyInner, Node.depth, Node.inner?, hkind]
  have hslots : (hollowed s n).slots? = n.slots? := by
    simp [hollowed, Node.setTable, Node.modifyInner, Node.slots?, Node.inner?, hkind]
  refine ⟨hdepth ▸ h.depth_pos, hslots ▸ h.slots, ?_⟩
  rw [Node.childIds, hslots]
  exact h.childless

theorem hollowed_fields (s : Suite) (n : Node) : (hollowed s n).length = n.length ∧
    (hollowed s n).chk = s.pair n.length (hollowTable s).encode ∧
    (hollowed s n).payload = (hollowTable s).encode.toList.take n.length := by
  cases hkind : n.kind <;>
    simp [hollowed, Node.setTable, Node.modifyInner, hkind, Node.payload, Node.payload?]

end Hollowed

section Again

variable {σ : Type} {env : Env σ} {id : Nat} {n : Node} {st : State σ}

/-- The messages of a node that is found without children. -/
def againMessages (env : Env σ) (length : Nat) : List ClientMessage :=
  (if env.index ≠ 0 then
    [env.direction.superMessage env.priority (hollowTable env.suite).superHash] else []) ++
  [env.direction.blockMessage env.priority (hollowCipher env.suite length)]

theorem sealed_hollow (s : Suite) (n : Node) (h : Spent n) :
    Node.sealed s (Node.setTable { n with
        status := .persistent
        data := some (hollowTable s).encode } (hollowTable s)) =
      (hollowed s n, hollowCipher s n.length) := by
  obtain ⟨i, -, hkind, -⟩ := h.exists_inner
  rw [Node.sealed_eq _ _ (hollowTable s).encode
    (by simp [Node.setTable, Node.modifyInner, hkind])]
  simp only [hollowed, hollowCipher, Node.setTable, Node.modifyInner, hkind]

theorem allocateChildren_of_spent {t : Tree} (hn : t.get? id = some n) (h : Spent n) :
    t.allocateChildren id = (some [], t) := by
  obtain ⟨i, hi, -, hchildren⟩ := h.exists_inner
  simp only [Tree.allocateChildren, hn, hi, if_pos hchildren]
  rw [h.childless]

/-- The node's own block goes last. -/
theorem ends_hollow_block (hn : st.tree.get? id = some { n with status := .persistent })
    (h : Spent n) :
    Ends (do
      let n ← node id
      let result := Node.sealed env.suite (Node.setTable
        { n with data := some (hollowTable env.suite).encode } (hollowTable env.suite))
      onTree (·.set id result.1)
      send env (env.direction.blockMessage env.priority result.2)) st
      (fun _ st' => st'.tree.get? id = some (hollowed env.suite n) ∧
        st'.sink = delivered env st.sink
          [env.direction.blockMessage env.priority (hollowCipher env.suite n.length)] ∧
        Accepted env st.sink
          [env.direction.blockMessage env.priority (hollowCipher env.suite n.length)])
      (fun _ _ => ¬ Accepted env st.sink
        [env.direction.blockMessage env.priority (hollowCipher env.suite n.length)]) := by
  rw [ends_bind]
  refine ends_node hn ?_
  simp only [sealed_hollow env.suite n h]
  rw [ends_bind, ends_onTree]
  refine ends_send (blockMessage_ne _ _ _) (fun haccepted => ⟨?_, rfl, haccepted⟩)
    fun hrefused _ => hrefused
  rw [Tree.get?_set hn, if_pos rfl]

/-- A walk over a node whose children are gone sends what belongs to the node alone. -/
theorem ends_run_spent (hn : st.tree.get? id = some n) (h : Spent n) :
    Ends (run env id) st
      (fun _ st' => st'.tree.get? id = some (hollowed env.suite n) ∧
        st'.sink = delivered env st.sink (againMessages env n.length) ∧
        Accepted env st.sink (againMessages env n.length))
      (fun _ _ => ¬ Accepted env st.sink (againMessages env n.length)) := by
  obtain ⟨level, hlevel⟩ : ∃ level, n.depth = level + 1 := ⟨n.depth - 1, by have := h.depth_pos; omega⟩
  have hinner : n.isInner = true := by
    obtain ⟨i, hi, -, -⟩ := h.exists_inner
    rw [Node.isInner, hi]
    rfl
  let opened : Node := { n with status := .persistent }
  have hspent : Spent opened := ⟨h.depth_pos, h.slots, h.childless⟩
  have hstatus : st.tree.setStatus id .persistent = st.tree.set id opened :=
    Tree.setStatus_eq_set hn .persistent
  have hopened : (st.tree.set id opened).get? id = some opened := by
    rw [Tree.get?_set hn, if_pos rfl]
  unfold run
  rw [ends_bind]
  refine ends_node hn ?_
  rw [hlevel, subtree, ends_bind]
  refine ends_node hn ?_
  rw [if_pos hinner]
  unfold inner
  rw [ends_bind, ends_onTree, hstatus, ends_bind, ends_modifyGet]
  simp only [allocateChildren_of_spent hopened hspent, Option.getD_some]
  rw [ends_bind, children.eq_def, ends_pure]
  change Ends (if env.index ≠ 0 then _ else _) _ _ _
  unfold againMessages
  split
  · rw [ends_bind, delivered_append, accepted_append]
    refine ends_sendSuper (fun hpassed => ?_) fun hrefused _ hall => hrefused hall.1
    refine (ends_hollow_block hopened h).mono ?_ fun _ _ hstopped hall => hstopped hall.2
    rintro _ st' ⟨hself, hsink, haccepted⟩
    exact ⟨hself, hsink, hpassed, haccepted⟩
  · exact ends_hollow_block hopened h

/-- A walk over a leaf does again what the first one did. -/
theorem ends_run_leaf_again {src : Source} {position : Nat} {parent : Option NodeId}
    (hsrc : src = env.storage.source env.disk src.size)
    (hheld : env.storage.HasLeaf env.disk src.size position)
    (hn : st.tree.get? id = some (walked env.suite src parent 0 position)) :
    Ends (run env id) st
      (fun _ st' => st'.tree.get? id = some (walked env.suite src parent 0 position) ∧
        st'.sink = delivered env st.sink (messages env src 0 position) ∧
        Accepted env st.sink (messages env src 0 position))
      (fun _ _ => ¬ Accepted env st.sink (messages env src 0 position)) := by
  have hleaf : (walked env.suite src parent 0 position).isInner = false := by
    have hinner : (walked env.suite src parent 0 position).inner? =
        (Node.new src.size position 0 parent).inner? := rfl
    rw [Node.isInner, hinner, Node.inner?_new]
    rfl
  have hlength : (walked env.suite src parent 0 position).length = leafLength src.size position :=
    Node.length_new _ _ _ _
  have hread : env.storage.readBlock env.disk 0 (walked env.suite src parent 0 position).position
      (walked env.suite src parent 0 position).length = .ok (src.block env.suite 0 position) := by
    rw [position_walked, hlength, Storage.readBlock_of_hasLeaf hheld, ← hsrc]
    rfl
  have hsealed : Node.sealed env.suite { walked env.suite src parent 0 position with
      data := some (src.block env.suite 0 position) } =
        (walked env.suite src parent 0 position, src.cipher env.suite 0 position) := by
    rw [Node.sealed_eq _ _ (src.block env.suite 0 position) rfl]
    rfl
  unfold run
  rw [ends_bind]
  refine ends_node hn ?_
  rw [depth_walked, subtree, ends_bind]
  refine ends_node hn ?_
  simp only [hleaf, Bool.false_eq_true, if_false]
  unfold leaf
  rw [ends_bind]
  refine ends_node hn ?_
  rw [hread, ends_bind, ends_liftM]
  refine ⟨fun data hdata => ?_, fun _ herror => by cases herror⟩
  obtain rfl := Except.ok.inj hdata
  simp only [hsealed]
  rw [ends_bind, ends_modify]
  refine ends_send (leafMessage_ne src position) (fun haccepted => ⟨?_, rfl, haccepted⟩)
    fun hrefused _ => hrefused
  rw [Tree.get?_set hn, if_pos rfl]

end Again

/-! ### Visits -/

section Visits

variable {σ : Type} {env : Env σ} {v : Visit} {st : State (σ × Journal)} {x : σ}
  {ms : List ClientMessage}

theorem accepted_visiting (h : env.sink.Accepting) (v : Visit) (y : σ × Journal)
    (ms : List ClientMessage) : Accepted (env.visiting v) y ms := by
  induction ms generalizing y with
  | nil => trivial
  | cons m ms ih =>
    refine ⟨.inl ?_, ih _⟩
    cases v
    · rfl
    · exact h m y.1
    · exact h m y.1

theorem delivered_visiting (h : Accepted (env.visiting v) (x, []) (v.turned ms)) :
    (delivered (env.visiting v) (x, []) (v.turned ms)).2.map Prod.fst = v.said ms := by
  cases v with
  | compute =>
    have hkept : ∀ (y : σ × Journal) (ms : List ClientMessage),
        delivered (env.visiting .compute) y ms = y := by
      intro y ms
      induction ms with
      | nil => rfl
      | cons m ms ih => exact ih
    rw [hkept]
    rfl
  | insert =>
    obtain ⟨journal, hjournal, hms, -⟩ := @journal_accepted _ _ (env.visiting .insert) rfl _ _ h
    rw [hjournal]
    exact hms
  | delete =>
    obtain ⟨journal, hjournal, hms, -⟩ := @journal_accepted _ _ (env.visiting .delete) rfl _ _ h
    rw [hjournal]
    exact hms

theorem againMessages_visiting (length : Nat) : againMessages (env.visiting v) length =
    v.turned (hollowMessages env.suite env.priority env.index length) := by
  have hindex : (env.visiting v).index = env.index := rfl
  unfold againMessages hollowMessages
  rw [hindex]
  cases v <;> split <;> rfl

theorem messages_visiting {src src' : Source} (hsize : src.size ≤ maxSize)
    (hsame : src'.size = src.size)
    (hblock : ∀ level position, Place src.size level position →
      src'.block env.suite level position = src.block env.suite level position)
    {level position : Nat} (hplace : Place src.size level position) :
    messages (env.visiting v) src' level position =
      v.turned (src.insertions env.suite env.priority env.index level position) := by
  have hinsert : ∀ {τ : Type} {other : Env τ}, other.suite = env.suite →
      other.priority = env.priority → other.index = env.index → other.direction = .insert →
      messages other src' level position =
        src.insertions env.suite env.priority env.index level position := by
    intro τ other hsuite hpriority hindex hdirection
    rw [Source.messages_eq hsize hsame hdirection (by rwa [hsuite]) hplace, hsuite, hpriority, hindex]
  cases v with
  | compute => exact hinsert rfl rfl rfl rfl
  | insert => exact hinsert rfl rfl rfl rfl
  | delete =>
    rw [messages_opposite rfl, @hinsert _ (env.visiting .delete).opposite rfl rfl rfl rfl]
    rfl

/-- What a visit reports follows from how its walk ends. -/
theorem ends_visit {chk : Chk} {payload : Bytes} {settled : Tree → Prop}
    (h : Ends (run (env.visiting v) 0) ⟨st.tree, st.meter, (st.sink.1, [])⟩
      (fun _ st' => ((∃ n, st'.tree.get? 0 = some n ∧ n.chk = chk ∧ n.payload = payload) ∧
          settled st'.tree) ∧
        st'.sink = delivered (env.visiting v) (st.sink.1, []) (v.turned ms) ∧
        Accepted (env.visiting v) (st.sink.1, []) (v.turned ms))
      (fun _ _ => ¬ Accepted (env.visiting v) (st.sink.1, []) (v.turned ms))) :
    Ends (visit env v) st
      (fun report st' => report = ⟨v, chk, payload, v.said ms⟩ ∧ settled st'.tree)
      (fun _ _ => ¬ env.sink.Accepting) := by
  unfold visit
  rw [ends_bind, ends_modify, ends_bind]
  refine h.mono ?_ fun _ _ hstopped haccepting => hstopped (accepted_visiting haccepting v _ _)
  rintro _ st' ⟨⟨⟨n, hn, rfl, rfl⟩, hsettled⟩, hsink, haccepted⟩
  rw [ends_bind]
  refine ends_node hn ?_
  rw [ends_bind, ends_get, ends_pure]
  exact ⟨by rw [hsink, delivered_visiting haccepted], hsettled⟩

/-- The root as a visit leaves it: a leaf as a walk makes it, or an inner node without children. -/
structure Settled (env : Env σ) (size : Nat) (t : Tree) : Prop where
  leaf : treeDepth size = 0 →
    t.get? 0 = some (walked env.suite (env.storage.source env.disk size) none 0 0)
  inner : 0 < treeDepth size →
    ∃ n, t.get? 0 = some n ∧ Spent n ∧ n.length = nodeLength size (treeDepth size) 0

/-- The report of a call that is not the first. -/
def laterReport (s : Suite) (priority : UInt32) (index : UInt16) (src : Source) (v : Visit) : Report :=
  if src.size ≤ leafCapacity then wholeReport s priority index src v
  else hollowReport s priority index src.size v

theorem settled_of_walked {size : Nat} {t : Tree}
    (h : t.get? 0 = some (walked env.suite (env.storage.source env.disk size) none (treeDepth size) 0)) :
    Settled env size t where
  leaf hzero := by rwa [hzero] at h
  inner hpos := by
    obtain ⟨level, hlevel⟩ : ∃ level, treeDepth size = level + 1 := ⟨treeDepth size - 1, by omega⟩
    rw [hlevel] at h ⊢
    refine ⟨_, h, ⟨?_, rfl, childIds_walked _ _ _ _ _⟩, Node.length_new size 0 (level + 1) none⟩
    rw [depth_walked]
    exact Nat.succ_pos level

section OfFile

variable {src : Source} (hsize : src.size ≤ maxSize)
  (hblock : ∀ level position, Place src.size level position →
    (env.storage.source env.disk src.size).block env.suite level position =
      src.block env.suite level position)
  (hheld : ∀ start, Place src.size 0 start → env.storage.HasLeaf env.disk src.size start)

include hsize hblock hheld

theorem ends_visit_first (v : Visit) (meter : Meter) (y : σ × Journal) :
    Ends (visit env v) ⟨Tree.new src.size, meter, y⟩
      (fun report st => report = wholeReport env.suite env.priority env.index src v ∧
        Settled env src.size st.tree)
      (fun _ _ => ¬ env.sink.Accepting) := by
  have hroot := hblock _ _ (place_root src.size)
  have hmessages := @messages_visiting _ env v src (env.storage.source env.disk src.size) hsize rfl
    hblock _ _ (place_root src.size)
  have hwalk := @walks_run _ (env.visiting v) (env.storage.source env.disk src.size) hsize rfl
    (treeDepth src.size) ⟨Tree.new src.size, meter, (y.1, [])⟩ 0 0 none (place_root src.size) (Tree.get?_new src.size)
    fun r hr => by
      obtain rfl := Option.some.inj hr
      exact Nat.one_pos
  rw [hmessages] at hwalk
  refine ends_visit (hwalk.mono ?_ fun _ _ hstopped haccepted =>
    hstopped.2 ⟨fun start hstart _ => hheld start hstart, haccepted⟩)
  rintro _ st ⟨hpadded, hsink, -, haccepted⟩
  have hself : st.tree.get? 0 = some (walked env.suite
      (env.storage.source env.disk src.size) none (treeDepth src.size) 0) := by
    rw [hpadded.get?, Tree.get?_set (Tree.get?_new src.size), if_pos rfl]
    rfl
  refine ⟨⟨⟨_, hself, ?_, ?_⟩, settled_of_walked hself⟩, hsink, haccepted⟩
  · rw [chk_walked, Source.chk, Source.chk, hroot]
    rfl
  · rw [payload_walked, Source.payload, Source.payload, hroot]
    rfl

theorem ends_visit_again (v : Visit) (hsettled : Settled env src.size st.tree) :
    Ends (visit env v) st
      (fun report st' => report = laterReport env.suite env.priority env.index src v ∧
        Settled env src.size st'.tree)
      (fun _ _ => ¬ env.sink.Accepting) := by
  unfold laterReport
  rcases Nat.eq_zero_or_pos (treeDepth src.size) with hzero | hpos
  · rw [if_pos (treeDepth_eq_zero.1 hzero)]
    have hplace := place_root src.size
    have hroot := hblock _ _ hplace
    have hmessages := @messages_visiting _ env v src (env.storage.source env.disk src.size) hsize rfl
      hblock _ _ hplace
    rw [hzero] at hplace hroot hmessages
    have hends := @ends_run_leaf_again _ (env.visiting v) 0 ⟨st.tree, st.meter, (st.sink.1, [])⟩
      (env.storage.source env.disk src.size) 0 none rfl (hheld 0 hplace) (hsettled.leaf hzero)
    rw [hmessages] at hends
    refine @ends_visit _ _ _ _ (src.insertions env.suite env.priority env.index (treeDepth src.size) 0)
      _ _ (Settled env src.size) ?_
    rw [hzero]
    refine hends.mono ?_ fun _ _ hstopped => hstopped
    rintro _ st' ⟨hself, hsink, haccepted⟩
    refine ⟨⟨⟨_, hself, ?_, ?_⟩, fun _ => hself, fun hpos => absurd hzero hpos.ne'⟩, hsink, haccepted⟩
    · rw [chk_walked, Source.chk, Source.chk]
      exact congrArg _ hroot
    · rw [payload_walked, Source.payload, Source.payload]
      exact congrArg (fun data : Block => data.toList.take _) hroot
  · rw [if_neg fun hle => hpos.ne' (treeDepth_eq_zero.2 hle)]
    obtain ⟨n, hn, hspent, hlength⟩ := hsettled.inner hpos
    have hends := @ends_run_spent _ (env.visiting v) 0 n ⟨st.tree, st.meter, (st.sink.1, [])⟩ hn hspent
    rw [againMessages_visiting, hlength] at hends
    refine @ends_visit _ _ _ _ _ _ _ (Settled env src.size)
      (hends.mono ?_ fun _ _ hstopped => hstopped)
    rintro _ st' ⟨hself, hsink, haccepted⟩
    obtain ⟨hlength', hchk, hpayload⟩ := hollowed_fields env.suite n
    rw [hlength] at hchk hpayload hlength'
    exact ⟨⟨⟨_, hself, hchk, hpayload⟩, fun hzero => absurd hzero hpos.ne',
      fun _ => ⟨_, hself, spent_hollowed env.suite hspent, hlength'⟩⟩, hsink, haccepted⟩

theorem ends_visits_again (vs : List Visit) (hsettled : Settled env src.size st.tree) :
    Ends (visits env vs) st
      (fun reports _ => reports = vs.map (laterReport env.suite env.priority env.index src))
      (fun _ _ => ¬ env.sink.Accepting) := by
  induction vs generalizing st with
  | nil => exact rfl
  | cons v vs ih =>
    unfold visits
    rw [ends_bind]
    refine (ends_visit_again hsize hblock hheld v hsettled).mono ?_ fun _ _ hstopped => hstopped
    rintro _ st' ⟨rfl, hsettled'⟩
    rw [ends_bind]
    refine (ih hsettled').mono ?_ fun _ _ hstopped => hstopped
    rintro _ _ rfl
    exact rfl

theorem ends_visits (v : Visit) (later : List Visit) (meter : Meter) (y : σ × Journal) :
    Ends (visits env (v :: later)) ⟨Tree.new src.size, meter, y⟩
      (fun reports _ => reports = wholeReport env.suite env.priority env.index src v ::
        later.map (laterReport env.suite env.priority env.index src))
      (fun _ _ => ¬ env.sink.Accepting) := by
  unfold visits
  rw [ends_bind]
  refine (ends_visit_first hsize hblock hheld v meter y).mono ?_ fun _ _ hstopped => hstopped
  rintro _ st ⟨rfl, hsettled⟩
  rw [ends_bind]
  refine (ends_visits_again hsize hblock hheld later hsettled).mono ?_ fun _ _ hstopped => hstopped
  rintro _ _ rfl
  exact rfl

end OfFile

end Visits

end Upload

/-! ### One message for each place -/

namespace Source

variable {s : Suite} {src : Source} {priority : UInt32} {index : UInt16}

/-- The message with the content of a place, or for a leaf with its entry. -/
def placeMessage (s : Suite) (src : Source) (priority : UInt32) (index : UInt16) :
    Nat × Nat → ClientMessage
  | (0, position) =>
    if index = 0 then .insert priority (src.cipher s 0 position)
    else .index ⟨(src.chk s 0 position).query, priority, Lookup.sharedLeaf.code, index,
      UInt64.ofNat position⟩
  | (level + 1, position) => .insert priority (src.cipher s (level + 1) position)

theorem placeMessages_sublist (level position : Nat) :
    ((src.places level position).map (src.placeMessage s priority index)).Sublist
      (src.insertions s priority index level position) := by
  induction level generalizing position with
  | zero => exact List.Sublist.refl _
  | succ level ih =>
    have hchildren : ∀ starts : List Nat,
        (starts.flatMap fun start =>
          (src.places level start).map (src.placeMessage s priority index)).Sublist
            (starts.flatMap (src.insertions s priority index level)) := by
      intro starts
      induction starts with
      | nil => exact List.Sublist.refl _
      | cons start starts ih' => exact (ih start).append ih'
    rw [places, insertions, List.map_append, List.map_flatMap]
    exact (hchildren _).append (List.sublist_append_right _ _)

/-- A tree with an inner root has two leaves or more. -/
theorem three_le_length_places (hsize : src.size ≤ maxSize) (hlarge : leafCapacity < src.size) :
    3 ≤ (src.places (treeDepth src.size) 0).length := by
  obtain ⟨level, hlevel⟩ : ∃ level, treeDepth src.size = level + 1 := by
    have hpos : treeDepth src.size ≠ 0 := fun hzero =>
      absurd (treeDepth_eq_zero.1 hzero) (Nat.not_le.2 hlarge)
    exact ⟨treeDepth src.size - 1, by omega⟩
  have hplace := place_root src.size
  have hspan : span level < src.size := by
    by_contra hle
    have hdepth := treeDepth_le (Nat.not_lt.1 hle)
    omega
  have hcount : 2 ≤ (src.starts level 0).length := by
    rw [length_starts]
    exact (lt_childCount_iff hsize ((hlevel ▸ hplace).level_lt hsize)).2 ⟨by decide, by omega⟩
  have hplaces : ∀ starts : List Nat,
      starts.length ≤ (starts.flatMap (src.places level)).length := by
    intro starts
    induction starts with
    | nil => exact Nat.le_refl _
    | cons start starts ih =>
      have hself := List.length_pos_of_mem (src.self_mem_places level start)
      rw [List.flatMap_cons, List.length_append, List.length_cons]
      omega
  have hall := hplaces (src.starts level 0)
  rw [hlevel, places, List.length_append, List.length_singleton]
  omega

end Source

namespace Upload

/-- After each call the root is as after the first one, and each call with a receiver has sent its
own message for every place of the file. -/
structure Steady (own : List ClientMessage) (reports : List Report) : Prop where
  root : ∀ first ∈ reports.head?, ∀ report ∈ reports,
    report.chk = first.chk ∧ report.payload = first.payload
  sent : ∀ report ∈ reports, report.visit ≠ .compute →
    (report.visit.turned own).Sublist report.said

section Steady

variable {s : Suite} {src : Source} {priority : UInt32} {index : UInt16} {v : Visit}
  {later : List Visit}

theorem said_of_ne (hv : v ≠ .compute) (ms : List ClientMessage) : v.said ms = v.turned ms := by
  cases v
  · exact absurd rfl hv
  · rfl
  · rfl

theorem turned_sublist {ms ms' : List ClientMessage} (h : ms.Sublist ms') (v : Visit) :
    (v.turned ms).Sublist (v.turned ms') := by
  cases v
  · exact h
  · exact h
  · exact h.map _

theorem length_turned (v : Visit) (ms : List ClientMessage) : (v.turned ms).length = ms.length := by
  cases v
  · rfl
  · rfl
  · exact List.length_map _

/-- A call that finds the root without children sends too little. -/
theorem not_sublist_of_hollow (hsize : src.size ≤ maxSize) (hlarge : leafCapacity < src.size)
    (hv : v ≠ .compute) :
    ¬ (v.turned ((src.places (treeDepth src.size) 0).map (src.placeMessage s priority index))).Sublist
      (hollowReport s priority index src.size v).said := by
  intro hsublist
  have hle := hsublist.length_le
  have hplaces := Source.three_le_length_places hsize hlarge
  have hshort : (hollowMessages s priority index
      (nodeLength src.size (treeDepth src.size) 0)).length ≤ 2 := by
    unfold hollowMessages
    split <;> simp
  rw [hollowReport, said_of_ne hv, length_turned, length_turned, List.length_map] at hle
  omega

/-- Calls that each go over the whole file leave the same root and send all messages. -/
theorem steady_of_whole {reports : List Report}
    (h : ∀ report ∈ reports, ∃ v, report = wholeReport s priority index src v) :
    Steady ((src.places (treeDepth src.size) 0).map (src.placeMessage s priority index)) reports where
  root first hfirst report hreport := by
    obtain ⟨v, rfl⟩ := h first (List.mem_of_head? hfirst)
    obtain ⟨w, rfl⟩ := h report hreport
    exact ⟨rfl, rfl⟩
  sent report hreport hne := by
    obtain ⟨v, rfl⟩ := h report hreport
    change v ≠ .compute at hne
    change (v.turned _).Sublist (v.said _)
    rw [said_of_ne hne]
    exact turned_sublist (Source.placeMessages_sublist _ _) v

theorem steady_iff (hsize : src.size ≤ maxSize) :
    Steady ((src.places (treeDepth src.size) 0).map (src.placeMessage s priority index))
        (wholeReport s priority index src v :: later.map (laterReport s priority index src)) ↔
      src.size ≤ leafCapacity ∨ later = [] ∨ (∀ w ∈ later, w = .compute) ∧
        hollowReport s priority index src.size .compute = wholeReport s priority index src .compute := by
  constructor
  · intro hsteady
    by_contra hnone
    rw [not_or, not_or] at hnone
    obtain ⟨hlarge, hlater, hhollow⟩ := hnone
    have hreport : ∀ w ∈ later, hollowReport s priority index src.size w ∈
        wholeReport s priority index src v :: later.map (laterReport s priority index src) := by
      intro w hw
      refine List.mem_cons_of_mem _ (List.mem_map.2 ⟨w, hw, ?_⟩)
      rw [laterReport, if_neg hlarge]
    have hcompute : ∀ w ∈ later, w = .compute := by
      intro w hw
      by_contra hne
      exact not_sublist_of_hollow hsize (Nat.lt_of_not_le hlarge) hne
        (hsteady.sent _ (hreport w hw) hne)
    obtain ⟨w, hw⟩ := List.exists_mem_of_ne_nil later hlater
    obtain ⟨hchk, hpayload⟩ := hsteady.root _ rfl _ (hreport w hw)
    refine hhollow ⟨hcompute, ?_⟩
    rw [hollowReport, wholeReport]
    exact congrArg₂ (fun chk payload => (⟨.compute, chk, payload, []⟩ : Report)) hchk hpayload
  · intro hcases
    have hsame : ∀ w ∈ later,
        laterReport s priority index src w = wholeReport s priority index src w := by
      intro w hw
      unfold laterReport
      split
      · rfl
      · rename_i hlarge
        rcases hcases with hsmall | rfl | ⟨hcompute, hhollow⟩
        · exact absurd hsmall hlarge
        · cases hw
        · obtain rfl := hcompute w hw
          exact hhollow
    refine steady_of_whole fun report hreport => ?_
    rcases List.mem_cons.1 hreport with rfl | hreport
    · exact ⟨v, rfl⟩
    · obtain ⟨w, hw, rfl⟩ := List.mem_map.1 hreport
      exact ⟨w, hsame w hw⟩

end Steady

end Upload

namespace Files

open Upload (Visit Report Steady visits wholeReport hollowReport laterReport)

variable {d : Disk} {path : String} {c : FileContent}

/-- How calls on one new tree over a file end. -/
theorem ends_visits_of_content (s : Suite) (opts : InsertOptions) (hc : d.contentAt path = .ok c)
    (hsize : c.size ≤ Handle.offsetLimit) :
    ∃ storage, Storage.openReadable d c.size path = .ok storage ∧
      ∀ {σ : Type} (sink : Sink σ) (x : σ) (v : Visit) (later : List Visit),
        Ends (visits (callEnv s d opts storage .insert sink) (v :: later))
          ⟨Tree.new c.size, Meter.new c.size, (x, [])⟩
          (fun reports _ => reports =
            wholeReport s opts.priority opts.index (Source.ofFile c.toBytes) v ::
              later.map (laterReport s opts.priority opts.index (Source.ofFile c.toBytes)))
          (fun _ _ => ¬ sink.Accepting) := by
  have hmax : c.size ≤ maxSize := hsize.trans (by decide)
  have hfilesize : (Source.ofFile c.toBytes).size = c.size := FileContent.length_toBytes c
  obtain ⟨storage, hopen, hheld, hblock⟩ := openReadable_eq_ok s hc hsize
  refine ⟨storage, hopen, fun sink x v later => ?_⟩
  have hends := @Upload.ends_visits _ (callEnv s d opts storage .insert sink)
    (Source.ofFile c.toBytes) (hfilesize ▸ hmax) (hfilesize.symm ▸ hblock)
    (hfilesize.symm ▸ hheld) v later (Meter.new c.size) (x, [])
  rwa [hfilesize] at hends

/-- The calls that are made on one tree over a file, one after the other. The first goes over the
whole file. For a file of one leaf the others do too, and otherwise they find the root without
children, make a hollow block of it and send nothing else. So the tree is steady just if the file is
one leaf or no later call is made, unless nothing is sent later and the hollow block happens to be
the right one. -/
theorem steady_iff_leaf (s : Suite) (opts : InsertOptions) (hc : d.contentAt path = .ok c)
    (hsize : c.size ≤ Handle.offsetLimit) :
    ∃ storage, Storage.openReadable d c.size path = .ok storage ∧
      ∀ {σ : Type} (sink : Sink σ) (x : σ) (v : Visit) (later : List Visit),
        let src := Source.ofFile c.toBytes
        let env := callEnv s d opts storage .insert sink
        let start : Upload.State (σ × Journal) := ⟨Tree.new c.size, Meter.new c.size, (x, [])⟩
        (sink.Accepting → ∃ reports st, (visits env (v :: later)).run start = (.ok reports, st)) ∧
        ∀ reports st, (visits env (v :: later)).run start = (.ok reports, st) →
          reports = wholeReport s opts.priority opts.index src v ::
            later.map (fun w =>
              if c.size ≤ leafCapacity then wholeReport s opts.priority opts.index src w
              else hollowReport s opts.priority opts.index c.size w) ∧
          (Steady ((src.places (treeDepth c.size) 0).map
              (src.placeMessage s opts.priority opts.index)) reports ↔
            c.size ≤ leafCapacity ∨ later = [] ∨ (∀ w ∈ later, w = .compute) ∧
              hollowReport s opts.priority opts.index c.size .compute =
                wholeReport s opts.priority opts.index src .compute) := by
  have hfilesize : (Source.ofFile c.toBytes).size = c.size := FileContent.length_toBytes _
  obtain ⟨storage, hopen, hvisits⟩ := ends_visits_of_content s opts hc hsize
  refine ⟨storage, hopen, fun sink x v later => ?_⟩
  intro src env start
  have hends := hvisits sink x v later
  constructor
  · intro haccepting
    obtain ⟨reports, st, hrun, -⟩ := hends.exists_ok fun _ _ hstopped => hstopped haccepting
    exact ⟨reports, st, hrun⟩
  · intro reports st hrun
    obtain rfl := hends.of_ok hrun
    have hsteady := @Upload.steady_iff s src opts.priority opts.index v later
      (hfilesize ▸ hsize.trans (by decide))
    rw [hfilesize] at hsteady
    refine ⟨congrArg _ (List.map_congr_left fun w _ => ?_), hsteady⟩
    rw [laterReport, hfilesize]

theorem steady_iff_leaf_of_lone :
    ∃ storage reports st, Storage.openReadable (lone ⟨1000, []⟩) 1000 "f" = .ok storage ∧
      (visits (callEnv Suite.standard (lone ⟨1000, []⟩) ⟨5, 0⟩ storage .insert Sink.discard)
        [.insert, .delete, .compute]).run
        ⟨Tree.new 1000, Meter.new 1000, ((), [])⟩ = (.ok reports, st) ∧
      Steady (((Source.ofFile (FileContent.toBytes ⟨1000, []⟩)).places (treeDepth 1000) 0).map
        ((Source.ofFile (FileContent.toBytes ⟨1000, []⟩)).placeMessage Suite.standard 5 0)) reports := by
  obtain ⟨storage, hopen, hvisits⟩ := steady_iff_leaf Suite.standard ⟨5, 0⟩ (contentAt_lone ⟨1000, []⟩)
    (by decide)
  obtain ⟨hruns, hsteady⟩ := hvisits Sink.discard () .insert [.delete, .compute]
  obtain ⟨reports, st, hrun⟩ := hruns fun _ _ => rfl
  exact ⟨storage, reports, st, hopen, hrun, (hsteady reports st hrun).2.2 (.inl (by decide))⟩

/-- Of two insertions of a file of two leaves over one tree the second does not send the leaves. -/
theorem unsteady_of_second_insertion :
    ∃ storage reports st, Storage.openReadable (lone ⟨2000, []⟩) 2000 "f" = .ok storage ∧
      (visits (callEnv Suite.standard (lone ⟨2000, []⟩) ⟨5, 0⟩ storage .insert Sink.discard)
        [.insert, .insert]).run
        ⟨Tree.new 2000, Meter.new 2000, ((), [])⟩ = (.ok reports, st) ∧
      ¬ Steady (((Source.ofFile (FileContent.toBytes ⟨2000, []⟩)).places (treeDepth 2000) 0).map
        ((Source.ofFile (FileContent.toBytes ⟨2000, []⟩)).placeMessage Suite.standard 5 0)) reports := by
  have hfilesize : (Source.ofFile (FileContent.toBytes ⟨2000, []⟩)).size = 2000 :=
    FileContent.length_toBytes _
  obtain ⟨storage, hopen, hvisits⟩ := ends_visits_of_content Suite.standard ⟨5, 0⟩
    (contentAt_lone ⟨2000, []⟩) (by decide)
  obtain ⟨reports, st, hrun, rfl⟩ := (hvisits Sink.discard () .insert [.insert]).exists_ok
    fun _ _ hstopped => hstopped fun _ _ => rfl
  have hsecond :
      laterReport Suite.standard 5 0 (Source.ofFile (FileContent.toBytes ⟨2000, []⟩)) .insert =
        hollowReport Suite.standard 5 0 2000 .insert := by
    rw [laterReport, hfilesize, if_neg (by decide)]
  refine ⟨storage, _, st, hopen, hrun, fun hsteady => ?_⟩
  have hshort := @Upload.not_sublist_of_hollow Suite.standard _ 5 0 .insert
    (by rw [hfilesize]; decide) (by rw [hfilesize]; decide) nofun
  have hmem : laterReport Suite.standard 5 0 (Source.ofFile (FileContent.toBytes ⟨2000, []⟩)) .insert ∈
      wholeReport Suite.standard 5 0 (Source.ofFile (FileContent.toBytes ⟨2000, []⟩)) .insert ::
        [Visit.insert].map
          (laterReport Suite.standard 5 0 (Source.ofFile (FileContent.toBytes ⟨2000, []⟩))) :=
    List.mem_cons_of_mem _ (List.mem_singleton_self _)
  rw [hsecond] at hmem
  have hsent := hsteady.sent _ hmem
  rw [Upload.visit_hollowReport] at hsent
  rw [hfilesize] at hshort
  exact hshort (hsent nofun)

end Files

end ContentTree

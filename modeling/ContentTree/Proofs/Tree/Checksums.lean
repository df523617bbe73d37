import ContentTree.Proofs.Tree.Ledger

/-!
# Checksums of a finished download

Replies come in any order, some blocks are on disk, and the checksums in the inner blocks may be
anything that the keys bind. If the root goes away and no checksum was found wrong, every inner block
has the checksum of its children, and the root has that of the file.
-/

namespace ContentTree

namespace Download

/-- An operation of a download: the reply that it took, if any, and how it left the download. -/
structure Event where
  reply : Option Block
  after : State

/-- At this event the block is at hand for a place of a file of `size` bytes: it is stored there, or
the leaves below give it, or it is what the reply decrypts to under the hash of the result. -/
inductive Event.Offers (env : Env) (size : Nat) (e : Event) (level position : Nat) (data : Block) :
    Prop
  | stored (hread : env.storage.readBlock e.after.disk level position
      (nodeLength size level position) = .ok data) : Offers env size e level position data
  | rebuilt (hleaves : ∀ start, Place size 0 start → Covers level position 0 start →
        env.storage.HasLeaf e.after.disk size start)
      (hdata : (env.storage.source e.after.disk size).block env.suite level position = data) :
      Offers env size e level position data
  | reply {reply : Block} (hreply : e.reply = some reply)
      (hdata : env.suite.decrypt
        (env.suite.hash (data.toList.take (nodeLength size level position))) reply = data) :
      Offers env size e level position data

/-- A download so far, in which no checksum has been found wrong, with its operations, the last one
first. -/
inductive Course (env : Env) (first : State) : List Event → State → Prop
  | start (hsums : ChecksumsHold ((start env 0).run first).1) :
      Course env first [⟨none, ((start env 0).run first).2⟩] ((start env 0).run first).2
  | receive {events : List Event} {st : State} {id : NodeId} {handler : ReplyHandler}
      {query : Digest} {reply : Block} (h : Course env first events st)
      (hsums : ChecksumsHold ((receive env id handler query reply).run st).1) :
      Course env first (⟨some reply, ((receive env id handler query reply).run st).2⟩ :: events)
        ((receive env id handler query reply).run st).2

/-- The inner nodes have the tables that are in the blocks, and the checksums of these. -/
def Shows (b : Blocks) (t : Tree) : Prop :=
  ∀ (id : Nat) n i table, t.get? id = some n → n.inner? = some i → i.table = some table →
    table = b.table n.depth n.position ∧ i.crc = table.crc

variable {env : Env} {heard : Option (Nat × Block)} {st st' : State} {id size : Nat} {n : Node}
  {data : Block} {disk : Disk} {key : Digest} {offer : Nat → Nat → Block → Prop}
  {known : Set (Nat × Nat)} {b : Blocks} {events : List Event}

theorem Evidence.offers (h : Evidence env none st id n data disk) (hgood : Good st.tree)
    (hn : st.tree.get? id = some n) {e : Event} (hdisk : e.after.disk = st.disk) :
    e.Offers env st.tree.fileSize n.depth n.position data := by
  have hshape := hgood.sound.shaped hn
  cases h with
  | stored _ hread _ =>
    rw [hshape.length] at hread
    exact .stored (hdisk ▸ hread)
  | rebuilt _ _ hleaves _ =>
    rw [hshape.fileSize] at hleaves ⊢
    exact .rebuilt (hdisk ▸ hleaves) (by rw [hdisk])
  | reply hheard => cases hheard

/-- Nothing but the reply makes a node known that was there before. -/
theorem Idle.offers {k : Nat} {reply : Block} (h : Idle st.tree) (hn : st.tree.get? id = some n)
    (hknown : Evidence env (some (k, reply)) st id n data disk) {e : Event}
    (hreply : e.reply = some reply) : e.Offers env st.tree.fileSize n.depth n.position data := by
  have hkey := hknown.hash_eq h.good hn
  have hlength := (h.good.sound.shaped hn).length
  cases hknown with
  | stored hstatus => exact absurd hstatus (h.created hn)
  | rebuilt hstatus => exact absurd hstatus (h.created hn)
  | reply hheard =>
    injection hheard with hheard
    injection hheard with _ hheard
    subst hheard
    refine .reply hreply ?_
    rw [← hlength, hkey]

theorem Ledger.mono {offer' : Nat → Nat → Block → Prop} {s : Suite} {top : Option UInt32} {t : Tree}
    (h : Ledger s key top offer known b t)
    (hmono : ∀ level position data, offer level position data → offer' level position data) :
    Ledger s key top offer' known b t :=
  { h with offered := fun hplace hmem => hmono _ _ _ (h.offered hplace hmem) }

theorem Ledger.shows {s : Suite} {top : Option UInt32} {t : Tree}
    (h : Ledger s key top offer known b t) {known' : Set (Nat × Nat)} {c : Blocks}
    (hextended : b.Extended known known' c) : Shows c t := by
  intro id n i table hn hi htable
  obtain ⟨hmem, hsame, hcrc⟩ := (h.node hn).table i table hi htable
  exact ⟨by rw [hextended.table hmem, hsame], hcrc⟩

theorem Ledger.moves (h : Ledger env.suite key env.topCrc offer known b st.tree)
    (hgood : Good st.tree) {e : Event} (hdisk : e.after.disk = st.disk)
    (hoffer : ∀ level position data, e.Offers env st.tree.fileSize level position data →
      offer level position data) (hmoves : Moves env st st') :
    ∃ known' c, Ledger env.suite key env.topCrc offer known' c st'.tree ∧
      b.Extended known known' c := by
  induction hmoves with
  | refl => exact ⟨known, b, h, .refl b known⟩
  | tail hbefore hmove ih =>
    obtain ⟨known', c, hledger, hextended⟩ := ih
    have hmid := hgood.moves hbefore
    have hfile := hledger.fileSize.trans (hextended.size.trans h.fileSize.symm)
    obtain ⟨known'', d, hledger', hextended'⟩ := hledger.move hmid
      (fun hn hknown => hoffer _ _ _ (hfile ▸
        hknown.offers hmid hn (hdisk.trans (disk_eq_of_moves hbefore).symm))) hmove
    exact ⟨known'', d, hledger', hextended.trans hextended'⟩

/-- The blocks taken so far, and what has been seen of them after each event. -/
structure Recorded (env : Env) (key : Digest) (size : Nat) (events : List Event) (st : State)
    (known : Set (Nat × Nat)) (b : Blocks) : Prop where
  fileSize : b.size = size
  ledger : Ledger env.suite key env.topCrc
    (fun level position data => ∃ e ∈ events, e.Offers env size level position data) known b st.tree
  shown : ∀ e ∈ events, ∀ known' c, b.Extended known known' c → Shows c e.after.tree

theorem Recorded.next (h : Recorded env key size events st known b) {e : Event}
    (he : e.after = st') {known' : Set (Nat × Nat)} {c : Blocks}
    (hledger : Ledger env.suite key env.topCrc
      (fun level position data => ∃ e' ∈ e :: events, e'.Offers env size level position data)
      known' c st'.tree)
    (hextended : b.Extended known known' c) :
    Recorded env key size (e :: events) st' known' c where
  fileSize := hextended.size.trans h.fileSize
  ledger := hledger
  shown e' hmem known'' d hlater := by
    rcases List.mem_cons.1 hmem with rfl | hmem
    · exact he ▸ hledger.shows hlater
    · exact h.shown e' hmem known'' d (hextended.trans hlater)

theorem Recorded.widened (h : Recorded env key size events st known b) (e : Event) :
    Ledger env.suite key env.topCrc
      (fun level position data => ∃ e' ∈ e :: events, e'.Offers env size level position data)
      known b st.tree :=
  h.ledger.mono fun _ _ _ ⟨e', hmem, hoffers⟩ => ⟨e', List.mem_cons_of_mem e hmem, hoffers⟩

theorem Recorded.start (h : Recorded env key size [] st known b) (hunstarted : Unstarted st.tree)
    (hsums : ChecksumsHold ((Download.start env 0).run st).1) :
    Idle ((Download.start env 0).run st).2.tree ∧
      ∃ known' c, Recorded env key size [⟨none, ((Download.start env 0).run st).2⟩]
        ((Download.start env 0).run st).2 known' c := by
  obtain ⟨hmoves, hidle⟩ := hsums.start hunstarted
  have hfile := h.ledger.fileSize.trans h.fileSize
  obtain ⟨known', c, hledger, hextended⟩ := (h.widened ⟨none, _⟩).moves hunstarted.good
    (disk_eq_of_moves hmoves) (fun _ _ _ hoffers => ⟨_, List.mem_cons_self, hfile ▸ hoffers⟩) hmoves
  exact ⟨hidle, known', c, h.next rfl hledger hextended⟩

theorem Recorded.receive {handler : ReplyHandler} {query : Digest} {reply : Block}
    (h : Recorded env key size events st known b) (hidle : Idle st.tree)
    (hsums : ChecksumsHold ((Download.receive env id handler query reply).run st).1) :
    Idle ((Download.receive env id handler query reply).run st).2.tree ∧
      ∃ known' c, Recorded env key size
        (⟨some reply, ((Download.receive env id handler query reply).run st).2⟩ :: events)
        ((Download.receive env id handler query reply).run st).2 known' c := by
  obtain ⟨hnext, hsame | ⟨k, mid, hmove, hmoves⟩⟩ := hsums.receive hidle
  · rw [hsame]
    exact ⟨hidle, known, b, h.next rfl (h.widened _) (.refl b known)⟩
  · -- The reply settles the first move, and the disk that it leaves the others.
    have hfile := h.ledger.fileSize.trans h.fileSize
    obtain ⟨known', c, hledger, hextended⟩ := (h.widened ⟨some reply, _⟩).move hidle.good
      (fun hn hknown => ⟨_, List.mem_cons_self, hfile ▸ hidle.offers hn hknown rfl⟩) hmove
    have hmid := (hidle.good.fileSize_move hmove).trans hfile
    obtain ⟨known'', d, hledger', hextended'⟩ := hledger.moves (hidle.good.move hmove)
      (disk_eq_of_moves hmoves) (fun _ _ _ hoffers => ⟨_, List.mem_cons_self, hmid ▸ hoffers⟩)
      hmoves
    exact ⟨hnext, known'', d, h.next rfl hledger' (hextended.trans hextended')⟩

/-- Nothing is known before the start but the key of the root. -/
theorem recorded_first (env : Env) (f : FileIdentifier) (disk : Disk) :
    Recorded env f.chk.key f.length.toNat [] (State.first f disk) ∅
      ⟨f.length.toNat, fun _ _ => zeroBlock⟩ where
  fileSize := rfl
  ledger := by
    constructor
    case fileSize => rfl
    case known_iff =>
      intro level position hplace
      exact iff_of_false (Set.notMem_empty _) (not_not.2 (awaited_forDownload f hplace))
    case node =>
      intro k n hn
      obtain ⟨-, rfl⟩ : k = 0 ∧ n = firstNode f := eq_firstNode hn
      refine traced_of_new (inner?_firstNode f) ⟨fun _ => rfl, ?_⟩ fun _ _ => Set.notMem_empty _
      intro above i _ _ _ hmem
      exact absurd hmem (Set.notMem_empty _)
    case vouched =>
      exact ⟨fun _ hmem => absurd hmem (Set.notMem_empty _),
        fun hmem => absurd hmem (Set.notMem_empty _), fun _ hmem => absurd hmem (Set.notMem_empty _)⟩
    case offered =>
      intro level position _ hmem
      exact absurd hmem (Set.notMem_empty _)
  shown e hmem := by cases hmem

theorem Course.recorded {f : FileIdentifier} (h : Course env (State.first f disk) events st) :
    Idle st.tree ∧ ∃ known b, Recorded env f.chk.key f.length.toNat events st known b := by
  induction h with
  | start hsums => exact (recorded_first env f disk).start (unstarted_forDownload f) hsums
  | receive _ hsums ih =>
    obtain ⟨hidle, known, b, hrecorded⟩ := ih
    exact hrecorded.receive hidle hsums

/-- Once the root is gone there is a verified block for each place, which was at hand in the
download and is what the nodes showed of it. All of these blocks have the right checksums, and so has
every tree with the key of the file whose payloads do not collide with theirs. -/
theorem summed_of_course {f : FileIdentifier} (h : Course env (State.first f disk) events st)
    (hroot : st.tree.root = none) :
    ∃ b : Blocks, b.size = f.length.toNat ∧
      (∀ level position, Place b.size level position →
        ∃ e ∈ events, e.Offers env b.size level position (b.block level position)) ∧
      (∀ e ∈ events, Shows b e.after.tree) ∧
      b.Keyed env.suite f.chk.key ∧ b.Summed env.suite env.topCrc ∧
      ∀ c : Blocks, c.size = b.size → c.Keyed env.suite f.chk.key →
        (∀ level position, Place b.size level position →
          env.suite.hash (c.payload level position) = env.suite.hash (b.payload level position) →
          c.payload level position = b.payload level position) →
        c.Summed env.suite env.topCrc := by
  obtain ⟨hidle, known, b, hrecorded⟩ := h.recorded
  have hledger := hrecorded.ledger
  have hsize := hledger.size_le hidle.good
  have hall : ∀ level position, Place b.size level position → (level, position) ∈ known :=
    fun _ _ hplace => (hledger.known_iff hplace).2 (hidle.good.not_awaited hroot)
  have hkeyed := hledger.vouched.keyed_of_all hsize hall
  have hsummed := hledger.vouched.summed_of_all hsize hall
  refine ⟨b, hrecorded.fileSize, fun level position hplace => ?_,
    fun e he => hrecorded.shown e he known b (.refl b known), hkeyed, hsummed,
    fun c hsame hc hcollision => ?_⟩
  · obtain ⟨e, he, hoffers⟩ := hledger.offered hplace (hall _ _ hplace)
    exact ⟨e, he, hrecorded.fileSize ▸ hoffers⟩
  · exact hsummed.of_payload_eq hsize hsame fun _ _ hplace =>
      hkeyed.payload_eq hsize hsame hc hcollision hplace

theorem course_shelfDone :
    ∃ events, Course shelfEnv (State.first shelfId shelfOpen) events shelfDone := by
  obtain ⟨hstart, hroot, hfirst, hlast, -⟩ := isOk_shelf
  obtain ⟨events, hwaiting⟩ :
      ∃ events, Course shelfEnv (State.first shelfId shelfOpen) events shelfWaiting := by
    rw [shelfWaiting]
    exact ⟨_, .start (checksumsHold_of_isOk hstart)⟩
  have hunfolded := hwaiting.receive (checksumsHold_of_isOk hroot)
  rw [← shelfUnfolded] at hunfolded
  have hhalf := hunfolded.receive (checksumsHold_of_isOk hfirst)
  rw [← shelfHalf] at hhalf
  have hdone := hhalf.receive (checksumsHold_of_isOk hlast)
  rw [← shelfDone] at hdone
  exact ⟨_, hdone⟩

theorem summed_of_shelf_course :
    ∃ b : Blocks, b.size = 1025 ∧ b.Keyed stripSuite shelfId.chk.key ∧
      b.Summed stripSuite (some shelfId.crc) := by
  obtain ⟨events, hcourse⟩ := course_shelfDone
  obtain ⟨b, hsize, -, -, hkeyed, hsummed, -⟩ := summed_of_course hcourse isOk_shelf.2.2.2.2
  exact ⟨b, hsize.trans toNat_length_shelfId, hkeyed, hsummed⟩

end Download

end ContentTree

import ContentTree.Proofs.Transfer.Mirror
import ContentTree.Proofs.Tree.Integrity
import ContentTree.Proofs.Tree.Remaining

/-!
# Transfers that come to an end

A transfer takes its replies from a store that has the blocks of the file. No reply fails, whatever
the order. As long as the root is there, some request waits for a block that the store has, and that
block leaves less to do; once the root is gone, the target is the file and nothing else is left.
-/

namespace ContentTree

namespace Download

/-- What a disk may become when blocks of the file are written to it. -/
inductive Filled (env : Env) (src : Source) (disk : Disk) : Disk → Prop
  | refl : Filled env src disk disk
  | write {d d' : Disk} {level position : Nat} (h : Filled env src disk d)
      (hplace : Place src.size level position)
      (hwrite : env.storage.write d level position (src.payload env.suite level position) = .ok d') :
      Filled env src disk d'

theorem Ready.congr {env : Env} {src : Source} {st st' : State} (h : Ready env src st)
    (htree : st'.tree = st.tree) (hdisk : st'.disk = st.disk) : Ready env src st' := by
  obtain ⟨tree, disk, meter, calls⟩ := st
  obtain ⟨tree', disk', meter', calls'⟩ := st'
  obtain rfl : tree' = tree := htree
  obtain rfl : disk' = disk := hdisk
  exact ⟨⟨h.intact.good, h.intact.faithful, h.intact.opened, h.intact.size, h.intact.within,
    h.intact.held⟩, h.idle, h.binds⟩

end Download

namespace Transfer

open Download (Filled Ready due missing)

variable {ρ : Type} {s : Suite} {env : Download.Env} {src : Source} {x x' : Transfer ρ}
  {store : Digest → Option Block}

/-- The store is keyed by hash and has the blocks of the file. -/
structure Serves (s : Suite) (src : Source) (store : Digest → Option Block) : Prop where
  keyed : ∀ hash block, store hash = some block → s.hash block.toList = hash
  stocked : ∀ level position, Place src.size level position →
    store (src.chk s level position).query = some (src.cipher s level position)

/-- A block of the store is what its hash stands for in the file. -/
theorem Serves.eq_cipher (h : Serves s src store) {hash : Digest} {block : Block}
    (hblock : store hash = some block) {level position : Nat} (hplace : Place src.size level position)
    (hquery : (src.chk s level position).query = s.hash block.toList) :
    block = src.cipher s level position := by
  have hstocked := h.stocked level position hplace
  rw [hquery, h.keyed hash block hblock, hblock] at hstocked
  exact Option.some.inj hstocked

/-! ### Routing -/

section Routing

variable {node : NodeId} {handler : ReplyHandler} {query : Digest} {reply : Block} {k : Nat}
  {n : Node}

/-- A reply is routed to nodes that have asked for it. -/
theorem InStep.query_eq (h : InStep x)
    (hmatch : (x.table.matchReply s reply).1 = some (node, handler, query))
    (haddressee : Download.addressee? x.download.tree node handler query = some k)
    (hn : x.download.tree.get? k = some n) : n.chk.query = s.hash reply.toList := by
  obtain ⟨rfl, e, he, rfl, rfl, hmem⟩ := RequestTable.matchReply_eq_some hmatch
  cases hhandler : e.handler with
  | own =>
    rw [hhandler] at haddressee
    obtain rfl : e.node = k := Option.some.inj haddressee
    obtain ⟨n', hn', hhashes⟩ := h.mirrors.own e he hhandler
    obtain rfl := Option.some.inj (hn.symm.trans hn')
    rw [hhashes, List.mem_singleton] at hmem
    exact hmem.symm
  | children =>
    rw [hhandler] at haddressee
    obtain ⟨b, hb, -, hquery⟩ := Download.pendingChild?_eq_some haddressee
    obtain rfl := Option.some.inj (hn.symm.trans hb)
    exact hquery

/-- A reply that is not what a whole table hashes to finds a node that waits for it. -/
theorem InStep.exists_addressee (h : InStep x)
    (hmatch : (x.table.matchReply s reply).1 = some (node, handler, query))
    (hsuper : ∀ n i table, x.download.tree.get? node = some n → n.inner? = some i →
      i.table = some table → table.superHash ≠ query) :
    ∃ k n, Download.addressee? x.download.tree node handler query = some k ∧
      x.download.tree.get? k = some n ∧ n.status = .pending := by
  obtain ⟨rfl, e, he, rfl, rfl, hmem⟩ := RequestTable.matchReply_eq_some hmatch
  cases hhandler : e.handler with
  | own =>
    obtain ⟨-, n, hn, hstatus⟩ := (h.mirrors.own_iff e.node).1 ⟨e, he, rfl, hhandler⟩
    exact ⟨e.node, n, rfl, hn, hstatus⟩
  | children =>
    obtain ⟨n, i, table, hn, hi, htable, hhashes⟩ := h.mirrors.children e he hhandler
    obtain ⟨n', hn', hstatus⟩ := (h.mirrors.children_iff e.node).1 ⟨e, he, rfl, hhandler⟩
    obtain rfl := Option.some.inj (hn.symm.trans hn')
    rw [hhashes, ← Node.childCount_of_inner hi,
      ← Download.pendingQueries_eq_range (h.idle.good.sound.shaped hn), List.mem_cons] at hmem
    have hqueries := hmem.resolve_left fun heq => hsuper n i table hn hi htable heq.symm
    obtain ⟨c, hc⟩ := Download.exists_pendingChild? hn hstatus hqueries
    obtain ⟨b, hb, hwaits, -⟩ := Download.pendingChild?_eq_some hc
    exact ⟨c, b, hc, hb, hwaits⟩

theorem InStep.exists_request (h : InStep x) (hn : x.download.tree.get? k = some n)
    (hstatus : n.status = .pending) : ∃ e ∈ x.table.requests, n.chk.query ∈ e.query.hashes := by
  cases hparent : n.parent with
  | none =>
    obtain ⟨e, he, -, hasked⟩ := h.mem_iff.2 ⟨n, hn, Download.question?_waiting hstatus hparent⟩
    refine ⟨e, he, ?_⟩
    rw [(Prod.mk.inj hasked).2]
    exact List.mem_singleton_self _
  | some p =>
    obtain ⟨m, hm, hasking⟩ := h.mirrors.parent k n p hn hstatus hparent
    obtain ⟨m', i, hm', hi⟩ := h.idle.good.sound.up hn hparent
    obtain rfl := Option.some.inj (hm.symm.trans hm')
    obtain ⟨e, he, -, hasked⟩ := h.mem_iff.2 ⟨m, hm, Download.question?_asking hasking⟩
    refine ⟨e, he, ?_⟩
    rw [(Prod.mk.inj hasked).2]
    refine List.mem_cons_of_mem _ (Download.mem_pendingQueries.2 ?_)
    exact ⟨k, Node.mem_childIds.2 ⟨i, hi⟩, n, hn, hstatus, rfl⟩

end Routing

/-! ### Progress -/

theorem deliver_of_none {reply : Block} {table : RequestTable ρ}
    (hmatch : x.table.matchReply env.suite reply = (none, table)) :
    x.deliver env reply = (none, { x with table := table }) := by
  unfold Transfer.deliver
  rw [hmatch]

theorem deliver_of_run {reply : Block} {table : RequestTable ρ} {node : NodeId}
    {handler : ReplyHandler} {query : Digest} {st : Download.State}
    (hmatch : x.table.matchReply env.suite reply = (some (node, handler, query), table))
    (hrun : (Download.receive env node handler query reply).run
      ({ x with table := table } : Transfer ρ).copyStats.download = (.ok (), st)) :
    x.deliver env reply = (some ⟨node, handler, .ok ()⟩,
      ⟨{ st with calls := #[] }, st.calls.foldl RequestTable.call table⟩) := by
  unfold Transfer.deliver perform
  rw [hmatch]
  simp only [hrun]
  rfl

/-- A download of a known file that writes the file to its target, and no more than that to the
disk. -/
structure Underway (env : Download.Env) (src : Source) (disk : Disk) (target : String)
    (object : Nat) (st : Download.State) : Prop where
  ready : Ready env src st
  filled : Filled env src disk st.disk
  target : st.disk.open? target = .ok (.file object)
  progress : st.meter.stats.progress + (due src.size st.tree).ncard = src.size

theorem Underway.congr {disk : Disk} {target : String} {object : Nat} {st st' : Download.State}
    (h : Underway env src disk target object st) (htree : st'.tree = st.tree)
    (hdisk : st'.disk = st.disk)
    (hprogress : st'.meter.stats.progress = st.meter.stats.progress) :
    Underway env src disk target object st' where
  ready := h.ready.congr htree hdisk
  filled := by
    rw [hdisk]
    exact h.filled
  target := by
    rw [hdisk]
    exact h.target
  progress := by
    rw [htree, hprogress]
    exact h.progress

theorem Serves.plain (h : Serves s src store)
    (hcrypt : ∀ key block, s.decrypt key (s.encrypt key block) = block) {n : Node}
    (hfaithful : n.Faithful s src) (hshape : n.Shaped src.size) {hash : Digest} {reply : Block}
    (hreply : store hash = some reply) (hquery : n.chk.query = s.hash reply.toList) :
    (s.decrypt n.chk.key reply).toList.take n.length = src.payload s n.depth n.position := by
  rw [hfaithful.chk] at hquery ⊢
  rw [h.eq_cipher hreply hshape.place hquery, Source.cipher, hcrypt, hshape.length]
  rfl

/-- Replies come from the store, and everything else comes as it may. -/
def Fetching (store : Digest → Option Block) : Event → Prop
  | .receive _ _ _ _ => False
  | .deliver reply => ∃ hash, store hash = some reply
  | _ => True

section Deliver

variable {disk : Disk} {target : String} {object : Nat} {st : Download.State}
  (hsize : src.size ≤ maxSize)
  (htop : ∀ crc, env.topCrc = some crc → crc = src.checksum env.suite (treeDepth src.size) 0)
  (hoffset : ∀ position, Place src.size 0 position → position < Handle.offsetLimit)
  (hbinds : ∀ d, Filled env src disk d → Download.DiskBinds env src d)
  (hserves : Serves env.suite src store)
  (hcrypt : ∀ key block, env.suite.decrypt key (env.suite.encrypt key block) = block)

include hsize htop hoffset hbinds hserves hcrypt

/-- A block of the store that somebody has asked for is received without an error, and if anybody
still waits for it, fewer places are missing. -/
theorem Underway.receive (h : Underway env src disk target object st) {hash : Digest}
    {reply : Block} (hreply : store hash = some reply) {node : NodeId} {handler : ReplyHandler}
    {query : Digest}
    (hasked : ∀ k n, Download.addressee? st.tree node handler query = some k →
      st.tree.get? k = some n → n.chk.query = env.suite.hash reply.toList) :
    ∃ st', (Download.receive env node handler query reply).run st = (.ok (), st') ∧
      Underway env src disk target object st' ∧
      (∀ k n, Download.addressee? st.tree node handler query = some k → st.tree.get? k = some n →
        n.status = .pending →
          (missing src.size st'.tree).ncard < (missing src.size st.tree).ncard) := by
  have hshape : ∀ {k n}, st.tree.get? k = some n → n.Shaped src.size := by
    intro k n hn
    rw [← h.ready.intact.faithful.fileSize]
    exact h.ready.intact.good.sound.shaped hn
  have hplain : ∀ {k n}, Download.addressee? st.tree node handler query = some k →
      st.tree.get? k = some n → (env.suite.decrypt n.chk.key reply).toList.take n.length =
        src.payload env.suite n.depth n.position := fun haddressee hn =>
    hserves.plain hcrypt (h.ready.intact.faithful.node hn) (hshape hn) hreply
      (hasked _ _ haddressee hn)
  have hcall : Download.CallBinds env src st node handler query reply :=
    ⟨fun k n haddressee hn _ _ => hplain haddressee hn,
      fun k n d _ hn _ hwrite => hbinds d (h.filled.write (hshape hn).place hwrite)⟩
  obtain ⟨houtcome, hready⟩ := h.ready.receive hsize htop hcall hoffset
  have htarget := houtcome.open? h.ready h.target
  generalize hrun : (Download.receive env node handler query reply).run st = result at *
  cases houtcome with
  | ignored hnobody =>
    exact ⟨st, rfl, h, fun k n haddressee hn hs => absurd hs (hnobody k n haddressee hn)⟩
  | refused haddressee hn hstatus hhash =>
    exfalso
    apply hhash
    rw [hplain haddressee hn, (h.ready.intact.faithful.node hn).chk, Source.key_chk]
  | @taken k n st' haddressee hn hstatus hhash hwrite htaken =>
    have hfilled := h.filled.write (hshape hn).place hwrite
    have hbound : Download.ReplyBinds env src st.tree (some (k, reply)) := by
      intro k' reply' n' heq hn' _
      obtain ⟨rfl, rfl⟩ : k = k' ∧ reply = reply' := by simpa using heq
      exact hplain haddressee hn'
    obtain ⟨hfewer, hprogress⟩ := h.ready.intact.taken_remaining hsize h.ready.binds hbound
      (hbinds _ hfilled) htaken
    exact ⟨st', rfl, ⟨hready, hfilled, htarget, hprogress.trans h.progress⟩,
      fun _ _ _ _ _ => hfewer⟩

/-- A reply that the table knows goes to a node, and if that still waits, fewer places are missing
afterwards. -/
theorem Underway.deliver_matched (h : Underway env src disk target object x.download)
    (hstep : InStep x) {hash : Digest} {reply : Block} (hreply : store hash = some reply)
    {node : NodeId} {handler : ReplyHandler} {query : Digest} {table : RequestTable ρ}
    (hmatch : x.table.matchReply env.suite reply = (some (node, handler, query), table)) :
    ((x.deliver env reply).1.map Delivery.result).getD (.ok ()) = .ok () ∧
      Underway env src disk target object (x.deliver env reply).2.download ∧
      ∀ k n, Download.addressee? x.download.tree node handler query = some k →
        x.download.tree.get? k = some n → n.status = .pending →
          (missing src.size (x.deliver env reply).2.download.tree).ncard <
            (missing src.size x.download.tree).ncard := by
  have hcopied : Underway env src disk target object
      ({ x with table := table } : Transfer ρ).copyStats.download := h.congr rfl rfl rfl
  obtain ⟨st, hrun, hunderway, hfewer⟩ := hcopied.receive hsize htop hoffset hbinds hserves hcrypt
    hreply fun k n haddressee hn => hstep.query_eq (by rw [hmatch]) haddressee hn
  rw [deliver_of_run hmatch hrun]
  exact ⟨rfl, hunderway.congr rfl rfl rfl, hfewer⟩

theorem Underway.deliver (h : Underway env src disk target object x.download) (hstep : InStep x)
    {hash : Digest} {reply : Block} (hreply : store hash = some reply) :
    ((x.deliver env reply).1.map Delivery.result).getD (.ok ()) = .ok () ∧
      Underway env src disk target object (x.deliver env reply).2.download := by
  rcases hmatch : x.table.matchReply env.suite reply with ⟨_ | ⟨node, handler, query⟩, table⟩
  · rw [deliver_of_none hmatch]
    exact ⟨rfl, h⟩
  · obtain ⟨hok, hunderway, -⟩ := h.deliver_matched hsize htop hoffset hbinds hserves hcrypt hstep
      hreply hmatch
    exact ⟨hok, hunderway⟩

/-- The block that a pending node waits for leaves fewer places missing. -/
theorem Underway.deliver_waited (h : Underway env src disk target object x.download)
    (hstep : InStep x) {k : Nat} {n : Node} (hn : x.download.tree.get? k = some n)
    (hstatus : n.status = .pending) {reply : Block} (hreply : store n.chk.query = some reply)
    (hapart : ∀ level position, Place src.size (level + 1) position →
      (src.table env.suite level position).superHash ≠ n.chk.query) :
    (missing src.size (x.deliver env reply).2.download.tree).ncard <
      (missing src.size x.download.tree).ncard := by
  have hhash := hserves.keyed _ _ hreply
  obtain ⟨e, he, hmem⟩ := hstep.exists_request hn hstatus
  rw [← hhash] at hmem
  rcases hmatch : x.table.matchReply env.suite reply with ⟨_ | ⟨node, handler, query⟩, table⟩
  · exact absurd (by rw [hmatch]) (RequestTable.matchReply_ne_none he hmem)
  · have hfound : (x.table.matchReply env.suite reply).1 = some (node, handler, query) := by
      rw [hmatch]
    obtain ⟨rfl, -⟩ := RequestTable.matchReply_eq_some hfound
    obtain ⟨-, -, hfewer⟩ := h.deliver_matched hsize htop hoffset hbinds hserves hcrypt hstep hreply
      hmatch
    obtain ⟨k', n', haddressee, hn', hwaits⟩ := hstep.exists_addressee hfound <| by
      intro m i inner hm hi hinner
      have hshape := h.ready.intact.good.sound.shaped hm
      rw [h.ready.intact.faithful.fileSize] at hshape
      have hpos := hshape.isSome_inner?.1 (by rw [hi]; rfl)
      obtain ⟨level, hlevel⟩ : ∃ level, m.depth = level + 1 := ⟨m.depth - 1, by omega⟩
      rw [((h.ready.intact.faithful.node hm).table i inner hi hinner).1, hhash, hlevel,
        Nat.add_sub_cancel]
      exact hapart _ _ (hlevel ▸ hshape.place)
    exact hfewer k' n' haddressee hn' hwaits

omit hoffset hserves hcrypt in
theorem Underway.start (h : Download.Intact env src x.download)
    (hunstarted : Download.Unstarted x.download.tree) (hdisk : x.download.disk = disk)
    (htarget : disk.open? target = .ok (.file object))
    (hprogress : x.download.meter.stats.progress + (due src.size x.download.tree).ncard = src.size) :
    (x.perform (Download.start env 0)).1 = .ok () ∧
      Underway env src disk target object (x.perform (Download.start env 0)).2.download := by
  have hfirst := hbinds disk .refl
  rw [← hdisk] at hfirst
  obtain ⟨st, hrun, hready, hsame, hmoves⟩ := h.start hsize htop hfirst hunstarted
  have hperform : x.perform (Download.start env 0) =
      (.ok (), ⟨{ st with calls := #[] }, st.calls.foldl RequestTable.call x.table⟩) := by
    unfold perform
    rw [hrun]
  rw [hperform]
  refine ⟨rfl, hready.congr rfl rfl, ?_, ?_, ?_⟩
  · rw [hsame, hdisk]
    exact .refl
  · rw [hsame, hdisk]
    exact htarget
  · exact (h.moves_remaining hsize hfirst hmoves).2.trans hprogress

variable [RandomSource ρ]

theorem Underway.handle (h : Underway env src disk target object x.download) (hstep : InStep x)
    {e : Event} (he : Fetching store e) : (x.handle env e).1 = .ok () ∧
      Underway env src disk target object (x.handle env e).2.download := by
  cases e with
  | receive node handler query reply => exact he.elim
  | deliver reply =>
    obtain ⟨hash, hreply⟩ := he
    exact h.deliver hsize htop hoffset hbinds hserves hcrypt hstep hreply
  | pass accepts => exact ⟨rfl, h⟩
  | returnValue value => exact ⟨rfl, h⟩
  | sendFailed => exact ⟨rfl, h⟩
  | tick now => exact ⟨rfl, h⟩
  | observe average => exact ⟨rfl, h⟩
  | record kind bytes peers => exact ⟨rfl, h⟩

end Deliver

/-! ### Whole runs -/

/-- Where a transfer of the file stands that takes its replies from a store. -/
structure Sustained [RandomSource ρ] (env : Download.Env) (store : Digest → Option Block)
    (target : String) (file : Bytes) (x : Transfer ρ) : Prop where
  ok : ∀ e, Fetching store e → (x.handle env e).1 = .ok ()
  waits : x.download.tree.root ≠ none → ∃ e ∈ x.table.requests, ∃ k n,
    x.download.tree.get? k = some n ∧ n.status = .pending ∧ n.chk.query ∈ e.query.hashes
  fewer : ∀ k n, x.download.tree.get? k = some n → n.status = .pending →
    ∃ reply, store n.chk.query = some reply ∧
      (missing file.length (x.deliver env reply).2.download.tree).ncard <
        (missing file.length x.download.tree).ncard
  done : x.download.tree.root = none →
    (∃ c, x.download.disk.contentAt target = .ok c ∧ c.toBytes = file) ∧
      x.stats.progress = file.length ∧ (∀ k, x.download.tree.get? k = none) ∧
      x.table.requests = []

theorem InStep.requests_eq_nil (h : InStep x) (hroot : x.download.tree.root = none) :
    x.table.requests = [] := by
  apply List.eq_nil_iff_forall_not_mem.2
  intro e he
  have hcontains := h.mirrors.contains e he
  rw [Tree.contains, h.idle.good.sound.empty hroot e.node] at hcontains
  cases hcontains

theorem InStep.waits (h : InStep x) (hroot : x.download.tree.root ≠ none) :
    ∃ e ∈ x.table.requests, ∃ k n, x.download.tree.get? k = some n ∧ n.status = .pending ∧
      n.chk.query ∈ e.query.hashes := by
  obtain ⟨r, hr⟩ := Option.ne_none_iff_exists'.1 hroot
  obtain ⟨n, hn, -⟩ := h.idle.good.sound.rooted hr
  obtain ⟨k, b, hb, hstatus⟩ := h.idle.exists_pending hn
  obtain ⟨e, he, hmem⟩ := h.exists_request hb hstatus
  exact ⟨e, he, k, b, hb, hstatus, hmem⟩

theorem ncard_due_forDownload (f : FileIdentifier) :
    (due f.length.toNat (Tree.forDownload f)).ncard = f.length.toNat := by
  have hall : due f.length.toNat (Tree.forDownload f) =
      ↑(Finset.range f.length.toNat) := by
    ext k
    rw [Finset.coe_range, Set.mem_Iio]
    exact and_iff_left_of_imp fun hk => Download.awaited_forDownload f (Download.place_leaf hk)
  rw [hall, Set.ncard_coe_finset, Finset.card_range]

/-- What a whole table hashes to is no hash of a block, being that of a shorter string. -/
theorem superHash_ne (hsize : src.size ≤ maxSize)
    (hcollision : ∀ level position below start, Place src.size (level + 1) position →
      Place src.size below start →
      s.hash (InnerBlock.tableBytes (src.table s level position).chks) =
        s.hash (src.cipher s below start).toList →
      InnerBlock.tableBytes (src.table s level position).chks = (src.cipher s below start).toList)
    {level position below start : Nat} (hplace : Place src.size (level + 1) position)
    (hstart : Place src.size below start) :
    (src.table s level position).superHash ≠ (src.chk s below start).query := by
  intro heq
  have hlengths := congrArg List.length (hcollision _ _ _ _ hplace hstart heq)
  have hcount := @childCount_le src.size position level hsize (hplace.level_lt hsize)
  have hchks : (src.table s level position).chks.length = childCount src.size position (level + 1) := by
    simp [Source.table, InnerBlock.ofChildren]
  have hpair : Chk.size = 40 := rfl
  have hfanout : fanout = 25 := rfl
  rw [InnerBlock.length_tableBytes, hchks, Vector.length_toList, hpair] at hlengths
  omega

/-- A transfer that takes its replies from a store with the blocks that an insertion sends does not
fail, gets ahead with every block that is waited for, and ends with the file. -/
theorem sustained_of_reachable [RandomSource ρ] {origin d disk : Disk} {source target : String}
    {priority : UInt32} {k k' : ScriptedSink} {c : FileContent} {f : FileIdentifier}
    {storage : Storage} (hc : origin.contentAt source = .ok c) (hsize : c.size ≤ maxSize)
    (hf : Files.insert s origin source ⟨priority, 0⟩ (ScriptedSink.sink s) k = (.ok f, k'))
    (hkeyed : ∀ hash block, store hash = some block → s.hash block.toList = hash)
    (hstocked : ∀ block, .insert priority block ∈ k'.sent →
      store (s.hash block.toList) = some block)
    (hcrypt : ∀ key block, s.decrypt key (s.encrypt key block) = block)
    (hcollision : ∀ level position below start, Place c.size (level + 1) position →
      Place c.size below start →
      s.hash (InnerBlock.tableBytes ((Source.ofFile c.toBytes).table s level position).chks) =
        s.hash ((Source.ofFile c.toBytes).cipher s below start).toList →
      InnerBlock.tableBytes ((Source.ofFile c.toBytes).table s level position).chks =
        ((Source.ofFile c.toBytes).cipher s below start).toList)
    (hsound : d.Sound)
    (hopen : Storage.openWritable d f.length.toNat target = (.ok storage, disk))
    (hbinds : ∀ d', Filled ⟨s, storage, some f.crc⟩ (Source.ofFile c.toBytes) disk d' →
      Download.DiskBinds ⟨s, storage, some f.crc⟩ (Source.ofFile c.toBytes) d')
    (hdownload : x.download = Download.State.first f disk) (hrequests : x.table.requests = []) :
    (x.perform (Download.start ⟨s, storage, some f.crc⟩ 0)).1 = .ok () ∧
      ∀ y, Reachable ⟨s, storage, some f.crc⟩ (Fetching store) x y →
        Sustained ⟨s, storage, some f.crc⟩ store target c.toBytes y := by
  have hlength : (Source.ofFile c.toBytes).size = c.size := FileContent.length_toBytes c
  have hserves : Serves s (Source.ofFile c.toBytes) store := by
    refine ⟨hkeyed, fun level position hplace => ?_⟩
    rw [hlength] at hplace
    exact hstocked _ (Files.insert_mem_sent hc hsize hf hplace)
  obtain ⟨htop, hoffset, hintact, object, hobject, htarget⟩ :=
    Download.intact_of_insert hc hsize hf hsound hopen
  have hidentified : f.length.toNat = (Source.ofFile c.toBytes).size := hintact.faithful.fileSize
  rw [← hlength] at hsize hcollision
  rw [← hdownload] at hintact
  have hfresh : Fresh f x := ⟨by rw [hdownload]; rfl, by rw [hdownload]; rfl, hrequests⟩
  have hunstarted : Download.Unstarted x.download.tree := by
    rw [hfresh.tree]
    exact Download.unstarted_forDownload _
  have hprogress : x.download.meter.stats.progress +
      (due (Source.ofFile c.toBytes).size x.download.tree).ncard =
        (Source.ofFile c.toBytes).size := by
    rw [hdownload, ← hidentified]
    exact (Nat.zero_add _).trans (ncard_due_forDownload _)
  obtain ⟨hstart, hbegun⟩ := Underway.start hsize htop hbinds hintact hunstarted
    (by rw [hdownload]; rfl) htarget hprogress
  refine ⟨hstart, fun y hreachable => ?_⟩
  have hunderway : Underway ⟨s, storage, some f.crc⟩ (Source.ofFile c.toBytes) disk target object
      y.download := by
    induction hreachable with
    | start _ => exact hbegun
    | step hbefore hkind _ ih =>
      exact (ih.handle hsize htop hoffset hbinds hserves hcrypt (hbefore.inStep hfresh) hkind).2
  have hstep := hreachable.inStep hfresh
  constructor
  case ok => exact fun e he =>
    (hunderway.handle hsize htop hoffset hbinds hserves hcrypt hstep he).1
  case waits => exact hstep.waits
  case fewer =>
    intro k n hn hstatus
    have hshape := hunderway.ready.intact.good.sound.shaped hn
    rw [hunderway.ready.intact.faithful.fileSize] at hshape
    have hchk := (hunderway.ready.intact.faithful.node hn).chk
    have hreply := hserves.stocked _ _ hshape.place
    rw [← hchk] at hreply
    refine ⟨_, hreply, ?_⟩
    refine hunderway.deliver_waited hsize htop hoffset hbinds hserves hcrypt hstep hn hstatus hreply ?_
    intro level position hplace
    rw [hchk]
    exact superHash_ne hsize hcollision hplace hshape.place
  case done =>
    intro hroot
    refine ⟨⟨y.download.disk.content object, ?_, ?_⟩, ?_, ?_, hstep.requests_eq_nil hroot⟩
    · exact Disk.contentAt_eq_ok.2 ⟨object, hunderway.target, rfl⟩
    · exact hunderway.ready.intact.toBytes_eq hroot hobject
    · have hnone : due (Source.ofFile c.toBytes).size y.download.tree = ∅ := by
        ext k
        exact iff_of_false (fun hk => hstep.idle.good.not_awaited hroot hk.2) (by simp)
      have htotal := hunderway.progress
      rw [hnone, Set.ncard_empty, Nat.add_zero] at htotal
      exact htotal
    · exact hstep.idle.good.sound.empty hroot

open Download (shelf shelfEnv shelfId shelfOpen shelfSource)

/-- The blocks of the file of two leaves, the root first. -/
def shelfBlocks : List Block :=
  [shelfSource.cipher stripSuite 1 0, shelfSource.cipher stripSuite 0 0,
    shelfSource.cipher stripSuite 0 1024]

def shelfStore (hash : Digest) : Option Block :=
  shelfBlocks.find? (stripSuite.hash ·.toList = hash)

/-- A transfer of the file to the other name. -/
def shelfTransfer : Transfer ChaCha where
  download := .first shelfId shelfOpen
  table := .new .default ⟨[], 0⟩ .open 0

/-- All blocks have been delivered. -/
def shelfDelivered : Transfer ChaCha :=
  (shelfBlocks.map Event.deliver).foldl (fun y e => (y.handle shelfEnv e).2)
    (shelfTransfer.perform (Download.start shelfEnv 0)).2

/-- The super-hash of the root and the hashes of the blocks are apart. -/
theorem apart_shelf :
    (stripSuite.hash (InnerBlock.tableBytes (shelfSource.table stripSuite 0 0).chks) ::
      shelfBlocks.map (stripSuite.hash ·.toList)).Nodup := by
  decide +kernel

theorem nodup_shelfBlocks : (shelfBlocks.map (stripSuite.hash ·.toList)).Nodup :=
  (List.nodup_cons.1 apart_shelf).2

theorem shelfStore_hash {block : Block} (h : block ∈ shelfBlocks) :
    shelfStore (stripSuite.hash block.toList) = some block :=
  find?_key nodup_shelfBlocks h

/-- An insertion of the file sends these blocks and no others. -/
theorem insert_shelf : ∃ k : ScriptedSink,
    Files.insert stripSuite shelf "f" ⟨0, 0⟩ (ScriptedSink.sink stripSuite) ⟨#[], [], none⟩ =
        (.ok shelfId, k) ∧
      ∀ block, .insert 0 block ∈ k.sent → block ∈ shelfBlocks := by
  obtain ⟨k, hinsert, hcount⟩ : ∃ k : ScriptedSink,
      Files.insert stripSuite shelf "f" ⟨0, 0⟩ (ScriptedSink.sink stripSuite) ⟨#[], [], none⟩ =
        (.ok shelfId, k) ∧ k.sent.toList.length = 3 := by
    refine ⟨_, Prod.ext ?_ rfl, ?_⟩ <;> decide +kernel
  refine ⟨k, hinsert, fun block hblock => ?_⟩
  have hsent : ∀ {level position}, Place 1025 level position →
      .insert 0 (shelfSource.cipher stripSuite level position) ∈ k.sent.toList := by
    intro level position hplace
    have hmem := Files.insert_mem_sent Download.contentAt_shelf (by decide) hinsert hplace
    rwa [Download.ofFile_shelf, Array.mem_def] at hmem
  have hsubset : shelfBlocks.map (ClientMessage.insert 0) ⊆ k.sent.toList := by
    simp only [shelfBlocks, List.map_cons, List.map_nil, List.cons_subset, List.nil_subset,
      and_true]
    exact ⟨hsent ⟨by decide, by decide, by decide⟩, hsent ⟨by decide, by decide, by decide⟩,
      hsent ⟨by decide, by decide, by decide⟩⟩
  have hnodup : (shelfBlocks.map (ClientMessage.insert 0)).Nodup :=
    (List.Nodup.of_map _ nodup_shelfBlocks).map fun _ _ heq => by injection heq
  have hperm := (List.subperm_of_subset hnodup hsubset).perm_of_length_le hcount.le
  obtain ⟨found, hfound, heq⟩ := List.mem_map.1 (hperm.mem_iff.2 (Array.mem_def.1 hblock))
  injection heq with _ hsame
  exact hsame ▸ hfound

theorem table_shelf_ne (level position below start : Nat) (hplace : Place 1025 (level + 1) position)
    (hstart : Place 1025 below start) :
    stripSuite.hash (InnerBlock.tableBytes (shelfSource.table stripSuite level position).chks) ≠
      stripSuite.hash (shelfSource.cipher stripSuite below start).toList := by
  obtain ⟨hlevel, -⟩ | ⟨hlevel, rfl⟩ := place_strip hplace
  · cases hlevel
  obtain rfl : level = 0 := by omega
  have hblock : shelfSource.cipher stripSuite below start ∈ shelfBlocks := by
    obtain ⟨rfl, rfl | rfl⟩ | ⟨rfl, rfl⟩ := place_strip hstart <;> simp [shelfBlocks]
  intro heq
  have hmem := List.mem_map_of_mem (f := fun block : Block => stripSuite.hash block.toList) hblock
  rw [← heq] at hmem
  exact (List.nodup_cons.1 apart_shelf).1 hmem

theorem sustained_of_shelfDelivered :
    shelfDelivered.stats.progress = 1025 ∧ shelfDelivered.table.requests = [] ∧
      ∃ c, shelfDelivered.download.disk.contentAt "g" = .ok c ∧ c.toBytes = (strip 9).toBytes := by
  obtain ⟨k, hinsert, hsent⟩ := insert_shelf
  have hkeyed : ∀ hash block, shelfStore hash = some block →
      stripSuite.hash block.toList = hash := by
    intro hash block hblock
    simpa using List.find?_some hblock
  have hcrypt : ∀ key block, stripSuite.decrypt key (stripSuite.encrypt key block) = block :=
    fun _ block => Suite.flip_flip block
  obtain ⟨hstart, hrun⟩ := @sustained_of_reachable ChaCha stripSuite shelfTransfer shelfStore _
    shelf shelf shelfOpen "f" "g" 0 ⟨#[], [], none⟩ k (strip 9) shelfId shelfEnv.storage
    Download.contentAt_shelf (by decide) hinsert hkeyed
    (fun block hblock => shelfStore_hash (hsent block hblock)) hcrypt
    (fun level position below start hplace hstart heq => absurd
      (Download.ofFile_shelf ▸ heq) (table_shelf_ne level position below start hplace hstart))
    Download.sound_shelf Download.openWritable_shelf
    (fun d' _ => Download.ofFile_shelf ▸ Download.diskBinds_shelf _ _ d') rfl rfl
  have hstored : ∀ e ∈ shelfBlocks.map Event.deliver, Fetching shelfStore e := by
    intro e he
    obtain ⟨block, hblock, rfl⟩ := List.mem_map.1 he
    exact ⟨_, shelfStore_hash hblock⟩
  have hdelivered : Reachable shelfEnv (Fetching shelfStore) shelfTransfer shelfDelivered :=
    Reachable.foldl (fun y hy => (hrun y hy).ok) (.start hstart) hstored
  have hgone : shelfDelivered.download.tree.root = none := by decide +kernel
  obtain ⟨hcontent, hprogress, -, hrequests⟩ := (hrun _ hdelivered).done hgone
  exact ⟨hprogress.trans (FileContent.length_toBytes (strip 9)), hrequests, hcontent⟩

end Transfer

end ContentTree

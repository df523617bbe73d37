import ContentTree.Proofs.Storage
import ContentTree.Proofs.Tree.Faithful
import ContentTree.Proofs.Tree.Operations

/-!
# What a download leaves on disk

While a known file is downloaded, every leaf that is no longer awaited is on disk, and what a reply
adds to the disk is the block of the file at the place of its node. A reply is ignored, turned away
with nothing changed, or taken, and nothing else can happen to it.
-/

namespace ContentTree

namespace Download

variable {env : Env} {heard : Option (Nat × Block)} {src : Source} {st st' : State} {id : Nat}
  {n : Node}

structure Intact (env : Env) (src : Source) (st : State) : Prop where
  good : Good st.tree
  faithful : Faithful env.suite src st.tree
  opened : env.storage.Opened st.disk
  size : env.storage.size = src.size
  within : ∀ object, env.storage.IsLevel 0 object → (st.disk.content object).size ≤ src.size
  held : ∀ position, Place src.size 0 position → ¬ Awaited st.tree 0 position →
    env.storage.read st.disk 0 position (leafLength src.size position) =
      .ok (src.payload env.suite 0 position)

theorem Intact.held_write (h : Intact env src st) (hsize : src.size ≤ maxSize) {level position : Nat}
    {disk : Disk} (hplace : Place src.size level position)
    (hwrite : env.storage.write st.disk level position (src.payload env.suite level position) =
      .ok disk) {below start : Nat} (hstart : Place src.size below start)
    (hheld : (level = below ∧ position = start) ∨
      env.storage.read st.disk below start (nodeLength src.size below start) =
        .ok (src.payload env.suite below start)) :
    env.storage.read disk below start (nodeLength src.size below start) =
      .ok (src.payload env.suite below start) := by
  have hlevel : ∀ {level position}, Place src.size level position →
      level ≤ treeDepth env.storage.size := by
    intro level position hplace
    rw [h.size]
    exact hplace.level_le
  have hlength : (src.payload env.suite below start).length = nodeLength src.size below start :=
    Source.length_payload hsize hstart
  by_cases hsame : level = below ∧ position = start
  · obtain ⟨rfl, rfl⟩ := hsame
    rw [← hlength]
    exact Storage.read_write_self h.opened (hlevel hplace) hwrite
  · have hread := hheld.resolve_left hsame
    have hne : ¬ (below = level ∧ start = position) := fun heq => hsame ⟨heq.1.symm, heq.2.symm⟩
    apply Storage.read_write_of_ne h.opened (hlevel hplace) hwrite _ _ hplace.dvd hstart.dvd
      (hlevel hstart) hne hread hlength
    · rw [Source.length_payload hsize hplace]
      exact nodeLength_le hsize hplace
    · exact nodeLength_le hsize hstart

theorem Intact.within_write (h : Intact env src st) (hsize : src.size ≤ maxSize)
    {level position : Nat} {disk : Disk} (hplace : Place src.size level position)
    (hwrite : env.storage.write st.disk level position (src.payload env.suite level position) =
      .ok disk) (object : Nat) (hobject : env.storage.IsLevel 0 object) :
    (disk.content object).size ≤ src.size := by
  have hlevel : level ≤ treeDepth env.storage.size := by
    rw [h.size]
    exact hplace.level_le
  apply Storage.size_write_le h.opened hlevel hwrite hobject (h.within object hobject)
  rintro rfl
  rw [Source.length_payload hsize hplace]
  have hlength : nodeLength src.size 0 position = min (src.size - position) leafCapacity := rfl
  have hstart := hplace.start
  omega

theorem Intact.move (h : Intact env src st) (hsize : src.size ≤ maxSize)
    (hdisk : DiskBinds env src st.disk) (hreply : ReplyBinds env src st.tree heard)
    (hmove : Move env heard st st') : Intact env src st' := by
  have hgood := h.good.move hmove
  have hfaithful := h.faithful.move h.good hsize hdisk hreply hmove
  cases h.good.effect hmove with
  | quiet hsame _ hawaited =>
    refine ⟨hgood, hfaithful, hsame ▸ h.opened, h.size, hsame ▸ h.within, ?_⟩
    intro position hplace hnot
    rw [hsame]
    apply h.held position hplace
    rwa [← hawaited 0 position (h.faithful.fileSize ▸ hplace)]
  | @known k n data hn hknown _ hawaited =>
    have hpayload := hknown.payload_eq h.good h.faithful hn hdisk hreply
    have hshape := h.good.sound.shaped hn
    rw [h.faithful.fileSize] at hshape
    have hbefore : ∀ position, Place src.size 0 position → ¬ Awaited st'.tree 0 position →
        (n.depth = 0 ∧ n.position = position) ∨ ¬ Awaited st.tree 0 position := by
      intro position hplace hnot
      rw [hawaited 0 position (h.faithful.fileSize ▸ hplace), not_and_not_right] at hnot
      by_cases hbefore : Awaited st.tree 0 position
      · obtain ⟨hdepth, hposition⟩ := hnot hbefore
        exact .inl ⟨hdepth.symm, hposition.symm⟩
      · exact .inr hbefore
    generalize hdisk' : st'.disk = disk at hknown
    cases hknown with
    | stored hstatus hread _ =>
      refine ⟨hgood, hfaithful, hdisk' ▸ h.opened, h.size, hdisk' ▸ h.within, ?_⟩
      intro position hplace hnot
      rw [hdisk']
      rcases hbefore position hplace hnot with ⟨hdepth, rfl⟩ | hbefore
      · rw [hshape.length, hdepth] at hread hpayload
        rw [← hpayload]
        exact Storage.read_of_readBlock hread (nodeLength_le hsize hplace)
      · exact h.held position hplace hbefore
    | rebuilt hstatus hinner _ _ =>
      refine ⟨hgood, hfaithful, hdisk' ▸ h.opened, h.size, hdisk' ▸ h.within, ?_⟩
      intro position hplace hnot
      rw [hdisk']
      rcases hbefore position hplace hnot with ⟨hdepth, -⟩ | hbefore
      · have hpos := hshape.isSome_inner?.1 hinner
        omega
      · exact h.held position hplace hbefore
    | reply _ _ _ hwrite =>
      rw [hpayload] at hwrite
      have hlevel : n.depth ≤ treeDepth env.storage.size := by
        rw [h.size]
        exact hshape.place.level_le
      refine ⟨hgood, hfaithful, hdisk' ▸ h.opened.write hlevel hwrite, h.size, ?_, ?_⟩
      · rw [hdisk']
        exact h.within_write hsize hshape.place hwrite
      · intro position hplace hnot
        rw [hdisk']
        apply h.held_write hsize hshape.place hwrite hplace
        rcases hbefore position hplace hnot with hsame | hbefore
        · exact .inl hsame
        · exact .inr (h.held position hplace hbefore)

theorem Intact.moves (h : Intact env src st) (hsize : src.size ≤ maxSize)
    (hdisk : DiskBinds env src st.disk) (hmoves : Moves env st st') : Intact env src st' := by
  induction hmoves with
  | refl => exact h
  | tail hbefore hmove ih =>
    have hsame := disk_eq_of_moves hbefore
    exact ih.move hsize (hsame ▸ hdisk) (replyBinds_none env src _) hmove

theorem Intact.toBytes_eq {file : Bytes} (h : Intact env (Source.ofFile file) st)
    (hroot : st.tree.root = none) {object : Nat} (hobject : env.storage.IsLevel 0 object) :
    (st.disk.content object).toBytes = file := by
  apply FileContent.toBytes_eq (h.within object hobject)
  intro k hk
  obtain ⟨start, hplace, hle, hlt⟩ : ∃ start, Place file.length 0 start ∧ start ≤ k ∧
      k < start + leafLength file.length start := by
    have hsplit := Nat.div_add_mod k leafCapacity
    have hmod := Nat.mod_lt k (show 0 < leafCapacity by decide)
    refine ⟨leafCapacity * (k / leafCapacity), ⟨Nat.zero_le _, Nat.dvd_mul_right .., ?_⟩, ?_, ?_⟩
    · omega
    · omega
    · unfold leafLength
      omega
  have hheld := h.held start hplace (h.good.not_awaited hroot)
  rw [Storage.read_of_isLevel hobject (Storage.levelOffset_lt_of_read hheld), levelOffset_zero] at hheld
  refine ⟨start, leafLength file.length start, hle, hlt, ?_⟩
  calc (st.disk.content object).readAt start (leafLength file.length start)
      = (Source.ofFile file).payload env.suite 0 start := Except.ok.inj hheld
    _ = (file.drop start).take leafCapacity := Source.payload_zero (Source.exact_ofFile file start)
    _ = (file.drop start).take (leafLength file.length start) := by
        apply List.take_eq_take_iff.2
        simp [leafLength, Nat.min_comm]

/-! ### Operations -/

/-- Nothing passes for a block of the file by mistake when a reply comes in: neither its plaintext
for that of the node which waits for it nor, once the block of that node is written, what is on the
disk. -/
structure CallBinds (env : Env) (src : Source) (st : State) (id : NodeId) (handler : ReplyHandler)
    (query : Digest) (reply : Block) : Prop where
  plain : ∀ k n, addressee? st.tree id handler query = some k → st.tree.get? k = some n →
    n.status = .pending → Binds env.suite src n.depth n.position
      ((env.suite.decrypt n.chk.key reply).toList.take n.length)
  after : ∀ k n disk, addressee? st.tree id handler query = some k → st.tree.get? k = some n →
    n.status = .pending → env.storage.write st.disk n.depth n.position
      (src.payload env.suite n.depth n.position) = .ok disk → DiskBinds env src disk

theorem CallBinds.replyBinds {handler : ReplyHandler} {query : Digest} {reply : Block} {k : Nat}
    (h : CallBinds env src st id handler query reply)
    (haddressee : addressee? st.tree id handler query = some k) (hn : st.tree.get? k = some n)
    (hstatus : n.status = .pending) : ReplyBinds env src st.tree (some (k, reply)) := by
  intro k' reply' n' heq hn'
  obtain ⟨rfl, rfl⟩ : k = k' ∧ reply = reply' := by simpa using heq
  obtain rfl := Option.some.inj (hn.symm.trans hn')
  exact h.plain _ _ haddressee hn hstatus

/-- The download of a known file between two operations. -/
structure Ready (env : Env) (src : Source) (st : State) : Prop where
  intact : Intact env src st
  idle : Idle st.tree
  binds : DiskBinds env src st.disk

/-- What becomes of a reply. -/
inductive Outcome (env : Env) (src : Source) (st : State) (id : NodeId) (handler : ReplyHandler)
    (query : Digest) (reply : Block) : Except TreeError Unit × State → Prop
  /-- Nobody waits for it. -/
  | ignored (hnobody : ∀ k n, addressee? st.tree id handler query = some k →
      st.tree.get? k = some n → n.status ≠ .pending) :
      Outcome env src st id handler query reply (.ok (), st)
  /-- It is not what was asked for, and nothing changes. -/
  | refused {k : Nat} {n : Node} (haddressee : addressee? st.tree id handler query = some k)
      (hn : st.tree.get? k = some n) (hstatus : n.status = .pending)
      (hhash : env.suite.hash ((env.suite.decrypt n.chk.key reply).toList.take n.length) ≠
        n.chk.key) :
      Outcome env src st id handler query reply
        (.error (.corrupted n.depth n.position .content), st)
  /-- The block of the file is written at the place of the node. -/
  | taken {k : Nat} {n : Node} {st' : State}
      (haddressee : addressee? st.tree id handler query = some k)
      (hn : st.tree.get? k = some n) (hstatus : n.status = .pending)
      (hhash : env.suite.hash ((env.suite.decrypt n.chk.key reply).toList.take n.length) =
        n.chk.key)
      (hwrite : env.storage.write st.disk n.depth n.position
        (src.payload env.suite n.depth n.position) = .ok st'.disk)
      (htaken : Taken env (some (k, reply)) st k st') :
      Outcome env src st id handler query reply (.ok (), st')

section Operations

variable (hsize : src.size ≤ maxSize)
  (htop : ∀ crc, env.topCrc = some crc → crc = src.checksum env.suite (treeDepth src.size) 0)

include hsize htop

theorem Intact.not_stopped {e : TreeError} (h : Intact env src st)
    (hdisk : DiskBinds env src st.disk) :
    ¬ Stopped env st e st' := by
  rintro ⟨last, hmoves, hrejected, -⟩
  have hintact := h.moves hsize hdisk hmoves
  have hsame := disk_eq_of_moves hmoves
  exact hintact.faithful.not_rejected hintact.good (hsame ▸ hdisk) (replyBinds_none env src _) htop
    hrejected

/-- A download starts without an error and writes nothing. -/
theorem Intact.start (h : Intact env src st) (hdisk : DiskBinds env src st.disk)
    (hunstarted : Unstarted st.tree) :
    ∃ st', (Download.start env 0).run st = (.ok (), st') ∧ Ready env src st' ∧
      st'.disk = st.disk ∧ Moves env st st' := by
  obtain ⟨⟨⟩, st', hrun, hmoves, hidle⟩ := (ends_start hunstarted).exists_ok
    fun e _ hstopped => h.not_stopped hsize htop hdisk hstopped
  have hintact := h.moves hsize hdisk hmoves
  have hsame := disk_eq_of_moves hmoves
  exact ⟨st', hrun, ⟨hintact, hidle, hsame ▸ hdisk⟩, hsame, hmoves⟩

omit hsize htop in
theorem Ready.binds_move {handler : ReplyHandler} {query : Digest} {reply : Block} {k : Nat}
    (h : Ready env src st) (hcall : CallBinds env src st id handler query reply)
    (haddressee : addressee? st.tree id handler query = some k)
    (hreply : ReplyBinds env src st.tree (some (k, reply)))
    (hmove : Move env (some (k, reply)) st st') : DiskBinds env src st'.disk := by
  cases h.intact.good.effect hmove with
  | quiet hsame _ _ => exact hsame ▸ h.binds
  | known hn hknown _ _ =>
    have hpayload := hknown.payload_eq h.intact.good h.intact.faithful hn h.binds hreply
    generalize st'.disk = disk at hknown
    cases hknown with
    | stored hstatus => exact absurd hstatus (h.idle.created hn)
    | rebuilt hstatus => exact absurd hstatus (h.idle.created hn)
    | reply hheard hstatus _ hwrite =>
      injection hheard with hheard
      injection hheard with hk _
      subst hk
      rw [hpayload] at hwrite
      exact hcall.after _ _ _ haddressee hn hstatus hwrite

omit htop in
/-- The move that a reply makes first keeps the download intact. -/
theorem Ready.move {handler : ReplyHandler} {query : Digest} {reply : Block} {k : Nat}
    (h : Ready env src st) (hcall : CallBinds env src st id handler query reply)
    (haddressee : addressee? st.tree id handler query = some k) (hn : st.tree.get? k = some n)
    (hstatus : n.status = .pending) (hmove : Move env (some (k, reply)) st st') :
    ReplyBinds env src st.tree (some (k, reply)) ∧ DiskBinds env src st'.disk ∧
      Intact env src st' := by
  have hreply := hcall.replyBinds haddressee hn hstatus
  exact ⟨hreply, h.binds_move hcall haddressee hreply hmove,
    h.intact.move hsize h.binds hreply hmove⟩

omit htop in
theorem Ready.write_ok (h : Ready env src st) {k : Nat} (hn : st.tree.get? k = some n)
    (hoffset : ∀ position, Place src.size 0 position → position < Handle.offsetLimit) (bs : Bytes) :
    ∃ disk, env.storage.write st.disk n.depth n.position bs = .ok disk := by
  have hplace := (h.intact.good.sound.shaped hn).place
  rw [h.intact.faithful.fileSize] at hplace
  obtain ⟨object, hobject, -⟩ := h.intact.opened.level n.depth (h.intact.size ▸ hplace.level_le)
  refine ⟨_, Storage.write_of_isLevel hobject ?_ bs⟩
  cases hdepth : n.depth with
  | zero =>
    rw [levelOffset_zero]
    exact hoffset _ (hdepth ▸ hplace)
  | succ level =>
    apply levelOffset_lt
    have hstart := hplace.start
    omega

/-- Whatever is received, nothing but blocks of the file gets to the disk. -/
theorem Ready.receive {handler : ReplyHandler} {query : Digest} {reply : Block}
    (h : Ready env src st) (hcall : CallBinds env src st id handler query reply)
    (hoffset : ∀ position, Place src.size 0 position → position < Handle.offsetLimit) :
    Outcome env src st id handler query reply
        ((Download.receive env id handler query reply).run st) ∧
      Ready env src ((Download.receive env id handler query reply).run st).2 := by
  have hends := @ends_receive env st id handler query reply h.idle
  unfold Ends at hends
  rcases hrun : (Download.receive env id handler query reply).run st with ⟨e | _, st'⟩
  · rw [hrun] at hends
    obtain ⟨k, n, haddressee, hn, hstatus, ⟨rfl, hrefused⟩ | hhalted⟩ := hends
    · cases hrefused with
      | content hhash => exact ⟨.refused haddressee hn hstatus hhash, h⟩
      | storage hwrite =>
        obtain ⟨disk, hok⟩ := h.write_ok hsize hn hoffset
          ((env.suite.decrypt n.chk.key reply).toList.take n.length)
        rw [hok] at hwrite
        cases hwrite
    · exfalso
      rcases hhalted with ⟨hrejected, -⟩ | ⟨mid, hmove, hstopped⟩
      · exact h.intact.faithful.not_rejected h.intact.good h.binds
          (hcall.replyBinds haddressee hn hstatus) htop hrejected
      · obtain ⟨-, hbinds, hintact⟩ := h.move hsize hcall haddressee hn hstatus hmove
        exact hintact.not_stopped hsize htop hbinds hstopped
  · rw [hrun] at hends
    obtain ⟨rfl, hnobody⟩ | ⟨k, n, haddressee, hn, hstatus, htaken, hidle⟩ := hends
    · exact ⟨.ignored hnobody, h⟩
    · have htaken' := htaken
      obtain ⟨mid, n', data, hn', hknown, hmove, -, hmoves, -⟩ := htaken'
      obtain rfl := Option.some.inj (hn.symm.trans hn')
      obtain ⟨hreply, hbinds, hintact⟩ := h.move hsize hcall haddressee hn hstatus hmove
      have hlast := hintact.moves hsize hbinds hmoves
      have hsame := disk_eq_of_moves hmoves
      have hpayload := hknown.payload_eq h.intact.good h.intact.faithful hn h.binds
        hreply
      refine ⟨?_, hlast, hidle, hsame ▸ hbinds⟩
      rw [← hsame] at hknown
      generalize hdisk : st'.disk = disk at hknown
      cases hknown with
      | stored hcreated =>
        rw [hcreated] at hstatus
        cases hstatus
      | rebuilt hcreated =>
        rw [hcreated] at hstatus
        cases hstatus
      | reply hheard _ hhash hwrite =>
        injection hheard with hheard
        injection hheard with hk hr
        subst hr
        rw [hpayload, ← hdisk] at hwrite
        exact .taken haddressee hn hstatus hhash hwrite htaken

/-- A reply changes nothing, or a first move takes it that others follow. -/
theorem Ready.received {handler : ReplyHandler} {query : Digest} {reply : Block}
    (h : Ready env src st) (hcall : CallBinds env src st id handler query reply)
    (hoffset : ∀ position, Place src.size 0 position → position < Handle.offsetLimit) :
    ((Download.receive env id handler query reply).run st).2 = st ∨
      ∃ k mid, ReplyBinds env src st.tree (some (k, reply)) ∧
        Move env (some (k, reply)) st mid ∧ DiskBinds env src mid.disk ∧ Intact env src mid ∧
        Moves env mid ((Download.receive env id handler query reply).run st).2 := by
  have houtcome := (h.receive hsize htop hcall hoffset).1
  generalize (Download.receive env id handler query reply).run st = result at houtcome
  cases houtcome with
  | ignored _ => exact .inl rfl
  | refused _ _ _ _ => exact .inl rfl
  | taken haddressee hn hstatus _ _ htaken =>
    obtain ⟨mid, -, -, -, -, hmove, -, hmoves, -⟩ := htaken
    obtain ⟨hreply, hbinds, hintact⟩ := h.move hsize hcall haddressee hn hstatus hmove
    exact .inr ⟨_, mid, hreply, hmove, hbinds, hintact, hmoves⟩

end Operations

end Download

end ContentTree

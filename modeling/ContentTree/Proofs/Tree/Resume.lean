import ContentTree.Proofs.Reopening
import ContentTree.Proofs.Tree.Saved

/-!
# Taking up a download again

A download that is abandoned is started once more on the files as they are. Whatever the first run
had is found again, and a target that is complete asks for nothing.
-/

namespace ContentTree

/-! ### Disks that read the same -/

namespace Storage.Alike

variable {s : Storage} {d d' : Disk}

theorem readBlock (h : s.Alike d d') (level position n : Nat) :
    s.readBlock d' level position n = s.readBlock d level position n := by
  unfold Storage.readBlock
  rw [h]

theorem source (h : s.Alike d d') (size : Nat) : s.source d' size = s.source d size := by
  unfold Storage.source
  simp only [h 0]

theorem hasLeaf (h : s.Alike d d') (size position : Nat) :
    s.HasLeaf d' size position ↔ s.HasLeaf d size position := by
  unfold Storage.HasLeaf
  rw [h]

end Storage.Alike

namespace Download

variable {env : Env} {src : Source} {heard : Option (Nat × Block)} {st st' : State} {t : Tree}
  {disk disk' : Disk} {id level position : Nat} {n m : Node}

theorem DiskBinds.of_alike (h : DiskBinds env src disk) (halike : env.storage.Alike disk disk') :
    DiskBinds env src disk' where
  stored level position data hplace hread := by
    rw [halike.readBlock] at hread
    exact h.stored level position data hplace hread
  rebuilt level position hplace hpos hleaves := by
    rw [halike.source]
    refine h.rebuilt level position hplace hpos fun start hstart hcovers => ?_
    exact (halike.hasLeaf _ _).1 (hleaves start hstart hcovers)

theorem Recoverable.of_alike (h : Recoverable env src disk level position)
    (halike : env.storage.Alike disk disk') : Recoverable env src disk' level position := by
  unfold Recoverable Stored at h ⊢
  simpa only [halike _ _ _] using h

/-! ### Asking -/

/-- Some node waits for a reply. -/
def Waits (t : Tree) : Prop := ∃ (k : Nat) (b : Node), t.get? k = some b ∧ b.status = .pending

theorem Waits.set (h : Waits t) (hn : t.get? id = some n) (hstatus : n.status ≠ .pending) :
    Waits (t.set id m) := by
  obtain ⟨k, b, hb, hs⟩ := h
  refine ⟨k, b, ?_, hs⟩
  rw [Tree.get?_set hn, if_neg, hb]
  rintro rfl
  obtain rfl := Option.some.inj (hn.symm.trans hb)
  exact hstatus hs

theorem Evidence.created {data : Block} (h : Evidence env none st id n data disk) :
    n.status = .created := by
  cases h with
  | stored hstatus => exact hstatus
  | rebuilt hstatus => exact hstatus
  | reply hheard => cases hheard

/-- Without a reply no wait comes to an end. -/
theorem Waits.move (hwaits : Waits st.tree) (h : Good st.tree) (hmove : Move env none st st') :
    Waits st'.tree := by
  -- Every move takes a node that is not pending, so the one that waits is left alone.
  cases hmove with
  | pad hpad =>
    obtain ⟨k, b, hb, hs⟩ := hwaits
    exact ⟨k, b, (hpad.get? k).trans hb, hs⟩
  | defer hn hstatus => exact hwaits.set hn (by simp [hstatus])
  | crown hn _ hknown _ => exact hwaits.set hn (by simp [hknown.created])
  | @adopt id p slot n m data disk hn hparent hm _ hknown _ =>
    have hbefore := h.parent_status hn hknown.status hparent hm
    obtain ⟨-, hm', status, _, htree, -⟩ :=
      h.told_parent hn hknown.status hparent hm env.suite slot data
    change Waits (told _ _ _).1
    rw [htree]
    refine (hwaits.set hn (by simp [hknown.created])).set hm' ?_
    rcases hbefore with hs | hs <;> simp [hs]
  | unfold hn hstatus hinner hchildren =>
    obtain ⟨i, hi⟩ := Option.isSome_iff_exists.1 hinner
    obtain ⟨-, hunfold⟩ := h.unfolded hn hstatus hi hchildren
    obtain ⟨k, b, hb, hs⟩ := hwaits
    refine ⟨k, b, hunfold.get?_of_old hb ?_, hs⟩
    rintro rfl
    obtain rfl := Option.some.inj (hn.symm.trans hb)
    simp [hstatus] at hs
  | settle hn hstatus _ =>
    simp only [State.said, settled]
    split <;> exact hwaits.set hn (by simp [hstatus])
  | @prune id n hn _ hstatus =>
    have hquiet : n.status ≠ .pending := by
      rcases hstatus with ⟨hs, -⟩ | hs <;> simp [hs]
    obtain ⟨k, b, hb, hs⟩ := hwaits
    obtain ⟨b', hb'⟩ := (h.sound.pruned hn).forth hb <| by
      rintro rfl
      obtain rfl := Option.some.inj (hn.symm.trans hb)
      exact hquiet hs
    obtain ⟨a, ha, hstatus', -⟩ := h.back_pruned hn hquiet hb'
    obtain rfl := Option.some.inj (hb.symm.trans ha)
    exact ⟨k, b', hb', hstatus'.trans hs⟩

section Asks

variable {node : NodeId} {handler : ReplyHandler} {query : Query}

theorem request_not_mem_haste (meter : Meter) (n : Node) :
    SchedulerCall.request node handler query ∉ haste meter n := by
  unfold haste
  split <;> simp

theorem request_not_mem_told (t : Tree) (p : NodeId) (m : Node) :
    SchedulerCall.request node handler query ∉ (told t p m).2 := by
  unfold told
  split
  · simp
  · split <;> simp

/-- Who asks has a node that waits. -/
theorem Good.waits_of_request (h : Good st.tree) (hmove : Move env none st st')
    (hmem : .request node handler query ∈ st'.calls) :
    .request node handler query ∈ st.calls ∨ Waits st'.tree := by
  have hmoved := hmove
  cases hmove with
  | pad => exact .inl hmem
  | @defer id n hn hstatus =>
    refine .inr ⟨id, { n with status := .pending }, ?_, rfl⟩
    change (st.tree.set id _).get? id = _
    rw [Tree.get?_set hn, if_pos rfl]
  | crown =>
    left
    simpa [State.said, request_not_mem_haste] using hmem
  | adopt =>
    left
    simpa [State.said, request_not_mem_haste, request_not_mem_told] using hmem
  | unfold => exact .inl hmem
  | @settle id n hn hstatus hstarted =>
    by_cases hnone : pendingQueries st.tree n = []
    · left
      simpa [State.said, settled, hnone] using hmem
    · obtain ⟨q, hq⟩ := List.exists_mem_of_ne_nil _ hnone
      obtain ⟨c, -, b, hb, hs, -⟩ := mem_pendingQueries.1 hq
      exact .inr (Waits.move ⟨c, b, hb, hs⟩ h hmoved)
  | prune =>
    left
    simpa [State.said] using hmem

theorem Good.waits_of_moves (h : Good st.tree) (hmoves : Moves env st st')
    (hmem : .request node handler query ∈ st'.calls) :
    .request node handler query ∈ st.calls ∨ Waits st'.tree := by
  induction hmoves with
  | refl => exact .inl hmem
  | tail hbefore hmove ih =>
    have hgood := h.moves hbefore
    rcases hgood.waits_of_request hmove hmem with hmem | hwaits
    · rcases ih hmem with hmem | hwaits
      · exact .inl hmem
      · exact .inr (hwaits.move hgood hmove)
    · exact .inr hwaits

end Asks

/-! ### Starting again -/

theorem Ready.intact_reopened {f : FileIdentifier} {object : Nat} (h : Ready env src st)
    (hfirst : Intact env src (State.first f disk)) (hobject : env.storage.IsLevel 0 object) :
    Intact env src (State.first f (env.storage.reopened st.disk object)) where
  good := hfirst.good
  faithful := hfirst.faithful
  opened := ⟨by simpa [State.first, Storage.reopened] using h.intact.opened.level,
    h.intact.opened.apart⟩
  size := hfirst.size
  within other hother := by
    obtain rfl := hobject.unique hother
    obtain ⟨found, hfound, hbound⟩ := h.intact.opened.level 0 (Nat.zero_le _)
    change ((env.storage.reopened st.disk object).content object).size ≤ src.size
    rw [Storage.reopened, Disk.content_setContent_self (hobject.unique hfound ▸ hbound),
      ← hfirst.size]
    exact Nat.min_le_right _ _
  held position hplace hnot := by
    -- Before the start every leaf is awaited, so nothing has to be there yet.
    have hlength : f.length.toNat = src.size := hfirst.faithful.fileSize
    rw [← hlength] at hplace
    exact absurd (awaited_forDownload f hplace) hnot

/-- Between two operations a block is at hand, be its node freed or not, if no node that waits is at
its place or above. -/
def AtHand (t : Tree) (level position : Nat) : Prop :=
  ∀ (k : Nat) b, t.get? k = some b → b.status = .pending →
    ¬ Covers b.depth b.position level position

section Start

variable (hsize : src.size ≤ maxSize)
  (htop : ∀ crc, env.topCrc = some crc → crc = src.checksum env.suite (treeDepth src.size) 0)

include hsize htop

/-- Only what cannot be found on disk is awaited once a download has been started. -/
theorem Intact.start_first {f : FileIdentifier} (h : Intact env src (State.first f disk))
    (hexact : src.Exact) (hdisk : DiskBinds env src disk) :
    ∃ st, (Download.start env 0).run (State.first f disk) = (.ok (), st) ∧ Ready env src st ∧
      Moves env (State.first f disk) st ∧
      ∀ level position, Awaited st.tree level position → ∃ above top, Place src.size above top ∧
        Covers above top level position ∧ ¬ Recoverable env src disk above top := by
  have hunstarted := unstarted_forDownload f
  obtain ⟨st, hrun, hready, -, hmoves⟩ := h.start hsize htop hdisk hunstarted
  refine ⟨st, hrun, hready, hmoves, fun level position hawaited => ?_⟩
  obtain ⟨k, b, hb, hs, hcovers⟩ := hready.idle.awaited_iff.1 hawaited
  have hplace := (hready.intact.good.sound.shaped hb).place
  rw [hready.intact.faithful.fileSize] at hplace
  refine ⟨b.depth, b.position, hplace, hcovers, fun hrecoverable => ?_⟩
  -- The node is pending since the start, which leaves a node so only if its block is lost.
  have hkept : Kept env (State.first f disk) st := (kept_start 0 (State.first f disk)).of_ok hrun
  rcases (hkept hunstarted.good.sound).onward.pending hb hs with ⟨a, ha, has, -⟩ | hlost
  · obtain ⟨-, rfl⟩ : k = 0 ∧ a = firstNode f := eq_firstNode ha
    simp at has
  · change Lost env disk (State.first f disk).tree.fileSize _ _ _ at hlost
    rw [h.faithful.fileSize, (hready.intact.faithful.node hb).chk] at hlost
    exact hrecoverable.not_lost hsize hexact hplace hlost

/-- A download whose leaves are all on disk is done once it has been started, and has asked for
nothing. -/
theorem Intact.start_complete {f : FileIdentifier} (h : Intact env src (State.first f disk))
    (hexact : src.Exact) (hdisk : DiskBinds env src disk)
    (hleaves : ∀ start, Place src.size 0 start → Stored env src disk 0 start) :
    ∃ st, (Download.start env 0).run (State.first f disk) = (.ok (), st) ∧ st.tree.root = none ∧
      st.meter.stats.progress = src.size ∧
      ∀ node handler query, SchedulerCall.request node handler query ∉ st.calls := by
  have hlength : f.length.toNat = src.size := h.faithful.fileSize
  obtain ⟨st, hrun, hready, hmoves, hlost⟩ := h.start_first hsize htop hexact hdisk
  have hnone : ∀ level position, ¬ Awaited st.tree level position := by
    intro level position hawaited
    obtain ⟨above, top, -, -, hgone⟩ := hlost level position hawaited
    exact hgone (.inr fun start hstart _ => hleaves start hstart)
  have hquiet : ¬ Waits st.tree := by
    rintro ⟨k, b, hb, hs⟩
    exact hnone _ _ ⟨k, b, hb, .inr (.inl hs), covers_self b.depth b.position⟩
  refine ⟨st, hrun, ?_, ?_, ?_⟩
  · cases hroot : st.tree.root with
    | none => rfl
    | some r =>
      obtain ⟨n, hn, -⟩ := hready.idle.good.sound.rooted hroot
      exact absurd (hready.idle.exists_pending hn) hquiet
  · have hcalls : Calls env (State.first f disk) ((Download.start env 0).run (State.first f disk)).2 :=
      .start (checksumsHold_of_isOk (by rw [hrun]; rfl))
    rw [hrun] at hcalls
    have hprogress := hcalls.balanced.2.progress
    have hdue : due f.length.toNat st.tree = ∅ :=
      Set.eq_empty_iff_forall_notMem.2 fun k hk => hnone _ _ hk.2
    rwa [hdue, Set.ncard_empty, Nat.add_zero, hlength] at hprogress
  · intro node handler query hmem
    rcases (unstarted_forDownload f).good.waits_of_moves hmoves hmem with hbefore | hwaits
    · exact absurd hbefore (Array.not_mem_empty _)
    · exact hquiet hwaits

variable (hoffset : ∀ position, Place src.size 0 position → position < Handle.offsetLimit)

include hoffset

theorem Ready.awaited_receive {handler : ReplyHandler} {query : Digest} {reply : Block}
    (h : Ready env src st) (hcall : CallBinds env src st id handler query reply)
    (hplace : Place src.size level position)
    (hawaited : Awaited ((Download.receive env id handler query reply).run st).2.tree level position) :
    Awaited st.tree level position := by
  rcases h.received hsize htop hcall hoffset with hsame | hreceived
  · rwa [hsame] at hawaited
  · obtain ⟨k, mid, -, hmove, hbinds, hintact, hmoves⟩ := hreceived
    have hmid : (level, position) ∈ missing src.size mid.tree :=
      (hintact.moves_remaining hsize hbinds hmoves).1 ⟨hplace, hawaited⟩
    exact (h.intact.good.effect hmove).awaited (h.intact.faithful.fileSize ▸ hplace) hmid.2

theorem Run.awaited {first : State} {path : String} {object : Nat} (hrun : Run env src first st)
    (hintact : Intact env src first) (hunstarted : Unstarted first.tree)
    (hdisk : DiskBinds env src first.disk) (hopen : first.disk.open? path = .ok (.file object))
    (hplace : Place src.size level position) (hawaited : Awaited st.tree level position) :
    Awaited ((Download.start env 0).run first).2.tree level position := by
  induction hrun with
  | start => exact hawaited
  | receive hbefore hcall ih =>
    have hready := (hbefore.ready hsize htop hoffset hintact hunstarted hdisk hopen).1
    exact ih (hready.awaited_receive hsize htop hoffset hcall hplace hawaited)

theorem Run.named {first : State} (hrun : Run env src first st) (hintact : Intact env src first)
    (hunstarted : Unstarted first.tree) (hdisk : DiskBinds env src first.disk)
    (hnamed : env.storage.Named first.disk) : env.storage.Named st.disk where
  depth := hnamed.depth
  length := hnamed.length
  level level hlevel := by
    obtain ⟨object, hobject, hopen⟩ := hnamed.level level hlevel
    exact ⟨object, hobject, (hrun.ready hsize htop hoffset hintact hunstarted hdisk hopen).2⟩

/-- What is awaited in a run on files that read like those of another run is awaited there too. -/
theorem Run.awaited_before {f : FileIdentifier} {again : Disk} {path : String} {object : Nat}
    (hrun : Run env src (State.first f disk) st) (hintact : Intact env src (State.first f disk))
    (hexact : src.Exact) (hdisk : DiskBinds env src disk)
    (hopen : disk.open? path = .ok (.file object))
    (hsaved : Saved env src (State.first f disk)) (halike : env.storage.Alike st.disk again)
    (hagain : Intact env src (State.first f again))
    (hopen' : again.open? path = .ok (.file object))
    (hrun' : Run env src (State.first f again) st') (hplace : Place src.size level position)
    (hawaited : Awaited st'.tree level position) : Awaited st.tree level position := by
  have hunstarted := unstarted_forDownload f
  have hready := (hrun.ready hsize htop hoffset hintact hunstarted hdisk hopen).1
  have hbinds := hready.binds.of_alike halike
  -- Receiving only makes blocks known, so the block was awaited right after the second start, and
  -- then it or one above it was not to be recovered from the disk.
  obtain ⟨started, hstart, -, -, hlost⟩ := hagain.start_first hsize htop hexact hbinds
  have hearly := hrun'.awaited hsize htop hoffset hagain hunstarted hbinds hopen' hplace hawaited
  rw [hstart] at hearly
  obtain ⟨above, top, habove, hcovers, hgone⟩ := hlost level position hearly
  have hbefore : Awaited st.tree above top := by
    by_contra hnot
    refine hgone (Recoverable.of_alike ?_ halike)
    exact hrun.saved hsize htop hoffset hsaved hintact hunstarted hdisk hopen above top habove hnot
  obtain ⟨k, b, hb, hs, hcovers'⟩ := hready.idle.awaited_iff.1 hbefore
  have hdvd := (hready.intact.good.sound.shaped hb).place.dvd
  exact hready.idle.awaited_iff.2 ⟨k, b, hb, hs, hcovers'.trans hdvd habove.dvd hcovers⟩

/-- Nothing that the run has is pending, at any time, in a run on the files that it leaves. -/
theorem Run.resumed {f : FileIdentifier} (hrun : Run env src (State.first f disk) st)
    (hintact : Intact env src (State.first f disk)) (hexact : src.Exact)
    (hdisk : DiskBinds env src disk) (hnamed : env.storage.Named disk)
    (hsaved : Saved env src (State.first f disk)) :
    ∃ again, Storage.openWritable st.disk env.storage.size env.storage.path =
        (.ok env.storage, again) ∧
      (∃ st', (Download.start env 0).run (State.first f again) = (.ok (), st')) ∧
      ∀ st', Run env src (State.first f again) st' →
        (∀ (k : Nat) n, st'.tree.get? k = some n → n.status = .pending →
          ¬ AtHand st.tree n.depth n.position) ∧
        st.meter.stats.progress ≤ st'.meter.stats.progress := by
  have hunstarted := unstarted_forDownload f
  have hlength : f.length.toNat = src.size := hintact.faithful.fileSize
  obtain ⟨object, hobject, hpath⟩ := hnamed.level 0 (Nat.zero_le _)
  obtain ⟨hready, hkept⟩ := hrun.ready hsize htop hoffset hintact hunstarted hdisk hpath
  have hwithin := hready.intact.within object hobject
  have hnamed' := hrun.named hsize htop hoffset hintact hunstarted hdisk hnamed
  have halike : env.storage.Alike st.disk (env.storage.reopened st.disk object) :=
    Storage.alike_reopened (hready.intact.size ▸ hwithin)
  have hopen' : (env.storage.reopened st.disk object).open? _ = .ok (.file object) :=
    (Disk.extends_setContent _ _ _).open? hkept
  have hagain := hready.intact_reopened hintact hobject
  have hbinds := hready.binds.of_alike halike
  obtain ⟨started, hstart, -⟩ := hagain.start_first hsize htop hexact hbinds
  have hback : ∀ {st'}, Run env src (State.first f (env.storage.reopened st.disk object)) st' →
      ∀ level position, Place src.size level position → Awaited st'.tree level position →
        Awaited st.tree level position := fun hrun' level position =>
    hrun.awaited_before hsize htop hoffset hintact hexact hdisk hpath hsaved halike hagain hopen'
      hrun'
  refine ⟨_, hnamed'.openWritable hobject, ⟨started, hstart⟩, fun st' hrun' => ⟨?_, ?_⟩⟩
  · intro k n hn hs hathand
    have hready' := (hrun'.ready hsize htop hoffset hagain hunstarted hbinds hopen').1
    have hplace := (hready'.intact.good.sound.shaped hn).place
    rw [hready'.intact.faithful.fileSize] at hplace
    have hawaited : Awaited st'.tree n.depth n.position :=
      ⟨k, n, hn, .inr (.inl hs), covers_self _ _⟩
    obtain ⟨a, b, hb, hbs, hcovers⟩ :=
      hready.idle.awaited_iff.1 (hback hrun' _ _ hplace hawaited)
    exact hathand a b hb hbs hcovers
  · have hprogress := (hrun.calls hsize htop hoffset hintact hunstarted hdisk hpath).balanced.2.progress
    have hprogress' :=
      (hrun'.calls hsize htop hoffset hagain hunstarted hbinds hopen').balanced.2.progress
    have hsubset : due f.length.toNat st'.tree ⊆ due f.length.toNat st.tree := fun k hk =>
      ⟨hk.1, hback hrun' _ _ (hlength ▸ place_leaf hk.1) hk.2⟩
    have hle := Set.ncard_le_ncard hsubset (finite_due _ _)
    omega

end Start

theorem stored_of_toBytes {file : Bytes} {object : Nat} (hobject : env.storage.IsLevel 0 object)
    (hbytes : (disk.content object).toBytes = file) (hoffset : position < Handle.offsetLimit) :
    Stored env (Source.ofFile file) disk 0 position := by
  rw [Stored, Storage.read_of_isLevel hobject (by rwa [levelOffset_zero]), levelOffset_zero,
    FileContent.readAt_eq_take_drop, hbytes, Source.payload_zero (Source.exact_ofFile file position)]
  congr 1
  apply List.take_eq_take_iff.2
  simp [Source.ofFile, nodeLength, leafLength, Nat.min_comm]

/-- A download that is started again on the files that another run has left has all that the other
had, and one whose target is complete asks for nothing. -/
theorem resumed_of_run {s : Suite} {origin d disk : Disk} {source target : String}
    {opts : InsertOptions} {c : FileContent} {f : FileIdentifier} {storage : Storage}
    (hc : origin.contentAt source = .ok c) (hsize : c.size ≤ maxSize)
    (hf : Files.identify s origin source opts = .ok f) (hsound : d.Sound)
    (hopen : Storage.openWritable d f.length.toNat target = (.ok storage, disk))
    (hbinds : DiskBinds ⟨s, storage, some f.crc⟩ (Source.ofFile c.toBytes) disk) :
    (∀ st, Run ⟨s, storage, some f.crc⟩ (Source.ofFile c.toBytes) (State.first f disk) st →
      ∃ again, Storage.openWritable st.disk f.length.toNat target = (.ok storage, again) ∧
        (∃ st', (start ⟨s, storage, some f.crc⟩ 0).run (State.first f again) = (.ok (), st')) ∧
        ∀ st', Run ⟨s, storage, some f.crc⟩ (Source.ofFile c.toBytes) (State.first f again) st' →
          (∀ (id : Nat) n, st'.tree.get? id = some n → n.status = .pending →
            ¬ AtHand st.tree n.depth n.position) ∧
          st.meter.stats.progress ≤ st'.meter.stats.progress) ∧
      ∀ c', d.contentAt target = .ok c' → c'.toBytes = c.toBytes →
        ∃ st, (start ⟨s, storage, some f.crc⟩ 0).run (State.first f disk) = (.ok (), st) ∧
          st.tree.root = none ∧ st.meter.stats.progress = c.size ∧
          ∀ id handler query, SchedulerCall.request id handler query ∉ st.calls := by
  have hlength : (Source.ofFile c.toBytes).size = c.size := FileContent.length_toBytes c
  have hinserted : Files.insert s origin source opts Sink.discard () = (.ok f, ()) :=
    Prod.ext hf rfl
  obtain ⟨htop, hoffset, hintact, -⟩ := intact_of_insert hc hsize hinserted hsound hopen
  have hidentified : f.length.toNat = (Source.ofFile c.toBytes).size := hintact.faithful.fileSize
  rw [← hlength] at hsize
  obtain ⟨hpath, hstorage, -, hnamed, object, mid, hobject, hmid, hcontent⟩ :=
    Storage.openWritable_eq_ok hsound hopen
  have hexact := Source.exact_ofFile c.toBytes
  constructor
  · intro st hrun
    have hresumed := hrun.resumed hsize htop hoffset hintact hexact hbinds hnamed
      (saved_first hidentified)
    rwa [hpath, hstorage] at hresumed
  · intro c' hc' hbytes
    -- The target is there, so it is opened as it is, and cutting it to its own size does nothing.
    obtain ⟨found, hfound, rfl⟩ := Disk.contentAt_eq_ok.1 hc'
    rw [Disk.openOrCreate_of_open? hfound] at hmid
    obtain ⟨rfl, rfl⟩ : found = object ∧ d = mid := by simpa using hmid
    have hsame : (disk.content found).toBytes = c.toBytes := by
      rw [hcontent, FileContent.toBytes_truncate, hbytes]
      rw [← FileContent.length_toBytes, hbytes]
      exact hidentified.ge
    have hcomplete := hintact.start_complete hsize htop hexact hbinds fun start hstart =>
      stored_of_toBytes hobject hsame (hoffset start hstart)
    rwa [hlength] at hcomplete

/-- The download of the file over itself. -/
def overEnv : Env :=
  ⟨stripSuite, ⟨"f", 1025, 1, [some (.file 0 true), some (.file 2 true)]⟩, some shelfId.crc⟩

def overOpen : Disk := (shelf.setContent 0 ((shelf.content 0).truncate 1025)).created 0 "f.A"

theorem openWritable_over :
    Storage.openWritable shelf shelfId.length.toNat "f" = (.ok overEnv.storage, overOpen) := by
  decide +kernel

/-- A download that is broken off between the leaves, and one over the file itself. -/
theorem resumed_of_shelf_run :
    (∃ again, Storage.openWritable shelfHalf.disk shelfId.length.toNat "g" =
        (.ok shelfEnv.storage, again) ∧
      1024 ≤ ((start shelfEnv 0).run (State.first shelfId again)).2.meter.stats.progress) ∧
      ∃ st, (start overEnv 0).run (State.first shelfId overOpen) = (.ok (), st) ∧
        st.tree.root = none ∧ st.meter.stats.progress = 1025 ∧
        ∀ id handler query, SchedulerCall.request id handler query ∉ st.calls := by
  constructor
  · obtain ⟨hruns, -⟩ := resumed_of_run contentAt_shelf (by decide) identify_shelf sound_shelf
      openWritable_shelf (ofFile_shelf ▸ diskBinds_shelf _ _ _)
    have henv : (⟨stripSuite, shelfEnv.storage, some shelfId.crc⟩ : Env) = shelfEnv := rfl
    rw [ofFile_shelf, henv] at hruns
    obtain ⟨again, hopen, -, hlater⟩ := hruns shelfHalf run_shelfHalf
    have hprogress : shelfHalf.meter.stats.progress = 1024 := by decide +kernel
    have hle := (hlater _ .start).2
    rw [hprogress] at hle
    exact ⟨again, hopen, hle⟩
  · obtain ⟨-, hcomplete⟩ := resumed_of_run contentAt_shelf (by decide) identify_shelf sound_shelf
      openWritable_over (ofFile_shelf ▸ diskBinds_shelf _ _ _)
    exact hcomplete _ contentAt_shelf rfl

end Download

end ContentTree

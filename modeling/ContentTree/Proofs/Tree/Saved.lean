import ContentTree.Proofs.Tree.Accounting
import ContentTree.Proofs.Tree.Kept

/-!
# What a download can be resumed from

A place that is no longer awaited leaves enough on disk for its block to be found again: the block
itself in the file of its level, or all the leaves below it. Later writes keep both.
-/

namespace ContentTree

namespace Download

variable {env : Env} {src : Source} {heard : Option (Nat × Block)} {st st' : State} {disk : Disk}
  {id level position : Nat} {n : Node} {data : Block}

/-- The block of the file is on disk at its place. -/
def Stored (env : Env) (src : Source) (disk : Disk) (level position : Nat) : Prop :=
  env.storage.read disk level position (nodeLength src.size level position) =
    .ok (src.payload env.suite level position)

/-- The block is on disk at its place, or the leaves below it are at theirs. -/
def Recoverable (env : Env) (src : Source) (disk : Disk) (level position : Nat) : Prop :=
  Stored env src disk level position ∨
    ∀ start, Place src.size 0 start → Covers level position 0 start → Stored env src disk 0 start

/-- What is not awaited can be found again. -/
def Saved (env : Env) (src : Source) (st : State) : Prop :=
  ∀ level position, Place src.size level position → ¬ Awaited st.tree level position →
    Recoverable env src st.disk level position

/-! ### Finding it again -/

theorem stored_of_readBlock (hsize : src.size ≤ maxSize) (hplace : Place src.size level position)
    (hread : env.storage.readBlock disk level position (nodeLength src.size level position) = .ok data)
    (hdata : data.toList.take (nodeLength src.size level position) =
      src.payload env.suite level position) : Stored env src disk level position := by
  rw [Stored, ← hdata]
  exact Storage.read_of_readBlock hread (nodeLength_le hsize hplace)

theorem Stored.readBlock (h : Stored env src disk level position) (hsize : src.size ≤ maxSize)
    (hplace : Place src.size level position) :
    env.storage.readBlock disk level position (nodeLength src.size level position) =
        .ok (fit 1024 (src.payload env.suite level position)) ∧
      (fit 1024 (src.payload env.suite level position)).toList.take
        (nodeLength src.size level position) = src.payload env.suite level position := by
  have hlength : (src.payload env.suite level position).length = nodeLength src.size level position :=
    Source.length_payload hsize hplace
  have hfull : (src.payload env.suite level position).length ≤ 1024 := by
    rw [hlength]
    exact nodeLength_le hsize hplace
  refine ⟨Storage.readBlock_of_read h hlength, ?_⟩
  rw [← hlength, take_toList_fit hfull]

theorem Stored.hasLeaf {start : Nat} (h : Stored env src disk 0 start) (hsize : src.size ≤ maxSize)
    (hplace : Place src.size 0 start) : env.storage.HasLeaf disk src.size start :=
  ⟨_, h, Source.length_payload hsize hplace⟩

theorem Stored.leaf_eq {start : Nat} (h : Stored env src disk 0 start) (hsize : src.size ≤ maxSize)
    (hexact : src.Exact) (hplace : Place src.size 0 start) :
    (env.storage.source disk src.size).leaf start = src.leaf start := by
  have hread := (h.hasLeaf hsize hplace).read.1
  have hsame : src.payload env.suite 0 start = (env.storage.source disk src.size).leaf start :=
    Except.ok.inj (h.symm.trans hread)
  rw [← hsame, Source.payload_zero (hexact start)]

theorem Recoverable.not_lost (h : Recoverable env src disk level position)
    (hsize : src.size ≤ maxSize) (hexact : src.Exact) (hplace : Place src.size level position) :
    ¬ Lost env disk src.size level position (src.chk env.suite level position) := by
  intro hlost
  have hstored : ¬ Stored env src disk level position := by
    intro hstored
    obtain ⟨hread, hdata⟩ := hstored.readBlock hsize hplace
    exact hlost.stored _ hread (by rw [hdata, Source.key_chk])
  have hleaves := h.resolve_left hstored
  -- If the block is not there its leaves are, and then it can be rebuilt from them.
  cases level with
  | zero => exact hstored (hleaves position hplace (covers_self 0 position))
  | succ level =>
    refine hlost.rebuilt (Nat.succ_pos level) ⟨fun start hstart hcovers => ?_, ?_⟩
    · exact (hleaves start hstart hcovers).hasLeaf hsize hstart
    · have hblock : src.block env.suite (level + 1) position =
          (env.storage.source disk src.size).block env.suite (level + 1) position :=
        Source.block_congr hsize rfl hplace fun start hstart hcovers =>
          ((hleaves start hstart hcovers).leaf_eq hsize hexact hstart).symm
      rw [Source.chk, Source.chk, hblock]
      rfl

/-! ### Moves -/

theorem stored_of_rebuilt (hsize : src.size ≤ maxSize) (hdisk : DiskBinds env src disk)
    (hplace : Place src.size level position)
    (hleaves : ∀ start, Place src.size 0 start → Covers level position 0 start →
      env.storage.HasLeaf disk src.size start)
    (hchk : (env.storage.source disk src.size).chk env.suite level position =
      src.chk env.suite level position) {start : Nat} (hstart : Place src.size 0 start)
    (hcovers : Covers level position 0 start) : Stored env src disk 0 start := by
  have hpayload : ∀ {start}, env.storage.HasLeaf disk src.size start →
      (env.storage.source disk src.size).payload env.suite 0 start =
        (env.storage.source disk src.size).leaf start := fun hheld =>
    Source.payload_zero hheld.read.2
  have hbytes : (env.storage.source disk src.size).size = src.size := rfl
  have hsame : (env.storage.source disk src.size).payload env.suite 0 start =
      src.payload env.suite 0 start :=
    Source.payload_eq_of_key_eq hsize hbytes hplace ?_ (congrArg Chk.key hchk) hstart hcovers
  · have hheld := hleaves start hstart hcovers
    rw [hpayload hheld] at hsame
    rw [Stored, ← hsame]
    exact hheld.read.1
  · -- The disk gives no other plaintext with the hash of a block, be it read or rebuilt.
    intro below start hstart hbelow hhash
    cases below with
    | succ below =>
      refine hdisk.rebuilt _ _ hstart (Nat.succ_pos below) (fun leaf hleaf hcovers => ?_) hhash
      exact hleaves leaf hleaf (hbelow.trans hplace.dvd hstart.dvd hcovers)
    | zero =>
      have hheld := hleaves start hstart hbelow
      obtain ⟨-, hlength⟩ := hheld.read
      have hfull : ((env.storage.source disk src.size).leaf start).length ≤ 1024 := by
        rw [hlength]
        exact Nat.min_le_right _ _
      have htake : (fit 1024 ((env.storage.source disk src.size).leaf start)).toList.take
          (nodeLength src.size 0 start) =
            (env.storage.source disk src.size).payload env.suite 0 start := by
        have hnode : nodeLength src.size 0 start = leafLength src.size start := rfl
        rw [hpayload hheld, hnode, ← hlength, take_toList_fit hfull]
      have hbinds := hdisk.stored 0 start _ hstart (Storage.readBlock_of_hasLeaf hheld)
      rw [htake] at hbinds
      exact hbinds hhash

section Moves

variable (hsize : src.size ≤ maxSize)

include hsize

theorem Evidence.recoverable (hknown : Evidence env heard st id n data disk)
    (h : Intact env src st) (hn : st.tree.get? id = some n) (hdisk : DiskBinds env src st.disk)
    (hreply : ReplyBinds env src st.tree heard) :
    Recoverable env src disk n.depth n.position := by
  have hpayload := hknown.payload_eq h.good h.faithful hn hdisk hreply
  have hshape := h.good.sound.shaped hn
  rw [h.faithful.fileSize] at hshape
  cases hknown with
  | stored _ hread _ =>
    rw [hshape.length] at hread hpayload
    exact .inl (stored_of_readBlock hsize hshape.place hread hpayload)
  | rebuilt _ _ hleaves hchk =>
    rw [hshape.fileSize] at hleaves hchk
    rw [(h.faithful.node hn).chk] at hchk
    exact .inr fun start => stored_of_rebuilt hsize hdisk hshape.place hleaves hchk
  | reply _ _ _ hwrite =>
    rw [hpayload] at hwrite
    refine .inl ?_
    rw [Stored, ← Source.length_payload (s := env.suite) hsize hshape.place]
    exact Storage.read_write_self h.opened (h.size ▸ hshape.place.level_le) hwrite

/-- A block that gets known does no harm to the others. -/
theorem Stored.after {start : Nat} (hstored : Stored env src st.disk level start)
    (h : Intact env src st) (hstart : Place src.size level start)
    (hknown : Evidence env heard st id n data disk) (hn : st.tree.get? id = some n)
    (hdisk : DiskBinds env src st.disk) (hreply : ReplyBinds env src st.tree heard) :
    Stored env src disk level start := by
  have hpayload := hknown.payload_eq h.good h.faithful hn hdisk hreply
  have hplace := (h.good.sound.shaped hn).place
  rw [h.faithful.fileSize] at hplace
  cases hknown with
  | stored => exact hstored
  | rebuilt => exact hstored
  | reply _ _ _ hwrite =>
    rw [hpayload] at hwrite
    exact h.held_write hsize hplace hwrite hstart (.inr hstored)

theorem Saved.move (hsaved : Saved env src st) (h : Intact env src st)
    (hdisk : DiskBinds env src st.disk) (hreply : ReplyBinds env src st.tree heard)
    (hmove : Move env heard st st') : Saved env src st' := by
  intro level position hplace hnot
  cases h.good.effect hmove with
  | quiet hsame _ hawaited =>
    rw [hsame]
    exact hsaved level position hplace (by rwa [← hawaited _ _ (h.faithful.fileSize ▸ hplace)])
  | known hn hknown _ hawaited =>
    rw [hawaited _ _ (h.faithful.fileSize ▸ hplace), not_and_not_right] at hnot
    by_cases hbefore : Awaited st.tree level position
    · -- It is the block that has just become known.
      obtain ⟨rfl, rfl⟩ := hnot hbefore
      exact hknown.recoverable hsize h hn hdisk hreply
    · rcases hsaved level position hplace hbefore with hstored | hleaves
      · exact .inl (hstored.after hsize h hplace hknown hn hdisk hreply)
      · exact .inr fun start hstart hcovers =>
          (hleaves start hstart hcovers).after hsize h hstart hknown hn hdisk hreply

theorem Saved.moves (hsaved : Saved env src st) (h : Intact env src st)
    (hdisk : DiskBinds env src st.disk) (hmoves : Moves env st st') : Saved env src st' := by
  induction hmoves with
  | refl => exact hsaved
  | tail hbefore hmove ih =>
    have hsame := disk_eq_of_moves hbefore
    exact ih.move hsize (h.moves hsize hdisk hbefore) (hsame ▸ hdisk) (replyBinds_none env src _) hmove

end Moves

/-! ### Runs -/

/-- At first everything is awaited. -/
theorem saved_first {f : FileIdentifier} (hlength : f.length.toNat = src.size) :
    Saved env src (State.first f disk) := fun _ _ hplace hnot =>
  absurd (awaited_forDownload f (hlength ▸ hplace)) hnot

section Run

variable (hsize : src.size ≤ maxSize)
  (htop : ∀ crc, env.topCrc = some crc → crc = src.checksum env.suite (treeDepth src.size) 0)
  (hoffset : ∀ position, Place src.size 0 position → position < Handle.offsetLimit)

include hsize htop hoffset

theorem Saved.receive {handler : ReplyHandler} {query : Digest} {reply : Block}
    (hsaved : Saved env src st) (h : Ready env src st)
    (hcall : CallBinds env src st id handler query reply) :
    Saved env src ((Download.receive env id handler query reply).run st).2 := by
  rcases h.received hsize htop hcall hoffset with hsame | hreceived
  · rwa [hsame]
  · obtain ⟨k, mid, hreply, hmove, hbinds, hintact, hmoves⟩ := hreceived
    exact (hsaved.move hsize h.intact h.binds hreply hmove).moves hsize hintact hbinds hmoves

theorem Run.saved {first : State} {path : String} {object : Nat} (hrun : Run env src first st)
    (hsaved : Saved env src first) (hintact : Intact env src first)
    (hunstarted : Unstarted first.tree) (hdisk : DiskBinds env src first.disk)
    (hopen : first.disk.open? path = .ok (.file object)) : Saved env src st := by
  induction hrun with
  | start =>
    obtain ⟨st', hrun, -, -, hmoves⟩ := hintact.start hsize htop hdisk hunstarted
    rw [hrun]
    exact hsaved.moves hsize hintact hdisk hmoves
  | receive hbefore hcall ih =>
    have hready := (hbefore.ready hsize htop hoffset hintact hunstarted hdisk hopen).1
    exact ih.receive hsize htop hoffset hready hcall

/-- Nothing is refused for its checksum. -/
theorem Run.calls {first : State} {path : String} {object : Nat} (hrun : Run env src first st)
    (hintact : Intact env src first) (hunstarted : Unstarted first.tree)
    (hdisk : DiskBinds env src first.disk) (hopen : first.disk.open? path = .ok (.file object)) :
    Calls env first st := by
  induction hrun with
  | start =>
    refine .start ?_
    obtain ⟨st', hrun, -⟩ := hintact.start hsize htop hdisk hunstarted
    rw [hrun]
    exact checksumsHold_of_isOk rfl
  | @receive mid id handler query reply hbefore hcall ih =>
    refine .receive ih ?_
    have hready := (hbefore.ready hsize htop hoffset hintact hunstarted hdisk hopen).1
    have houtcome := (hready.receive hsize htop hcall hoffset).1
    generalize (Download.receive env id handler query reply).run mid = result at houtcome
    cases houtcome with
    | ignored _ => exact checksumsHold_of_isOk rfl
    | refused _ _ _ _ =>
      intro level position cause heq
      cases heq
      rfl
    | taken _ _ _ _ _ _ => exact checksumsHold_of_isOk rfl

end Run

end Download

end ContentTree

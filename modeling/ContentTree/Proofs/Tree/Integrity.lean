import ContentTree.Proofs.Identity
import ContentTree.Proofs.Tree.Intact

/-!
# The integrity of downloads

A file is downloaded by its identifier to a target of any content. Whatever replies come in, and
however they are routed, only blocks of the file get to the disk, each at its place, and the target
is the file once the root is gone.
-/

namespace ContentTree

namespace Download

/-- How the download of `f` begins on a disk on which its target is open. -/
def State.first (f : FileIdentifier) (disk : Disk) : State :=
  ⟨Tree.forDownload f, disk, .new f.length.toNat, #[]⟩

/-- The states between the operations of a download. Whatever is received, it does not pass for a
block of the file by mistake. -/
inductive Run (env : Env) (src : Source) (st : State) : State → Prop
  | start : Run env src st ((start env 0).run st).2
  | receive {mid : State} {id : NodeId} {handler : ReplyHandler} {query : Digest} {reply : Block}
      (h : Run env src st mid) (hcall : CallBinds env src mid id handler query reply) :
      Run env src st ((receive env id handler query reply).run mid).2

variable {s : Suite} {env : Env} {src : Source} {st st' : State} {file : Bytes}

theorem awaited_forDownload (f : FileIdentifier) {level position : Nat}
    (hplace : Place f.length.toNat level position) :
    Awaited (Tree.forDownload f) level position := by
  have hlike := like_firstNode f
  refine ⟨0, firstNode f, get?_forDownload f 0, .inl (status_firstNode f), ?_⟩
  rw [hlike.depth, hlike.position, Node.depth_new, Node.position_new]
  exact covers_root hplace

theorem faithful_forDownload (s : Suite) (hsize : src.size ≤ maxSize) :
    Faithful s src (Tree.forDownload (src.identifier s)) := by
  have hlength := Source.toNat_length_identifier s hsize
  refine ⟨hlength, ?_⟩
  intro k n hn
  obtain ⟨-, rfl⟩ := eq_firstNode hn
  have hlike := like_firstNode (src.identifier s)
  apply faithful_of_new (inner?_firstNode (src.identifier s))
  rw [hlike.depth, hlike.position, Node.depth_new, Node.position_new, hlength]
  rfl

/-- Before anything is started, a download is intact whatever the disk holds. -/
theorem intact_forDownload {storage : Storage} {disk : Disk} {topCrc : Option UInt32}
    (hsize : src.size ≤ maxSize) (hopened : storage.Opened disk) (hstorage : storage.size = src.size)
    (hwithin : ∀ object, storage.IsLevel 0 object → (disk.content object).size ≤ src.size) :
    Intact ⟨s, storage, topCrc⟩ src (State.first (src.identifier s) disk) where
  good := (unstarted_forDownload _).good
  faithful := faithful_forDownload s hsize
  opened := hopened
  size := hstorage
  within := hwithin
  held position hplace hnot := by
    rw [← Source.toNat_length_identifier s hsize] at hplace
    exact absurd (awaited_forDownload _ hplace) hnot

theorem intact_first {d disk : Disk} {storage : Storage} {target : String} {topCrc : Option UInt32}
    (hsize : src.size ≤ maxSize) (hsound : d.Sound)
    (hopen : Storage.openWritable d (src.identifier s).length.toNat target = (.ok storage, disk)) :
    Intact ⟨s, storage, topCrc⟩ src (State.first (src.identifier s) disk) ∧
      ∃ object, storage.IsLevel 0 object ∧ disk.open? target = .ok (.file object) := by
  rw [Source.toNat_length_identifier s hsize] at hopen
  obtain ⟨hpath, hstorage, hsound', hnamed, object, mid, hobject, -, hcontent⟩ :=
    Storage.openWritable_eq_ok hsound hopen
  refine ⟨intact_forDownload hsize (hnamed.opened hsound' (hstorage ▸ hsize)) hstorage ?_, object,
    hobject, ?_⟩
  · intro other hother
    obtain rfl := hobject.unique hother
    rw [hcontent]
    exact Nat.min_le_right _ _
  · rw [← hpath]
    exact (hnamed.open? hobject).2

/-- What the download of a file starts from that has been inserted. -/
theorem intact_of_insert {σ : Type} {sink : Sink σ} {k k' : σ} {origin d disk : Disk}
    {source target : String} {opts : InsertOptions} {c : FileContent} {f : FileIdentifier}
    {storage : Storage} (hc : origin.contentAt source = .ok c) (hsize : c.size ≤ maxSize)
    (hf : Files.insert s origin source opts sink k = (.ok f, k')) (hsound : d.Sound)
    (hopen : Storage.openWritable d f.length.toNat target = (.ok storage, disk)) :
    (∀ crc, some f.crc = some crc → crc =
        (Source.ofFile c.toBytes).checksum s (treeDepth (Source.ofFile c.toBytes).size) 0) ∧
      (∀ position, Place (Source.ofFile c.toBytes).size 0 position →
        position < Handle.offsetLimit) ∧
      Intact ⟨s, storage, some f.crc⟩ (Source.ofFile c.toBytes) (State.first f disk) ∧
      ∃ object, storage.IsLevel 0 object ∧ disk.open? target = .ok (.file object) := by
  have hlength : (Source.ofFile c.toBytes).size = c.size := FileContent.length_toBytes c
  obtain ⟨rfl, hoffset, -⟩ := Files.insert_eq_ok hc hsize hf
  rw [← hlength] at hsize hoffset
  exact ⟨fun _ hcrc => (Option.some.inj hcrc).symm, hoffset, intact_first hsize hsound hopen⟩

/-- What is received leaves alone where the names of the disk lead. -/
theorem Outcome.open? {id : NodeId} {handler : ReplyHandler} {query : Digest} {reply : Block}
    {result : Except TreeError Unit × State} {path : String} {object : Nat}
    (h : Outcome env src st id handler query reply result) (hready : Ready env src st)
    (hopen : st.disk.open? path = .ok (.file object)) :
    result.2.disk.open? path = .ok (.file object) := by
  cases h with
  | ignored _ => exact hopen
  | refused _ _ _ _ => exact hopen
  | taken _ hn _ _ hwrite _ =>
    have hplace := (hready.intact.good.sound.shaped hn).place
    rw [hready.intact.faithful.fileSize] at hplace
    obtain ⟨_, -, -, -, hdisk⟩ := Storage.write_eq_ok hready.intact.opened
      (hready.intact.size ▸ hplace.level_le) hwrite
    rw [hdisk]
    exact (Disk.extends_setContent _ _ _).open? hopen

section Run

variable (hsize : src.size ≤ maxSize)
  (htop : ∀ crc, env.topCrc = some crc → crc = src.checksum env.suite (treeDepth src.size) 0)
  (hoffset : ∀ position, Place src.size 0 position → position < Handle.offsetLimit)

include hsize htop hoffset

theorem Run.ready {path : String} {object : Nat} (hrun : Run env src st st')
    (hintact : Intact env src st) (hunstarted : Unstarted st.tree) (hdisk : DiskBinds env src st.disk)
    (hopen : st.disk.open? path = .ok (.file object)) :
    Ready env src st' ∧ st'.disk.open? path = .ok (.file object) := by
  induction hrun with
  | start =>
    obtain ⟨st', hrun, hready, hsame, -⟩ := hintact.start hsize htop hdisk hunstarted
    rw [hrun]
    exact ⟨hready, hsame ▸ hopen⟩
  | receive _ hcall ih =>
    obtain ⟨hready, hopen⟩ := ih
    obtain ⟨houtcome, hnext⟩ := hready.receive hsize htop hcall hoffset
    exact ⟨hnext, houtcome.open? hready hopen⟩

end Run

/-- A download by the identifier of a file is the file in the end, and on the way it writes nothing
but blocks of the file. -/
theorem intact_of_run {origin d disk : Disk} {source target : String} {opts : InsertOptions}
    {c : FileContent} {f : FileIdentifier} {storage : Storage}
    (hc : origin.contentAt source = .ok c) (hsize : c.size ≤ maxSize)
    (hf : Files.identify s origin source opts = .ok f) (hsound : d.Sound)
    (hopen : Storage.openWritable d f.length.toNat target = (.ok storage, disk))
    (hbinds : DiskBinds ⟨s, storage, some f.crc⟩ (Source.ofFile c.toBytes) disk) :
    (∃ st, (start ⟨s, storage, some f.crc⟩ 0).run (State.first f disk) = (.ok (), st) ∧
        st.disk = disk) ∧
      ∀ st, Run ⟨s, storage, some f.crc⟩ (Source.ofFile c.toBytes) (State.first f disk) st →
        (∀ id handler query reply,
          CallBinds ⟨s, storage, some f.crc⟩ (Source.ofFile c.toBytes) st id handler query reply →
            Outcome ⟨s, storage, some f.crc⟩ (Source.ofFile c.toBytes) st id handler query reply
              ((receive ⟨s, storage, some f.crc⟩ id handler query reply).run st)) ∧
        (st.tree.root = none →
          ∃ c', st.disk.contentAt target = .ok c' ∧ c'.toBytes = c.toBytes) := by
  have hlength : (Source.ofFile c.toBytes).size = c.size := FileContent.length_toBytes c
  have hinserted : Files.insert s origin source opts Sink.discard () = (.ok f, ()) :=
    Prod.ext hf rfl
  obtain ⟨htop, hoffset, hintact, object, hobject, htarget⟩ :=
    intact_of_insert hc hsize hinserted hsound hopen
  rw [← hlength] at hsize
  have hunstarted := unstarted_forDownload f
  constructor
  · obtain ⟨st, hrun, -, hsame, -⟩ := hintact.start hsize htop hbinds hunstarted
    exact ⟨st, hrun, hsame⟩
  · intro st hrun
    obtain ⟨hready, hopen⟩ := hrun.ready hsize htop hoffset hintact hunstarted hbinds htarget
    constructor
    · intro id handler query reply hcall
      exact (hready.receive hsize htop hcall hoffset).1
    · intro hroot
      exact ⟨st.disk.content object, Disk.contentAt_eq_ok.2 ⟨object, hopen, rfl⟩,
        hready.intact.toBytes_eq hroot hobject⟩

/-- Nothing on a disk passes for a block of the file if nothing at all does. -/
theorem diskBinds_of_binds
    (hbinds : ∀ level position bytes, Place src.size level position →
      Binds env.suite src level position bytes) (disk : Disk) : DiskBinds env src disk where
  stored level position _ hplace _ := hbinds level position _ hplace
  rebuilt level position hplace _ _ := hbinds level position _ hplace

theorem Ready.callBinds (h : Ready env src st)
    (hbinds : ∀ level position bytes, Place src.size level position →
      Binds env.suite src level position bytes)
    (id : NodeId) (handler : ReplyHandler) (query : Digest) (reply : Block) :
    CallBinds env src st id handler query reply where
  plain k n _ hn _ := by
    have hplace := (h.intact.good.sound.shaped hn).place
    rw [h.intact.faithful.fileSize] at hplace
    exact hbinds _ _ _ hplace
  after _ _ disk _ _ _ _ := diskBinds_of_binds hbinds disk

/-! ### The download of a file of two leaves -/

/-- A file of two leaves, and another name that holds something else. -/
def shelf : Disk :=
  (((Disk.empty.created 0 "f").created 0 "g").setContent 0 (strip 9)).setContent 1
    ⟨2, [⟨0, ⟨#[8, 9]⟩⟩]⟩

def shelfSource : Source := Source.ofFile (stripBytes 9)

def shelfId : FileIdentifier := shelfSource.identifier stripSuite

def shelfEnv : Env :=
  ⟨stripSuite, ⟨"g", 1025, 1, [some (.file 1 true), some (.file 2 true)]⟩, some shelfId.crc⟩

/-- The disk once the other name is open as the target of a download of the file. -/
def shelfOpen : Disk := (shelf.setContent 1 ((shelf.content 1).truncate 1025)).created 0 "g.A"

theorem sound_shelf : shelf.Sound := by
  unfold shelf
  apply Disk.Sound.setContent
  apply Disk.Sound.setContent
  apply Disk.Sound.created
  · apply Disk.sound_empty.created
    · decide
    · decide +kernel
  · decide
  · decide +kernel

theorem contentAt_shelf : shelf.contentAt "f" = .ok (strip 9) := by decide +kernel

theorem ofFile_shelf : Source.ofFile (strip 9).toBytes = shelfSource := by
  rw [toBytes_strip, shelfSource]

theorem size_shelfSource : shelfSource.size = 1025 := by
  have hsize : ∀ c : FileContent, (Source.ofFile c.toBytes).size = c.size :=
    FileContent.length_toBytes
  rw [← ofFile_shelf, hsize]
  rfl

theorem toNat_length_shelfId : shelfId.length.toNat = 1025 := by
  rw [shelfId, Source.toNat_length_identifier stripSuite (by rw [size_shelfSource]; decide),
    size_shelfSource]

theorem identify_shelf : Files.identify stripSuite shelf "f" ⟨0, 0⟩ = .ok shelfId := by
  rw [shelfId, ← ofFile_shelf]
  exact (Files.identifies contentAt_shelf (by decide)).2 ⟨0, 0⟩

theorem openWritable_shelf :
    Storage.openWritable shelf shelfId.length.toNat "g" = (.ok shelfEnv.storage, shelfOpen) := by
  decide +kernel

theorem binds_shelf (level position : Nat) (bytes : Bytes)
    (hplace : Place shelfSource.size level position) :
    Binds stripSuite shelfSource level position bytes := by
  rw [size_shelfSource] at hplace
  exact Suite.separating_hash_inj (by decide) (payload_strip (.inl rfl) hplace)

theorem diskBinds_shelf (storage : Storage) (topCrc : Option UInt32) (disk : Disk) :
    DiskBinds ⟨stripSuite, storage, topCrc⟩ shelfSource disk :=
  diskBinds_of_binds binds_shelf disk

/-- The root is asked for. -/
def shelfWaiting : State := ((start shelfEnv 0).run (State.first shelfId shelfOpen)).2

/-- The root has come in, and both leaves are asked for. -/
def shelfUnfolded : State :=
  ((receive shelfEnv 0 .own zeroDigest (shelfSource.cipher stripSuite 1 0)).run shelfWaiting).2

def shelfHalf : State :=
  ((receive shelfEnv 0 .children (shelfSource.chk stripSuite 0 0).query
    (shelfSource.cipher stripSuite 0 0)).run shelfUnfolded).2

def shelfDone : State :=
  ((receive shelfEnv 0 .children (shelfSource.chk stripSuite 0 1024).query
    (shelfSource.cipher stripSuite 0 1024)).run shelfHalf).2

/-- Every call succeeds, and the root is gone in the end. -/
theorem isOk_shelf :
    ((start shelfEnv 0).run (State.first shelfId shelfOpen)).1.isOk ∧
      ((receive shelfEnv 0 .own zeroDigest (shelfSource.cipher stripSuite 1 0)).run
        shelfWaiting).1.isOk ∧
      ((receive shelfEnv 0 .children (shelfSource.chk stripSuite 0 0).query
        (shelfSource.cipher stripSuite 0 0)).run shelfUnfolded).1.isOk ∧
      ((receive shelfEnv 0 .children (shelfSource.chk stripSuite 0 1024).query
        (shelfSource.cipher stripSuite 0 1024)).run shelfHalf).1.isOk ∧
      shelfDone.tree.root = none := by
  decide +kernel

theorem run_receive_shelf (h : Run shelfEnv shelfSource (State.first shelfId shelfOpen) st)
    (id : NodeId) (handler : ReplyHandler) (query : Digest) (reply : Block) :
    Run shelfEnv shelfSource (State.first shelfId shelfOpen)
      ((receive shelfEnv id handler query reply).run st).2 := by
  have hinsert : Files.insert stripSuite shelf "f" ⟨0, 0⟩ Sink.discard () = (.ok shelfId, ()) :=
    Prod.ext identify_shelf rfl
  obtain ⟨htop, hoffset, hintact, object, -, hopen⟩ :=
    intact_of_insert contentAt_shelf (by decide) hinsert sound_shelf openWritable_shelf
  rw [ofFile_shelf] at htop hoffset hintact
  have hready := (h.ready (by rw [size_shelfSource]; decide) htop hoffset hintact (unstarted_forDownload _)
    (diskBinds_shelf _ _ _) hopen).1
  exact .receive h (hready.callBinds binds_shelf id handler query reply)

theorem run_shelfHalf : Run shelfEnv shelfSource (State.first shelfId shelfOpen) shelfHalf := by
  rw [shelfHalf]
  apply run_receive_shelf
  rw [shelfUnfolded]
  apply run_receive_shelf
  rw [shelfWaiting]
  exact .start

theorem intact_of_shelf_run :
    ∃ c, shelfDone.disk.contentAt "g" = .ok c ∧ c.toBytes = (strip 9).toBytes := by
  obtain ⟨-, hruns⟩ := intact_of_run contentAt_shelf (by decide) identify_shelf sound_shelf
    openWritable_shelf (ofFile_shelf ▸ diskBinds_shelf _ _ _)
  rw [ofFile_shelf] at hruns
  have hrun : Run shelfEnv shelfSource (State.first shelfId shelfOpen) shelfDone := by
    rw [shelfDone]
    exact run_receive_shelf run_shelfHalf _ _ _ _
  exact (hruns shelfDone hrun).2 isOk_shelf.2.2.2.2

end Download

end ContentTree

import ContentTree.Files
import ContentTree.Proofs.Storage
import ContentTree.Proofs.Tree.Upload
import ContentTree.ScriptedSink

/-!
# Inserting a file

The identifier that an insertion gives is a function of the bytes of the file, and the receiver has
had the messages of the whole tree in order.
-/

namespace ContentTree

/-- The identifier under which a file is found. -/
def Source.identifier (s : Suite) (src : Source) : FileIdentifier :=
  ⟨src.chk s (treeDepth src.size) 0, src.checksum s (treeDepth src.size) 0, UInt64.ofNat src.size⟩

theorem Source.toNat_length_identifier (s : Suite) {src : Source} (hsize : src.size ≤ maxSize) :
    (src.identifier s).length.toNat = src.size := by
  have hmax : maxSize = UInt64.size - 1 := rfl
  have hpos : UInt64.size = 2 ^ 64 := rfl
  exact UInt64.toNat_ofNat_of_lt' (by omega)

theorem Tree.get?_new (size : Nat) :
    (Tree.new size).get? 0 = some (Node.new size 0 (treeDepth size) none) := rfl

namespace Files

variable {σ : Type} {s : Suite} {d : Disk} {path : String} {opts : InsertOptions}

/-- A walk over a whole file ends well just if its leaves are there and every message is accepted. -/
theorem ends_walk {env : Upload.Env σ} {src : Source} (hsize : src.size ≤ maxSize)
    (hsrc : src = env.storage.source env.disk src.size) (meter : Meter) (x : σ) :
    Ends (do Upload.run env 0; Upload.node 0 : Upload.Walk σ Node) ⟨Tree.new src.size, meter, x⟩
      (fun n st => n = Upload.walked env.suite src none (treeDepth src.size) 0 ∧
        st.sink = Upload.delivered env x (Upload.messages env src (treeDepth src.size) 0) ∧
        Upload.LeavesHeld env src (treeDepth src.size) 0 ∧
        Upload.Accepted env x (Upload.messages env src (treeDepth src.size) 0))
      (fun _ _ => ¬ (Upload.LeavesHeld env src (treeDepth src.size) 0 ∧
        Upload.Accepted env x (Upload.messages env src (treeDepth src.size) 0))) := by
  rw [ends_bind]
  refine (Upload.walks_run hsize hsrc (treeDepth src.size) ⟨Tree.new src.size, meter, x⟩ 0 0 none
    (place_root src.size) (Tree.get?_new src.size) ?_).mono ?_ fun _ _ h => h.2
  · intro r hr
    obtain rfl := Option.some.inj hr
    exact Nat.one_pos
  · rintro _ st ⟨hpadded, hsink, hheld, haccepted⟩
    refine Upload.ends_node ?_ ⟨rfl, hsink, hheld, haccepted⟩
    rw [hpadded.get?, Tree.get?_set (Tree.get?_new src.size), if_pos rfl]

theorem walkAll_eq_ok {env : Upload.Env σ} {src : Source} {meter : Meter} {x : σ}
    {after : Upload.State σ} {n : Node} (hsize : src.size ≤ maxSize)
    (hsrc : src = env.storage.source env.disk src.size)
    (h : walkAll env ⟨Tree.new src.size, meter, x⟩ = (.ok n, after)) :
    n = Upload.walked env.suite src none (treeDepth src.size) 0 ∧
      after.sink = Upload.delivered env x (Upload.messages env src (treeDepth src.size) 0) ∧
      Upload.LeavesHeld env src (treeDepth src.size) 0 ∧
      Upload.Accepted env x (Upload.messages env src (treeDepth src.size) 0) := by
  unfold walkAll at h
  rcases hrun : (do Upload.run env 0; Upload.node 0 : Upload.Walk σ Node).run
    ⟨Tree.new src.size, meter, x⟩ with ⟨result, st⟩
  simp only [hrun] at h
  obtain ⟨rfl, rfl⟩ := Prod.mk.inj h
  have hpost := (ends_walk hsize hsrc meter x).of_ok hrun
  exact hpost

theorem walkAll_ok {env : Upload.Env σ} {src : Source} (hsize : src.size ≤ maxSize)
    (hsrc : src = env.storage.source env.disk src.size) (meter : Meter) (x : σ)
    (hheld : Upload.LeavesHeld env src (treeDepth src.size) 0)
    (haccepted : Upload.Accepted env x (Upload.messages env src (treeDepth src.size) 0)) :
    ∃ n after, walkAll env ⟨Tree.new src.size, meter, x⟩ = (.ok n, after) := by
  obtain ⟨n, st, hrun, -⟩ := (ends_walk hsize hsrc meter x).exists_ok
    fun _ _ hstopped => hstopped ⟨hheld, haccepted⟩
  unfold walkAll
  simp only [hrun]
  exact ⟨n, _, rfl⟩

/-- The walk over a file of `size` bytes that is open in `storage`. -/
def walkEnv (s : Suite) (d : Disk) (opts : InsertOptions) (size : Nat) (storage : Storage)
    (direction : Upload) (sink : Sink σ) : Upload.Env σ where
  suite := s
  disk := d
  storage := storage
  direction := direction
  priority := opts.priority
  index := if size ≤ leafCapacity then 0 else opts.index
  sink := sink

theorem openWalk_eq {c : FileContent} (s : Suite) (opts : InsertOptions)
    (hc : d.contentAt path = .ok c) :
    ∃ storage object, d.content object = c ∧
      storage.levels[0]? = some (some (.file object false)) ∧ storage.size = c.size ∧
      ∀ {σ : Type} (direction : Upload) (sink : Sink σ) (x : σ),
        openWalk s d path opts direction sink x =
          .ok (walkEnv s d opts c.size storage direction sink,
            ⟨Tree.new c.size, Meter.new c.size, x⟩) := by
  obtain ⟨object, hentry, hcontent⟩ := Disk.contentAt_eq_ok.1 hc
  let level (i : Nat) : Option Handle :=
    (d.open? (Storage.levelPath path (i + 1))).toOption.map Storage.entryHandle
  refine ⟨⟨path, c.size, treeDepth c.size,
    some (.file object false) :: (List.range (treeDepth c.size)).map level⟩,
    object, hcontent, rfl, rfl, fun direction sink x => ?_⟩
  simp [openWalk, walkEnv, Disk.length, hentry, bind, Except.bind, Except.mapError, hcontent,
    Storage.openReadable, pure, Except.pure, Storage.entryHandle, level]

theorem leaf_eq {storage : Storage} {object position : Nat} {writable : Bool}
    (hobject : storage.levels[0]? = some (some (.file object writable)))
    (h : storage.HasLeaf d (d.content object).size position) :
    (storage.source d (d.content object).size).leaf position =
      (Source.ofFile (d.content object).toBytes).leaf position := by
  obtain ⟨hread, hlength⟩ := h.read
  have hoffset := Storage.levelOffset_lt_of_read hread
  rw [Storage.read_of_file hobject hoffset, levelOffset_zero] at hread
  rw [← Except.ok.inj hread, FileContent.readAt_eq_take_drop]
  apply List.take_eq_take_iff.2
  simp [leafLength, Nat.min_comm]

theorem block_eq {storage : Storage} {object : Nat} {writable : Bool}
    (hobject : storage.levels[0]? = some (some (.file object writable)))
    (hsize : (d.content object).size ≤ maxSize)
    (hheld : ∀ start, Place (d.content object).size 0 start →
      storage.HasLeaf d (d.content object).size start) {level position : Nat}
    (hplace : Place (d.content object).size level position) :
    (storage.source d (d.content object).size).block s level position =
      (Source.ofFile (d.content object).toBytes).block s level position :=
  Source.block_congr hsize (FileContent.length_toBytes _) hplace
    fun start hstart _ => leaf_eq hobject (hheld start hstart)

/-- What an insertion that succeeds has computed and sent, where `file` is what it read. -/
theorem insert_eq_ok {c : FileContent} {sink : Sink σ} {x x' : σ} {fid : FileIdentifier}
    (hc : d.contentAt path = .ok c) (hsize : c.size ≤ maxSize)
    (h : insert s d path opts sink x = (.ok fid, x')) :
    fid = (Source.ofFile c.toBytes).identifier s ∧
      (∀ position, Place c.size 0 position → position < Handle.offsetLimit) ∧
      ∃ env : Upload.Env σ, ∃ src : Source, env.suite = s ∧ env.direction = .insert ∧
        env.priority = opts.priority ∧ env.sink = sink ∧
        env.index = (if c.size ≤ leafCapacity then 0 else opts.index) ∧ src.size = c.size ∧
        (∀ level position, Place c.size level position →
          src.block s level position = (Source.ofFile c.toBytes).block s level position) ∧
        x' = Upload.delivered env x (Upload.messages env src (treeDepth c.size) 0) := by
  obtain ⟨storage, object, rfl, hobject, hstorage, hopen⟩ :=
    openWalk_eq s opts hc
  unfold insert at h
  rw [hopen] at h
  simp only at h
  rcases hwalk : walkAll _ _ with ⟨result, after⟩
  rw [hwalk] at h
  cases result with
  | error e => simp [Except.map, Except.mapError] at h
  | ok root =>
    obtain ⟨rfl, hsink, hheld, -⟩ := @walkAll_eq_ok _ _
      (storage.source d (d.content object).size) _ _ _ _ hsize rfl hwalk
    have hheld' : ∀ start, Place (d.content object).size 0 start →
        storage.HasLeaf d (d.content object).size start :=
      fun start hstart => hheld start hstart (covers_root hstart)
    have hfilesize : (Source.ofFile (d.content object).toBytes).size = (d.content object).size :=
      FileContent.length_toBytes _
    have hroot := @block_eq s _ _ _ _ hobject hsize hheld' _ _ (place_root _)
    obtain ⟨hfid, hx⟩ := Prod.mk.inj h
    refine ⟨?_, ?_, walkEnv s d opts (d.content object).size storage .insert sink,
      storage.source d (d.content object).size, rfl, rfl, rfl, rfl, rfl, rfl,
      fun _ _ => block_eq hobject hsize hheld', ?_⟩
    · simp only [Except.map, Except.mapError, Except.ok.injEq] at hfid
      have hlength : (walkEnv s d opts (d.content object).size storage .insert sink).storage.size =
          (Source.ofFile (d.content object).toBytes).size := hstorage.trans hfilesize.symm
      rw [← hfid, identifierOf, Upload.chk_walked, Upload.payload_walked, hlength]
      simp only [Source.identifier, Source.chk, Source.checksum, Source.payload, hfilesize, ← hroot]
      rfl
    · intro position hplace
      have hoffset := Storage.levelOffset_lt_of_read (hheld' position hplace).read.1
      rwa [levelOffset_zero] at hoffset
    · rw [← hx, hsink]
      rfl

theorem sent_submit (m : ClientMessage) (k : ScriptedSink) :
    (ScriptedSink.submit s m k).2.sent = k.sent.push m := by
  unfold ScriptedSink.submit
  dsimp only
  split
  · rfl
  · split <;> rfl

theorem mem_sent_delivered {env : Upload.Env ScriptedSink} (hsink : env.sink = ScriptedSink.sink s)
    (ms : List ClientMessage) (k : ScriptedSink) {m : ClientMessage} (hm : m ∈ k.sent ∨ m ∈ ms) :
    m ∈ (Upload.delivered env k ms).sent := by
  induction ms generalizing k with
  | nil => exact hm.resolve_right List.not_mem_nil
  | cons first ms ih =>
    apply ih
    rw [hsink]
    change m ∈ (ScriptedSink.submit s first k).2.sent ∨ m ∈ ms
    rw [sent_submit, Array.mem_push]
    rcases hm with hm | hm
    · exact .inl (.inl hm)
    · exact (List.mem_cons.1 hm).imp_left .inr

/-- Inserting a file without a shared index sends the blocks of all places. -/
theorem insert_mem_sent {c : FileContent} {k k' : ScriptedSink} {priority : UInt32}
    {fid : FileIdentifier} (hc : d.contentAt path = .ok c) (hsize : c.size ≤ maxSize)
    (h : insert s d path ⟨priority, 0⟩ (ScriptedSink.sink s) k = (.ok fid, k'))
    {level position : Nat} (hplace : Place c.size level position) :
    .insert priority ((Source.ofFile c.toBytes).cipher s level position) ∈ k'.sent := by
  obtain ⟨-, -, env, src, rfl, hdirection, rfl, hsink, hindex, hsame, hblock, rfl⟩ :=
    insert_eq_ok hc hsize h
  have hcipher : (Source.ofFile c.toBytes).cipher env.suite level position =
      src.cipher env.suite level position := by
    have hlength : (Source.ofFile c.toBytes).size = src.size := by
      rw [hsame]
      exact FileContent.length_toBytes c
    rw [Source.cipher, Source.cipher, Source.chk, Source.chk, hblock _ _ hplace, hlength]
  rw [← hsame] at hsize hplace ⊢
  have hnone : env.index = 0 := by simpa using hindex
  have hmem := Upload.blockMessage_mem_messages hnone hsize (place_root src.size) hplace
    (covers_root hplace)
  rw [hdirection] at hmem
  rw [hcipher]
  exact mem_sent_delivered hsink _ _ (.inr hmem)

end Files

/-! ### Files of two leaves -/

/-- A leaf of zeros, and a leaf of one byte. -/
def strip (last : UInt8) : FileContent := ⟨1025, [⟨1024, ⟨#[last]⟩⟩]⟩

def stripBytes (last : UInt8) : Bytes := List.replicate 1024 0 ++ [last]

/-- The plaintext of the root, where the key of the last leaf begins with `rank`. -/
def stripRoot (rank last : UInt8) : Bytes :=
  [0, 3] ++ List.replicate 18 0 ++ bigEndian 4 last.toNat ++
    [3] ++ List.replicate 19 0 ++ [0] ++ List.replicate 19 255 ++
    [rank, last] ++ List.replicate 18 0 ++ [0, ~~~ last] ++ List.replicate 18 255

/-- The plaintexts of the files that end with 9 and with 10. -/
def stripPayloads : List Bytes :=
  [stripRoot 2 9, stripRoot 1 10, List.replicate 1024 0, [9], [10]]

def stripSuite : Suite := .separating stripPayloads

theorem toBytes_strip (last : UInt8) : (strip last).toBytes = stripBytes last := by
  have hzero : ∀ k ∈ List.range 1024, (strip last).byteAt (0 + k) = 0 := by
    intro k hk
    have hnone : (⟨1024, ⟨#[last]⟩⟩ : Piece).byte? (0 + k) = none :=
      Piece.byte?_eq_none (.inl (by simpa using hk))
    rw [FileContent.byteAt, strip, List.findSome?_cons, hnone]
    rfl
  rw [FileContent.toBytes, FileContent.readAt_eq]
  change (List.range (1024 + 1)).map _ = _
  rw [List.range_succ, List.map_append, List.map_congr_left hzero, List.map_const',
    List.length_range]
  rfl

theorem place_strip {level position : Nat} (h : Place 1025 level position) :
    level = 0 ∧ (position = 0 ∨ position = 1024) ∨ level = 1 ∧ position = 0 := by
  have hlevel : level ≤ 1 := h.level_le
  have hstart := h.start
  obtain ⟨k, rfl⟩ := h.dvd
  obtain rfl | rfl : level = 0 ∨ level = 1 := by omega
  · rw [show span 0 = 1024 from rfl] at hstart ⊢
    omega
  · rw [show span 1 = 25600 from rfl] at hstart ⊢
    omega

theorem payload_strip {last : UInt8} (hlast : last = 9 ∨ last = 10) {level position : Nat}
    (hplace : Place 1025 level position) :
    (Source.ofFile (stripBytes last)).payload stripSuite level position ∈ stripPayloads := by
  have hroot : ∃ rank, (Source.ofFile (stripBytes last)).payload stripSuite 1 0 =
      stripRoot rank last ∧ stripRoot rank last ∈ stripPayloads := by
    rcases hlast with rfl | rfl
    · exact ⟨2, by decide +kernel, by decide +kernel⟩
    · exact ⟨1, by decide +kernel, by decide +kernel⟩
  have hmem : [last] ∈ stripPayloads := by rcases hlast with rfl | rfl <;> decide +kernel
  have hleaf : ∀ file position,
      (Source.ofFile file).leaf position = (file.drop position).take 1024 := fun _ _ => rfl
  obtain ⟨rfl, rfl | rfl⟩ | ⟨rfl, rfl⟩ := place_strip hplace
  · rw [Source.payload_zero (Source.exact_ofFile _ 0), hleaf, List.drop_zero, stripBytes,
      List.take_left' List.length_replicate]
    decide +kernel
  · rw [Source.payload_zero (Source.exact_ofFile _ 1024), hleaf, stripBytes,
      List.drop_left' List.length_replicate]
    exact hmem
  · obtain ⟨rank, hroot, hmem⟩ := hroot
    exact hroot ▸ hmem

end ContentTree

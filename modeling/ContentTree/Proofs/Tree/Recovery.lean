import ContentTree.Proofs.Deletion
import ContentTree.Proofs.Tree.Arrangement

/-!
# What recomputing a block amounts to

The block of an inner node is found by recomputation just if inserting the same part of the file by
itself gives the node's pair. The node then has the block and the table of that insertion, and
nothing else has changed.
-/

namespace ContentTree

namespace Upload

/-- Inserts the part of a file below one place by itself and sends nothing. Gives the node that this
leaves at the place. -/
def insertApart (s : Suite) (storage : Storage) (disk : Disk) (priority : UInt32) (index : UInt16)
    (size level position : Nat) : Except TreeError Node :=
  let env : Env Unit :=
    { suite := s, disk := disk, storage := storage, direction := .insert, priority := priority,
      index := index, sink := Sink.discard }
  let tree : Tree := ⟨#[some (Node.new size position level none)], none, size⟩
  ((do run env 0; node 0).run ⟨tree, Meter.new size, ()⟩).1

/-- It succeeds just if all leaves below the place can be read in full. -/
theorem insertApart_eq_ok {s : Suite} {storage : Storage} {disk : Disk} {priority : UInt32}
    {index : UInt16} {size level position : Nat} (hsize : size ≤ maxSize)
    (hplace : Place size level position) {m : Node} :
    insertApart s storage disk priority index size level position = .ok m ↔
      (∀ start, Place size 0 start → Covers level position 0 start →
        storage.HasLeaf disk size start) ∧
      m = walked s (storage.source disk size) none level position := by
  let env : Env Unit :=
    { suite := s, disk := disk, storage := storage, direction := .insert, priority := priority,
      index := index, sink := Sink.discard }
  let src := storage.source disk size
  let st : State Unit := ⟨⟨#[some (Node.new size position level none)], none, size⟩, .new size, ()⟩
  have hself : st.tree.get? 0 = some (Node.new size position level none) := rfl
  have hwalks : Walks env src level (run env) := walks_run hsize rfl level
  have hends : Ends (do run env 0; node 0) st
      (fun m _ => LeavesHeld env src level position ∧ m = walked s src none level position)
      (fun _ _ => ¬ LeavesHeld env src level position) := by
    rw [ends_bind]
    refine (hwalks st 0 position none hplace hself nofun).mono ?_ ?_
    · rintro _ st' ⟨hpadded, -, hheld, -⟩
      refine ends_node ?_ ⟨hheld, rfl⟩
      rw [hpadded.get?, Tree.get?_set hself, if_pos rfl]
    · rintro _ _ ⟨-, hstopped⟩ hheld
      exact hstopped ⟨hheld, accepted_discard rfl _ _⟩
  have hresult : insertApart s storage disk priority index size level position =
      ((do run env 0; node 0).run st).1 := rfl
  rw [hresult]
  rcases hrun : (do run env 0; node 0).run st with ⟨e | m', st'⟩
  · rw [hrun]
    exact iff_of_false nofun fun h => hends.of_error hrun h.1
  · obtain ⟨hheld, rfl⟩ := hends.of_ok hrun
    rw [hrun]
    exact ⟨fun h => ⟨hheld, (Except.ok.inj h).symm⟩, fun h => by rw [h.2]⟩

end Upload

namespace Download

theorem rebuiltNode_eq {s : Suite} {src : Source} {n : Node} {inner : Inner}
    (hinner : n.inner? = some inner) (hpos : 0 < n.depth) :
    ∃ block, (Upload.walked s src none n.depth n.position).inner? = some block ∧
      rebuiltNode s src n =
        { n with
          data := (Upload.walked s src none n.depth n.position).data
          kind := .inner { inner with table := block.table, crc := block.crc } } := by
  obtain ⟨level, hlevel⟩ : ∃ level, n.depth = level + 1 := ⟨n.depth - 1, by omega⟩
  have hkind := Node.inner?_eq_some.1 hinner
  simp only [rebuiltNode, hlevel, Upload.walked, Node.inner?, Node.setTable, Node.modifyInner, hkind]
  exact ⟨_, rfl, rfl⟩

/-- Recomputing an inner node finds its block just if all leaves below it can be read in full and
inserting them by themselves gives the node's pair. It changes the node only then, and only its
block, table and checksum; it sends nothing and leaves no other trace. -/
theorem recompute_exact {env : Env} {st : State} {id : Nat} {n : Node} (h : st.tree.Sound)
    (hn : st.tree.get? id = some n) (hinner : n.isInner) (priority : UInt32) (index : UInt16) :
    ∃ found t, (recompute env id).run st = (.ok found, { st with tree := t }) ∧
      (found = true ↔
        (∀ start, Place n.fileSize 0 start → Covers n.depth n.position 0 start →
          env.storage.HasLeaf st.disk n.fileSize start) ∧
        ∃ m, Upload.insertApart env.suite env.storage st.disk priority index n.fileSize n.depth
          n.position = .ok m ∧ m.chk = n.chk) ∧
      t.root = st.tree.root ∧ t.fileSize = st.tree.fileSize ∧
      (∀ k, k ≠ id → t.get? k = st.tree.get? k) ∧
      (found = false → t.get? id = some n) ∧
      (found = true → ∃ m inner block,
        Upload.insertApart env.suite env.storage st.disk priority index n.fileSize n.depth
          n.position = .ok m ∧ n.inner? = some inner ∧ m.inner? = some block ∧
        t.get? id = some
          { n with
            data := m.data
            kind := .inner { inner with table := block.table, crc := block.crc } }) := by
  have hshape := h.shaped hn
  have hplace : Place n.fileSize n.depth n.position := hshape.fileSize ▸ hshape.place
  have hsize : n.fileSize ≤ maxSize := hshape.fileSize ▸ h.fileSize_le
  have hinsert : ∀ {m}, Upload.insertApart env.suite env.storage st.disk priority index n.fileSize
      n.depth n.position = .ok m ↔ _ :=
    Upload.insertApart_eq_ok hsize hplace
  let src := env.storage.source st.disk n.fileSize
  have hends : Ends (recompute env id) st
      (fun found st' => ∃ t, st' = { st with tree := t } ∧
        (found = false ∧ Tree.Padded st.tree t ∧
            ¬ ((∀ start, Place n.fileSize 0 start → Covers n.depth n.position 0 start →
                env.storage.HasLeaf st.disk n.fileSize start) ∧
              src.chk env.suite n.depth n.position = n.chk) ∨
          found = true ∧ Tree.Padded (st.tree.set id (rebuiltNode env.suite src n)) t ∧
            (∀ start, Place n.fileSize 0 start → Covers n.depth n.position 0 start →
              env.storage.HasLeaf st.disk n.fileSize start) ∧
            src.chk env.suite n.depth n.position = n.chk))
      (fun _ _ => False) :=
    ends_recompute h hn hinner (fun t hpadded hlost => ⟨t, rfl, .inl ⟨rfl, hpadded, hlost⟩⟩)
      fun t hheld hchk hpadded => ⟨t, rfl, .inr ⟨rfl, hpadded, hheld, hchk⟩⟩
  obtain ⟨found, _, hrun, t, rfl, hcases⟩ := hends.exists_ok fun _ _ hfail => hfail
  refine ⟨found, t, hrun, ?_⟩
  rcases hcases with ⟨rfl, hpadded, hlost⟩ | ⟨rfl, hpadded, hheld, hchk⟩
  · refine ⟨iff_of_false Bool.false_ne_true ?_, hpadded.root, hpadded.fileSize,
      fun k _ => hpadded.get? k, fun _ => (hpadded.get? id).trans hn, nofun⟩
    rintro ⟨hheld, m, hm, hchk⟩
    obtain ⟨-, rfl⟩ := hinsert.1 hm
    rw [Upload.chk_walked] at hchk
    exact hlost ⟨hheld, hchk⟩
  · have hm := hinsert.2 ⟨hheld, rfl⟩
    obtain ⟨inner, hsome⟩ := Option.isSome_iff_exists.1 hinner
    obtain ⟨block, hblock, hrebuilt⟩ :=
      @rebuiltNode_eq env.suite src _ _ hsome (hshape.isSome_inner?.1 hinner)
    refine ⟨iff_of_true rfl ⟨hheld, _, hm, by rw [Upload.chk_walked, hchk]⟩, hpadded.root,
      hpadded.fileSize, fun k hk => ?_, nofun,
      fun _ => ⟨_, inner, block, hm, hsome, hblock, ?_⟩⟩
    · rw [hpadded.get?, Tree.get?_set hn, if_neg hk]
    · rw [hpadded.get?, Tree.get?_set hn, if_pos rfl, hrebuilt]

/-- A file of two leaves of zeros. -/
def halvesSource : Source := Source.ofFile (FileContent.toBytes ⟨1025, []⟩)

/-- The two leaves of the file are at hand, its root is not. -/
def halvesEnv : Env := ⟨Suite.standard, ⟨"f", 1025, 0, [some (.file 0 true)]⟩, none⟩

def halves : State where
  tree := Tree.forDownload ⟨halvesSource.chk Suite.standard 1 0, 0, 1025⟩
  disk := Files.lone ⟨1025, []⟩
  meter := .new 1025
  calls := #[]

theorem content_halves : halves.disk.content 0 = ⟨1025, []⟩ :=
  Disk.content_setContent_self (by decide) _

theorem hasLeaf_halves {start : Nat} (h : Place 1025 0 start) :
    halvesEnv.storage.HasLeaf halves.disk 1025 start := by
  have hleaf := @Files.hasLeaf_of_content halves.disk halvesEnv.storage 0 start true rfl
  rw [content_halves] at hleaf
  exact hleaf (by decide) h

/-- What is on the disk has the pair that the root is asked for with. -/
theorem chk_halves : (halvesEnv.storage.source halves.disk 1025).chk Suite.standard 1 0 =
    halvesSource.chk Suite.standard 1 0 := by
  have hblock := @Files.block_eq Suite.standard halves.disk halvesEnv.storage 0 true rfl
  rw [content_halves] at hblock
  have hread : (halvesEnv.storage.source halves.disk 1025).size = 1025 := rfl
  have hlength : halvesSource.size = 1025 := FileContent.length_toBytes _
  rw [Source.chk, Source.chk, hread, hlength]
  refine congrArg (Suite.standard.pair _) ?_
  exact hblock (by decide) (fun _ => hasLeaf_halves) ⟨by decide, by decide, by decide⟩

theorem recompute_exact_of_halves :
    ∃ n t m inner block, halves.tree.Sound ∧ halves.tree.get? 0 = some n ∧ n.isInner ∧
      (recompute halvesEnv 0).run halves = (.ok true, { halves with tree := t }) ∧
      Upload.insertApart Suite.standard halvesEnv.storage halves.disk 0 1 n.fileSize n.depth
        n.position = .ok m ∧
      n.inner? = some inner ∧ m.inner? = some block ∧
      t.get? 0 = some
        { n with
          data := m.data
          kind := .inner { inner with table := block.table, crc := block.crc } } := by
  have hsound : halves.tree.Sound := Tree.Reached.sound (.forDownload _)
  obtain ⟨n, hn, hinner, hsize, hdepth, hposition, hchk⟩ : ∃ n, halves.tree.get? 0 = some n ∧
      n.isInner ∧ n.fileSize = 1025 ∧ n.depth = 1 ∧ n.position = 0 ∧
      n.chk = halvesSource.chk Suite.standard 1 0 :=
    ⟨_, rfl, by decide, by decide, by decide, by decide, rfl⟩
  obtain ⟨found, t, hrun, hfound, -, -, -, -, hsome⟩ :=
    @recompute_exact halvesEnv _ _ _ hsound hn hinner 0 1
  have hheld : ∀ start, Place 1025 0 start → Covers 1 0 0 start →
      halvesEnv.storage.HasLeaf halves.disk 1025 start := fun _ hstart _ => hasLeaf_halves hstart
  obtain rfl : found = true := by
    rw [hfound, hsize, hdepth, hposition, hchk]
    have hroot : Place 1025 1 0 := ⟨by decide, by decide, by decide⟩
    refine ⟨hheld, _, (Upload.insertApart_eq_ok (by decide) hroot).2 ⟨hheld, rfl⟩, ?_⟩
    rw [Upload.chk_walked]
    exact chk_halves
  obtain ⟨m, inner, block, hrest⟩ := hsome rfl
  exact ⟨n, t, m, inner, block, hsound, hn, hinner, hrun, hrest⟩

end Download

end ContentTree

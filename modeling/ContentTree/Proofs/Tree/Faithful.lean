import ContentTree.Proofs.Tree.Awaited

/-!
# Downloads of a known file

When the identifier is that of a file, a node that is known holds what the tree over the file has at
its place. This stays so as long as no other string passes for a block of the file by mistake, and
then no checksum ever stands against a block.
-/

namespace ContentTree

variable {s : Suite} {src : Source} {n m : Node}

/-- What is recorded in the node is what the tree over the file has at its place. -/
structure Node.Faithful (s : Suite) (src : Source) (n : Node) : Prop where
  chk : n.chk = src.chk s n.depth n.position
  table : ∀ i table, n.inner? = some i → i.table = some table →
    table = src.table s (n.depth - 1) n.position ∧ i.crc = table.crc
  crcs : ∀ i slot crc, n.inner? = some i → i.childCrcs[slot]? = some (some crc) →
    crc = src.checksum s (n.depth - 1) (n.position + slot * coverage (n.depth - 1))

namespace Download

/-- The string passes for the block of a place only if it is that block. -/
def Binds (s : Suite) (src : Source) (level position : Nat) (bytes : Bytes) : Prop :=
  s.hash bytes = s.hash (src.payload s level position) → bytes = src.payload s level position

/-- Nothing on the disk passes for a block of the file by mistake: neither what is stored for a
place, nor what the leaves below it give. -/
structure DiskBinds (env : Env) (src : Source) (disk : Disk) : Prop where
  stored : ∀ level position data, Place src.size level position →
    env.storage.readBlock disk level position (nodeLength src.size level position) = .ok data →
    Binds env.suite src level position (data.toList.take (nodeLength src.size level position))
  rebuilt : ∀ level position, Place src.size level position → 0 < level →
    (∀ start, Place src.size 0 start → Covers level position 0 start →
      env.storage.HasLeaf disk src.size start) →
    Binds env.suite src level position
      ((env.storage.source disk src.size).payload env.suite level position)

/-- A reply at hand does not pass for the block of its node by mistake. -/
def ReplyBinds (env : Env) (src : Source) (t : Tree) (heard : Option (Nat × Block)) : Prop :=
  ∀ id reply n, heard = some (id, reply) → t.get? id = some n →
    Binds env.suite src n.depth n.position
      ((env.suite.decrypt n.chk.key reply).toList.take n.length)

structure Faithful (s : Suite) (src : Source) (t : Tree) : Prop where
  fileSize : t.fileSize = src.size
  node : ∀ {id : Nat} {n}, t.get? id = some n → n.Faithful s src

variable {env : Env} {heard : Option (Nat × Block)} {st st' : State} {t t' : Tree} {id : Nat}
  {data : Block} {disk : Disk}

theorem replyBinds_none (env : Env) (src : Source) (t : Tree) : ReplyBinds env src t none := by
  intro id reply n h
  cases h

theorem Evidence.payload_eq (hknown : Evidence env heard st id n data disk) (h : Good st.tree)
    (hf : Faithful env.suite src st.tree) (hn : st.tree.get? id = some n)
    (hdisk : DiskBinds env src st.disk) (hreply : ReplyBinds env src st.tree heard) :
    data.toList.take n.length = src.payload env.suite n.depth n.position := by
  have hshape := h.sound.shaped hn
  rw [hf.fileSize] at hshape
  have hkey : n.chk.key = env.suite.hash (src.payload env.suite n.depth n.position) := by
    rw [(hf.node hn).chk, Source.key_chk]
  have hlength := hshape.length
  cases hknown with
  | stored _ hread hhash =>
    rw [hlength] at hread hhash ⊢
    exact hdisk.stored _ _ _ hshape.place hread (hhash.trans hkey)
  | rebuilt _ hinner hleaves hchk =>
    have hsize : n.fileSize = src.size := hshape.fileSize
    rw [hsize] at hleaves hchk ⊢
    have hdepth := hshape.isSome_inner?.1 hinner
    have hbinds := hdisk.rebuilt _ _ hshape.place hdepth hleaves
    rw [hlength]
    apply hbinds
    rw [← hkey, ← hchk, Source.key_chk]
  | reply hheard _ hhash _ => exact hreply _ _ _ hheard hn (hhash.trans hkey)

/-! ### Single nodes -/

section Node

theorem faithful_congr (h : n.Faithful s src) (hretains : n.Retains m) : m.Faithful s src where
  chk := by rw [hretains.chk, hretains.depth, hretains.position, h.chk]
  table j table hj htable := by
    obtain ⟨i, hi, -, hsame, hcrc, -⟩ := hretains.inner j hj
    rw [hretains.depth, hretains.position, hcrc]
    exact h.table i table hi (hsame.symm.trans htable)
  crcs j slot crc hj hget := by
    obtain ⟨i, hi, -, -, -, hcrcs⟩ := hretains.inner j hj
    rw [hcrcs] at hget
    rw [hretains.depth, hretains.position]
    exact h.crcs i slot crc hi hget

theorem faithful_admitted (h : n.Faithful s src) (hshape : n.Shaped src.size)
    (hsize : src.size ≤ maxSize)
    (hdata : data.toList.take n.length = src.payload s n.depth n.position) :
    (n.admitted data).Faithful s src where
  chk := by
    have hlike := like_admitted data n
    rw [chk_admitted, hlike.depth, hlike.position, h.chk]
  table j table hj htable := by
    have hlike := like_admitted data n
    obtain ⟨i, hi, -⟩ := hlike.inner j hj
    rw [inner?_admitted data hi] at hj
    obtain rfl := Option.some.inj hj
    obtain rfl := Option.some.inj htable
    rw [hlike.depth, hlike.position]
    refine ⟨?_, rfl⟩
    have hcount := (hshape.inner i hi).2.1
    have hdepth := Node.depth_of_inner hi
    obtain ⟨level, hlevel⟩ : ∃ level, n.depth = level + 1 :=
      ⟨n.depth - 1, by have hpos := (hshape.inner i hi).1; omega⟩
    have hplace := hshape.place
    rw [hshape.length, hlevel] at hdata
    rw [hlevel] at hplace ⊢
    rw [hcount, ← hdepth, hlevel, Nat.add_sub_cancel]
    exact Source.decode_of_payload hsize hplace hdata
  crcs j slot crc hj hget := by
    have hlike := like_admitted data n
    obtain ⟨i, hi, -⟩ := hlike.inner j hj
    rw [inner?_admitted data hi] at hj
    obtain rfl := Option.some.inj hj
    rw [hlike.depth, hlike.position]
    exact h.crcs i slot crc hi hget

/-- Taking the checksum of a child keeps the checksums right if that of the child is. -/
theorem faithful_crcsWith {i : Inner} {slot k : Nat} {child : Node} {crc : UInt32}
    (h : m.Faithful s src) (hi : m.inner? = some i) (hslot : slot < i.childCrcs.length)
    (hchild : s.checksum child.payload =
      src.checksum s (m.depth - 1) (m.position + slot * coverage (m.depth - 1)))
    (hget : (Node.crcsWith s i slot child)[k]? = some (some crc)) :
    crc = src.checksum s (m.depth - 1) (m.position + k * coverage (m.depth - 1)) := by
  rw [Node.crcsWith] at hget
  by_cases hk : slot = k
  · subst hk
    rw [List.getElem?_set_self hslot] at hget
    have hcrc := Option.some.inj (Option.some.inj hget)
    rw [← hcrc]
    cases hold : i.childCrcs[slot]?.join with
    | none => exact hchild
    | some old =>
      rw [Option.join_eq_some_iff] at hold
      exact h.crcs i slot old hi hold
  · rw [List.getElem?_set_ne hk] at hget
    exact h.crcs i k crc hi hget

theorem faithful_recorded {slot : Nat} {child : Node} (h : m.Faithful s src) {i : Inner}
    (hi : m.inner? = some i) (hslot : slot < i.childCrcs.length)
    (hchild : s.checksum child.payload =
      src.checksum s (m.depth - 1) (m.position + slot * coverage (m.depth - 1))) :
    (m.recorded s slot child).Faithful s src where
  chk := by
    have hlike := like_recorded (m := m) s slot child
    rw [chk_recorded, hlike.depth, hlike.position, h.chk]
  table j table hj htable := by
    have hlike := like_recorded (m := m) s slot child
    rw [inner?_recorded s slot child hi] at hj
    obtain rfl := Option.some.inj hj
    rw [hlike.depth, hlike.position]
    exact h.table i table hi htable
  crcs j k crc hj hget := by
    have hlike := like_recorded (m := m) s slot child
    rw [inner?_recorded s slot child hi] at hj
    obtain rfl := Option.some.inj hj
    rw [hlike.depth, hlike.position]
    exact faithful_crcsWith h hi hslot hchild hget

theorem agrees_of_faithful {slot : Nat} {child : Node} (h : m.Faithful s src)
    (hshape : m.Shaped src.size) {i : Inner} (hi : m.inner? = some i)
    (hslot : slot < i.childCrcs.length) (htable : i.table.isSome)
    (hchild : s.checksum child.payload =
      src.checksum s (m.depth - 1) (m.position + slot * coverage (m.depth - 1))) :
    m.Agrees s slot child := by
  intro j hj hall
  obtain rfl := Option.some.inj (hi.symm.trans hj)
  obtain ⟨table, hsome⟩ := Option.isSome_iff_exists.1 htable
  obtain ⟨htableeq, hcrc⟩ := h.table i table hi hsome
  obtain ⟨hpos, hcount, hlength, -⟩ := hshape.inner i hi
  obtain ⟨level, hlevel⟩ : ∃ level, m.depth = level + 1 :=
    ⟨m.depth - 1, by rw [Node.depth_of_inner hi]; omega⟩
  rw [hcrc, htableeq, hlevel, Nat.add_sub_cancel]
  change _ = s.chain ((src.starts level m.position).map (src.checksum s level))
  congr 1
  have hlist : Node.crcsWith s i slot child =
      ((src.starts level m.position).map (src.checksum s level)).map some := by
    apply List.ext_getElem?
    intro k
    have hcounts : (Node.crcsWith s i slot child).length =
        childCount src.size m.position (level + 1) := by
      rw [length_crcsWith, hlength, hcount, ← Node.depth_of_inner hi, hlevel]
    by_cases hk : k < childCount src.size m.position (level + 1)
    · rw [List.getElem?_map, List.getElem?_map, Source.getElem?_starts hk]
      have hmem := List.getElem_mem (show k < (Node.crcsWith s i slot child).length by omega)
      obtain ⟨crc, hsome⟩ := Option.isSome_iff_exists.1 (List.all_eq_true.1 hall _ hmem)
      have hget : (Node.crcsWith s i slot child)[k]? = some (some crc) := by
        rw [List.getElem?_eq_getElem (by omega), hsome]
      rw [hget, faithful_crcsWith h hi hslot hchild hget, hlevel, Nat.add_sub_cancel]
      rfl
    · rw [List.getElem?_eq_none (by omega), List.getElem?_eq_none]
      simp only [List.length_map, Source.length_starts]
      omega
  rw [hlist, List.filterMap_map]
  exact List.filterMap_some

theorem faithful_of_new {size start depth : Nat} {parent : Option NodeId}
    (hinner : n.inner? = (Node.new size start depth parent).inner?)
    (hchk : n.chk = src.chk s n.depth n.position) : n.Faithful s src where
  chk := hchk
  table i table hi htable := by
    rw [(Node.blank_of_new _ _ _ _ hinner hi).1] at htable
    cases htable
  crcs i slot crc hi hget := absurd hget ((Node.blank_of_new _ _ _ _ hinner hi).2 slot crc)

theorem faithful_newChild {i : Inner} {j : Nat} (h : n.Faithful s src) (hshape : n.Shaped src.size)
    (hi : n.inner? = some i) (htable : i.table.isSome) (hj : j < i.childCount) :
    (Tree.newChild id n i j).Faithful s src := by
  have hlike := like_newChild id n i j
  obtain ⟨table, hsome⟩ := Option.isSome_iff_exists.1 htable
  obtain ⟨hpos, hcount, -⟩ := hshape.inner i hi
  have hdepth := Node.depth_of_inner hi
  obtain ⟨level, hlevel⟩ : ∃ level, i.depth = level + 1 := ⟨i.depth - 1, by omega⟩
  have hchks : table.chks[j]? = some (src.chk s level (n.position + j * coverage level)) := by
    rw [(h.table i table hi hsome).1, hdepth, hlevel, Nat.add_sub_cancel]
    apply Source.chks_table
    rw [← hlevel, ← hcount]
    exact hj
  apply faithful_of_new (inner?_newChild id n i j)
  rw [hlike.depth, hlike.position, Node.depth_new, Node.position_new, hlevel, Nat.add_sub_cancel,
    chk_newChild hsome hchks]

/-! ### Moves -/

end Node

section Moves

theorem Faithful.set (hf : Faithful s src t) (hn : t.get? id = some n) (hm : m.Faithful s src) :
    Faithful s src (t.set id m) where
  fileSize := hf.fileSize
  node := by
    intro k b hb
    rw [Tree.get?_set hn] at hb
    split at hb
    · obtain rfl := Option.some.inj hb
      exact hm
    · exact hf.node hb

/-- The slot of a child is for what the child covers. -/
theorem Good.payload_of_slot {slot : Nat} {p : Nat} (h : Good t) (hm : t.get? p = some m)
    (hslot : m.child? slot = some id) (hn : t.get? id = some n)
    (hdata : data.toList.take n.length = src.payload s n.depth n.position) :
    s.checksum (n.admitted data).payload =
      src.checksum s (m.depth - 1) (m.position + slot * coverage (m.depth - 1)) := by
  obtain ⟨n', hn', -, hdepth, hposition⟩ := h.sound.down hm hslot
  obtain rfl := Option.some.inj (hn.symm.trans hn')
  rw [payload_admitted, hdata, ← hdepth, Nat.add_sub_cancel, ← hposition]
  rfl

theorem Good.exists_slot {slot p : Nat} (h : Good t) (hm : t.get? p = some m)
    (hslot : m.child? slot = some id) : ∃ i, m.inner? = some i ∧ slot < i.childCrcs.length := by
  have hshape := h.sound.shaped hm
  obtain ⟨hdepth, hlt⟩ := hshape.lt_childCount hslot
  obtain ⟨i, hi⟩ := Option.isSome_iff_exists.1 (hshape.isSome_inner?.2 hdepth)
  refine ⟨i, hi, ?_⟩
  rwa [(hshape.inner i hi).2.2.1, ← Node.childCount_of_inner hi]

theorem Faithful.told {p slot : Nat} (hf : Faithful s src t) (h : Good t)
    (hn : t.get? id = some n) (hstatus : n.status = .created ∨ n.status = .pending)
    (hp : n.parent = some p) (hm : t.get? p = some m) (hslot : m.child? slot = some id)
    (hadmitted : (n.admitted data).Faithful s src)
    (hchild : s.checksum (n.admitted data).payload =
      src.checksum s (m.depth - 1) (m.position + slot * coverage (m.depth - 1))) :
    Faithful s src (Download.told (t.set id (n.admitted data)) p
      (m.recorded s slot (n.admitted data))).1 := by
  obtain ⟨-, hm', status, _, htree, -⟩ := h.told_parent hn hstatus hp hm s slot data
  obtain ⟨i, hi, hlt⟩ := h.exists_slot hm hslot
  rw [htree]
  apply (hf.set hn hadmitted).set hm'
  exact faithful_congr (faithful_recorded (hf.node hm) hi hlt hchild) (retains_status _ status)

theorem Faithful.unfolded {ids : List NodeId} (hf : Faithful s src t) (h : Good t)
    (hn : t.get? id = some n) (hstatus : n.status = .present) (hinner : n.isInner)
    (hchildren : (t.set id { n with status := .persistent }).allocateChildren id = (some ids, t')) :
    Faithful s src t' := by
  obtain ⟨i, hi⟩ := Option.isSome_iff_exists.1 hinner
  obtain ⟨-, hunfold⟩ := h.unfolded hn hstatus hi hchildren
  have hshape := h.sound.shaped hn
  rw [hf.fileSize] at hshape
  have htable : i.table.isSome :=
    (h.staged.fits hn).table (by simp [hstatus]) (by simp [hstatus]) i hi
  refine ⟨hunfold.fileSize.trans hf.fileSize, ?_⟩
  intro k b hb
  rcases hunfold.back hb with ⟨-, rfl⟩ | ⟨j, hj, -, rfl⟩ | ⟨-, hold⟩
  · exact faithful_congr (hf.node hn) (retains_withChildren hi _ _)
  · exact faithful_newChild (hf.node hn) hshape hi htable hj
  · exact hf.node hold

theorem Faithful.pruned (hf : Faithful s src t) (h : Good t) (hn : t.get? id = some n) :
    Faithful s src (t.pruned id n) where
  fileSize := (h.sound.pruned hn).fileSize.trans hf.fileSize
  node := by
    intro k b hb
    obtain ⟨-, a, ha, ⟨rfl, -⟩ | ⟨-, slot, -, rfl⟩⟩ := (h.sound.pruned hn).back hb
    · exact hf.node ha
    · exact faithful_congr (hf.node ha) (retains_withoutChild a slot)

/-- Moves keep a download faithful, and the blocks they take are those of the file. -/
theorem Faithful.move (hf : Faithful env.suite src st.tree) (h : Good st.tree)
    (hsize : src.size ≤ maxSize) (hdisk : DiskBinds env src st.disk)
    (hreply : ReplyBinds env src st.tree heard) (hmove : Move env heard st st') :
    Faithful env.suite src st'.tree := by
  cases hmove with
  | pad hpad =>
    refine ⟨hpad.fileSize.trans hf.fileSize, ?_⟩
    intro k b hb
    exact hf.node ((hpad.get? k).symm.trans hb)
  | defer hn hstatus => exact hf.set hn (faithful_congr (hf.node hn) (retains_status _ _))
  | crown hn hparent hknown _ =>
    have hdata := hknown.payload_eq h hf hn hdisk hreply
    have hshape := h.sound.shaped hn
    rw [hf.fileSize] at hshape
    exact hf.set hn (faithful_admitted (hf.node hn) hshape hsize hdata)
  | adopt hn hparent hm hslot hknown _ =>
    have hdata := hknown.payload_eq h hf hn hdisk hreply
    have hshape := h.sound.shaped hn
    rw [hf.fileSize] at hshape
    exact hf.told h hn hknown.status hparent hm hslot
      (faithful_admitted (hf.node hn) hshape hsize hdata)
      (h.payload_of_slot hm hslot hn hdata)
  | unfold hn hstatus hinner hchildren => exact hf.unfolded h hn hstatus hinner hchildren
  | settle hn hstatus _ =>
    simp only [State.said, settled]
    split <;> exact hf.set hn (faithful_congr (hf.node hn) (retains_status _ _))
  | prune hn _ _ => exact hf.pruned h hn

theorem Evidence.disk_eq (hknown : Evidence env none st id n data disk) : disk = st.disk := by
  cases hknown with
  | stored => rfl
  | rebuilt => rfl
  | reply hheard => cases hheard

theorem Move.disk_eq (hmove : Move env none st st') : st'.disk = st.disk := by
  cases hmove with
  | crown _ _ hknown _ => exact hknown.disk_eq
  | adopt _ _ _ _ hknown _ => exact hknown.disk_eq
  | pad _ => rfl
  | defer _ _ => rfl
  | unfold _ _ _ _ => rfl
  | settle _ _ _ => rfl
  | prune _ _ _ => rfl

theorem disk_eq_of_moves (hmoves : Moves env st st') : st'.disk = st.disk := by
  induction hmoves with
  | refl => rfl
  | tail _ hmove ih => exact hmove.disk_eq.trans ih

/-- No checksum stands against a block of the file. -/
theorem Faithful.not_rejected {e : TreeError} (hf : Faithful env.suite src st.tree)
    (h : Good st.tree) (hdisk : DiskBinds env src st.disk)
    (hreply : ReplyBinds env src st.tree heard)
    (htop : ∀ crc, env.topCrc = some crc → crc = src.checksum env.suite (treeDepth src.size) 0) :
    ¬ Rejected env heard st e := by
  intro hrejected
  cases hrejected with
  | top hn hparent hknown hcrc hne =>
    apply hne
    obtain ⟨n', hn', hdepth, hposition⟩ := h.sound.rooted ((h.sound.root_iff hn).1 hparent)
    obtain rfl := Option.some.inj (hn.symm.trans hn')
    rw [htop _ hcrc, payload_admitted, hknown.payload_eq h hf hn hdisk hreply, hdepth, hposition,
      hf.fileSize]
    rfl
  | children hn hparent hm hslot hknown hnot =>
    apply hnot
    have hdata := hknown.payload_eq h hf hn hdisk hreply
    obtain ⟨i, hi, hlt⟩ := h.exists_slot hm hslot
    have hshape := h.sound.shaped hm
    rw [hf.fileSize] at hshape
    exact agrees_of_faithful (hf.node hm) hshape hi hlt (h.parent_table hn hknown.status hparent hm hi)
      (h.payload_of_slot hm hslot hn hdata)

end Moves

end Download

end ContentTree

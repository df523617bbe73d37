import ContentTree.Proofs.Blocks
import ContentTree.Proofs.Tree.Accounting

/-!
# The blocks that a download has taken

A ledger has the block that was taken for each place that is no longer awaited. Nodes come and go,
and a parent drops its own block with the last of its children, but what a node records is always
what the ledger has below it. So the checksum of a parent is compared once all of its children are in
the ledger, in whatever order they came.
-/

namespace ContentTree

/-- The place of the child in a slot. -/
def Node.childPlace (n : Node) (slot : Nat) : Nat × Nat :=
  (n.depth - 1, n.position + slot * coverage (n.depth - 1))

/-- What is recorded in the node is what is known of the blocks. -/
structure Node.Traced (s : Suite) (key : Digest) (known : Set (Nat × Nat)) (b : Blocks) (n : Node) :
    Prop where
  named : b.Names key known n.depth n.position n.chk.key
  table : ∀ i table, n.inner? = some i → i.table = some table →
    (n.depth, n.position) ∈ known ∧ table = b.table n.depth n.position ∧ i.crc = table.crc
  crcs : ∀ i slot crc, n.inner? = some i → slot < i.childCount →
    (i.childCrcs[slot]? = some (some crc) ↔ n.childPlace slot ∈ known ∧
      s.checksum (b.payload (n.depth - 1) (n.position + slot * coverage (n.depth - 1))) = crc)

namespace Download

variable {s : Suite} {key : Digest} {top : Option UInt32} {offer : Nat → Nat → Block → Prop}
  {known : Set (Nat × Nat)} {b : Blocks} {env : Env} {heard : Option (Nat × Block)}
  {st st' : State} {t t' : Tree} {id level position : Nat} {n m : Node} {data : Block} {disk : Disk}

/-! ### Single nodes -/

section Node

theorem childPlace_inj {i j : Nat} : n.childPlace i = n.childPlace j ↔ i = j := by
  refine ⟨fun h => ?_, fun h => h ▸ rfl⟩
  have hstart : n.position + i * coverage (n.depth - 1) = n.position + j * coverage (n.depth - 1) :=
    (Prod.mk.inj h).2
  exact Nat.eq_of_mul_eq_mul_right (coverage_pos _) (Nat.add_left_cancel hstart)

theorem childPlace_congr (hdepth : m.depth = n.depth) (hposition : m.position = n.position)
    (slot : Nat) : m.childPlace slot = n.childPlace slot := by
  rw [Node.childPlace, Node.childPlace, hdepth, hposition]

theorem traced_congr (h : n.Traced s key known b) (hretains : n.Retains m) :
    m.Traced s key known b where
  named := by
    rw [hretains.depth, hretains.position, hretains.chk]
    exact h.named
  table j table hj htable := by
    obtain ⟨i, hi, -, hsame, hcrc, -⟩ := hretains.inner j hj
    rw [hretains.depth, hretains.position, hcrc]
    exact h.table i table hi (hsame.symm.trans htable)
  crcs j slot crc hj hslot := by
    obtain ⟨i, hi, hcount, -, -, hcrcs⟩ := hretains.inner j hj
    rw [childPlace_congr hretains.depth hretains.position, hretains.depth, hretains.position, hcrcs]
    exact h.crcs i slot crc hi (hcount ▸ hslot)

/-- A node is not concerned when a block that is neither above it nor right below it is known. -/
theorem traced_put (h : n.Traced s key known b) (hsize : b.size ≤ maxSize)
    (hnot : ¬ Covers level position n.depth n.position)
    (hbelow : ∀ i slot, n.inner? = some i → slot < i.childCount →
      n.childPlace slot ≠ (level, position)) (data : Block) :
    n.Traced s key (insert (level, position) known) (b.put level position data) where
  named := h.named.put hsize (fun _ => hnot) data
  table i table hi htable := by
    rw [Blocks.table_put_of_ne data (ne_of_not_covers hnot)]
    exact (h.table i table hi htable).imp_left .inr
  crcs i slot crc hi hslot := by
    have hne := hbelow i slot hi hslot
    rw [Blocks.payload_put_of_ne data hne, Set.mem_insert_iff, or_iff_right hne]
    exact h.crcs i slot crc hi hslot

theorem traced_admitted (h : n.Traced s key known b) (hshape : n.Shaped b.size)
    (hsize : b.size ≤ maxSize) (data : Block) :
    (n.admitted data).Traced s key (insert (n.depth, n.position) known)
      (b.put n.depth n.position data) where
  named := by
    have hlike := like_admitted data n
    rw [chk_admitted, hlike.depth, hlike.position]
    exact h.named.put hsize (fun hlt => absurd hlt (Nat.lt_irrefl _)) data
  table j table hj htable := by
    have hlike := like_admitted data n
    obtain ⟨i, hi, -⟩ := hlike.inner j hj
    rw [inner?_admitted data hi] at hj
    obtain rfl := Option.some.inj hj
    obtain rfl := Option.some.inj htable
    rw [hlike.depth, hlike.position, Blocks.table, Blocks.block_put_self, Blocks.size_put,
      (hshape.inner i hi).2.1, Node.depth_of_inner hi]
    exact ⟨.inl rfl, rfl, rfl⟩
  crcs j slot crc hj hslot := by
    have hlike := like_admitted data n
    obtain ⟨i, hi, -⟩ := hlike.inner j hj
    rw [inner?_admitted data hi] at hj
    obtain rfl := Option.some.inj hj
    have hpos := (hshape.inner i hi).1
    have hne : n.childPlace slot ≠ (n.depth, n.position) := by
      intro heq
      have hdepth : n.depth - 1 = n.depth := (Prod.mk.inj heq).1
      rw [Node.depth_of_inner hi] at hdepth
      omega
    rw [childPlace_congr hlike.depth hlike.position, hlike.depth, hlike.position,
      Blocks.payload_put_of_ne data hne, Set.mem_insert_iff, or_iff_right hne]
    exact h.crcs i slot crc hi hslot

/-- A parent takes the checksum of the block that becomes known in one of its slots. -/
theorem traced_recorded {i : Inner} {slot : Nat} {child : Node} (h : n.Traced s key known b)
    (hshape : n.Shaped b.size) (hsize : b.size ≤ maxSize)
    (hnot : ¬ Covers level position n.depth n.position) (hi : n.inner? = some i)
    (hslot : slot < i.childCount) (hplace : n.childPlace slot = (level, position))
    (hfresh : (level, position) ∉ known)
    (hpayload : child.payload = data.toList.take (nodeLength b.size level position)) :
    (n.recorded s slot child).Traced s key (insert (level, position) known)
      (b.put level position data) where
  named := by
    have hlike := like_recorded (m := n) s slot child
    rw [chk_recorded, hlike.depth, hlike.position]
    exact h.named.put hsize (fun _ => hnot) data
  table j table hj htable := by
    have hlike := like_recorded (m := n) s slot child
    rw [inner?_recorded s slot child hi] at hj
    obtain rfl := Option.some.inj hj
    rw [hlike.depth, hlike.position, Blocks.table_put_of_ne data (ne_of_not_covers hnot)]
    exact (h.table i table hi htable).imp_left .inr
  crcs j k crc hj hk := by
    have hlike := like_recorded (m := n) s slot child
    rw [inner?_recorded s slot child hi] at hj
    obtain rfl := Option.some.inj hj
    have hlength := (hshape.inner i hi).2.2.1
    rw [childPlace_congr hlike.depth hlike.position, hlike.depth, hlike.position]
    simp only [Node.crcsWith]
    by_cases hsame : slot = k
    · subst hsame
      have hnone : i.childCrcs[slot]?.join = none := by
        cases hold : i.childCrcs[slot]?.join with
        | none => rfl
        | some old =>
          rw [Option.join_eq_some_iff, h.crcs i slot old hi hslot, hplace] at hold
          exact absurd hold.1 hfresh
      obtain ⟨rfl, rfl⟩ := Prod.mk.inj hplace
      rw [List.getElem?_set_self (by omega), hnone, Blocks.payload, Blocks.block_put_self,
        Blocks.size_put, ← hpayload]
      simp [hplace]
    · have hne : n.childPlace k ≠ (level, position) := by
        rw [← hplace, Ne, childPlace_inj]
        exact Ne.symm hsame
      rw [List.getElem?_set_ne hsame, Blocks.payload_put_of_ne data hne, Set.mem_insert_iff,
        or_iff_right hne]
      exact h.crcs i k crc hi hk

/-- Once all its children are known, a node has recorded their checksums. -/
theorem childCrcs_of_all {i : Inner} (h : n.Traced s key known b) (hshape : n.Shaped b.size)
    (hi : n.inner? = some i) (hlevel : n.depth = level + 1)
    (hall : ∀ j < i.childCount, n.childPlace j ∈ known) :
    i.childCrcs = (b.childSums s level n.position).map some := by
  obtain ⟨-, hcount, hlength, -⟩ := hshape.inner i hi
  rw [← Node.depth_of_inner hi, hlevel] at hcount
  refine List.ext_getElem? fun j => ?_
  by_cases hj : j < i.childCount
  · rw [(h.crcs i j _ hi hj).2 ⟨hall j hj, rfl⟩, hlevel, Nat.add_sub_cancel]
    simp [Blocks.childSums, hcount ▸ hj]
  · rw [List.getElem?_eq_none (by omega), List.getElem?_eq_none]
    simp only [Blocks.childSums, List.length_map, List.length_range]
    omega

/-- The checksum in the table of a parent stands for all of its children once the last is recorded. -/
theorem crc_eq_of_agrees {i : Inner} {slot : Nat} {child : Node}
    (h : (n.recorded s slot child).Traced s key known b) (hshape : n.Shaped b.size)
    (hi : n.inner? = some i) (hlevel : n.depth = level + 1)
    (hall : ∀ j < childCount b.size n.position (level + 1),
      (level, n.position + j * coverage level) ∈ known)
    (hagrees : n.Agrees s slot child) : i.crc = s.chain (b.childSums s level n.position) := by
  have hlike := like_recorded (m := n) s slot child
  have hcount := (hshape.inner i hi).2.1
  rw [← Node.depth_of_inner hi, hlevel] at hcount
  have hcrcs : Node.crcsWith s i slot child = (b.childSums s level n.position).map some := by
    have hrecorded := childCrcs_of_all h (hlike.shaped hshape) (inner?_recorded s slot child hi)
      (hlike.depth.trans hlevel) fun j hj => by
        rw [childPlace_congr hlike.depth hlike.position, Node.childPlace, hlevel, Nat.add_sub_cancel]
        exact hall j (hcount ▸ hj)
    rwa [hlike.position] at hrecorded
  calc i.crc = s.chain ((Node.crcsWith s i slot child).filterMap id) :=
        (hagrees i hi (by rw [hcrcs]; simp)).symm
    _ = s.chain (((b.childSums s level n.position).map some).filterMap id) := by rw [hcrcs]
    _ = s.chain (b.childSums s level n.position) := by
      rw [List.filterMap_map]
      exact congrArg s.chain List.filterMap_some

/-- A node in which nothing has been recorded suits a ledger that knows nothing below it. -/
theorem traced_of_new {size start depth : Nat} {parent : Option NodeId}
    (hinner : n.inner? = (Node.new size start depth parent).inner?)
    (hnamed : b.Names key known n.depth n.position n.chk.key)
    (hfresh : ∀ slot < n.childCount, n.childPlace slot ∉ known) : n.Traced s key known b where
  named := hnamed
  table i table hi htable := by
    rw [(Node.blank_of_new _ _ _ _ hinner hi).1] at htable
    cases htable
  crcs i slot crc hi hslot := iff_of_false ((Node.blank_of_new _ _ _ _ hinner hi).2 slot crc)
    fun hmem => hfresh slot (Node.childCount_of_inner hi ▸ hslot) hmem.1

/-- A new child takes its key from the table of its parent. -/
theorem traced_newChild {i : Inner} {j : Nat} (h : n.Traced s key known b)
    (hshape : n.Shaped b.size) (hsize : b.size ≤ maxSize) (hi : n.inner? = some i)
    (htable : i.table.isSome) (hj : j < i.childCount)
    (hfresh : ∀ slot < (Tree.newChild id n i j).childCount,
      (Tree.newChild id n i j).childPlace slot ∉ known) :
    (Tree.newChild id n i j).Traced s key known b := by
  obtain ⟨table, hsome⟩ := Option.isSome_iff_exists.1 htable
  obtain ⟨hpos, hcount, -⟩ := hshape.inner i hi
  obtain ⟨level, hlevel⟩ : ∃ level, i.depth = level + 1 := ⟨i.depth - 1, by omega⟩
  have hdepth : n.depth = level + 1 := (Node.depth_of_inner hi).trans hlevel
  have hplace := hshape.place
  rw [hdepth] at hplace
  rw [hlevel] at hcount
  have hlike := like_newChild id n i j
  refine traced_of_new (inner?_newChild id n i j) ?_ hfresh
  rw [hlike.depth, hlike.position, Node.depth_new, Node.position_new, hlevel, Nat.add_sub_cancel]
  obtain ⟨chk, hchk⟩ : ∃ chk, table.chks[j]? = some chk := by
    have hle := @childCount_le b.size n.position level hsize (hplace.level_lt hsize)
    refine ⟨_, List.getElem?_eq_getElem ?_⟩
    rw [(h.table i table hi hsome).2.1, Blocks.table, InnerBlock.length_chks_decode, hdepth]
    omega
  constructor
  case root =>
    intro hroot
    have hle := hplace.level_le
    omega
  case child =>
    intro above k habove hk heq _
    have hspan := coverage_eq_span (hplace.level_lt hsize)
    rw [hspan] at heq
    obtain ⟨rfl, rfl⟩ := hplace.child_inj hsize habove (hcount ▸ hj) hk heq
    rw [← hdepth, ← (h.table i table hi hsome).2.1, hchk, chk_newChild hsome hchk]
    rfl

end Node

/-! ### Places of children -/

section ChildPlace

variable {size slot : Nat}

theorem childPlace_spec (h : n.Shaped size) (hsize : size ≤ maxSize) (hslot : slot < n.childCount) :
    ∃ level, n.depth = level + 1 ∧ slot < childCount size n.position (level + 1) ∧
      n.childPlace slot = (level, n.position + slot * coverage level) ∧
      Place size level (n.position + slot * coverage level) ∧
      Covers n.depth n.position level (n.position + slot * coverage level) := by
  have hinner : ∃ i, n.inner? = some i := by
    cases hi : n.inner? with
    | none => simp [Node.childCount, hi] at hslot
    | some i => exact ⟨i, rfl⟩
  obtain ⟨i, hi⟩ := hinner
  have hpos := h.isSome_inner?.1 (by rw [hi]; rfl)
  obtain ⟨level, hlevel⟩ : ∃ level, n.depth = level + 1 := ⟨n.depth - 1, by omega⟩
  rw [h.childCount_eq hi, hlevel] at hslot
  have hplace := h.place
  rw [hlevel] at hplace
  have hlt := hplace.level_lt hsize
  refine ⟨level, hlevel, hslot, ?_, ?_, ?_⟩
  · rw [Node.childPlace, hlevel, Nat.add_sub_cancel]
  · rw [coverage_eq_span hlt]
    exact hplace.child hsize hslot
  · rw [hlevel, coverage_eq_span hlt]
    exact (covers_self _ _).of_child ((lt_childCount_iff hsize hlt).1 hslot).1

theorem Good.childPlace_eq (h : Good t) (hm : t.get? id = some m) {c : Nat}
    (hslot : m.child? slot = some c) (hn : t.get? c = some n) :
    m.childPlace slot = (n.depth, n.position) := by
  obtain ⟨n', hn', -, hdepth, hposition⟩ := h.sound.down hm hslot
  obtain rfl := Option.some.inj (hn.symm.trans hn')
  rw [Node.childPlace, hposition, ← hdepth, Nat.add_sub_cancel]

/-- Whoever has a slot for the place of a node is its parent. -/
theorem Good.parent_of_childPlace (h : Good t) (hn : t.get? id = some n) {k : Nat}
    (hm : t.get? k = some m) (hslot : slot < m.childCount)
    (hplace : m.childPlace slot = (n.depth, n.position)) : n.parent = some k := by
  obtain ⟨level, hlevel, -, hchild, -, hcovers⟩ :=
    childPlace_spec (h.sound.shaped hm) h.sound.fileSize_le hslot
  obtain ⟨rfl, hposition⟩ := Prod.mk.inj (hchild.symm.trans hplace)
  rw [hposition] at hcovers
  cases hp : n.parent with
  | none =>
    obtain ⟨n', hn', hroot, -⟩ := h.sound.rooted ((h.sound.root_iff hn).1 hp)
    obtain rfl := Option.some.inj (hn.symm.trans hn')
    have hle := (h.sound.shaped hm).place.level_le
    omega
  | some p =>
    obtain ⟨q, i, hq, -, hup, -, -⟩ := h.sound.parent hn hp
    have habove := h.sound.covers_parent hn hp hq (covers_self _ _)
    have hdvd := (h.sound.shaped hm).place.dvd
    rw [show m.depth = q.depth by omega] at hcovers hdvd
    have hsame := Covers.unique (h.sound.shaped hq).place.dvd hdvd habove hcovers
    rw [h.sound.unique hq hm (by omega) hsame]

end ChildPlace

/-! ### Ledgers -/

/-- The blocks known of a tree are those of the places that are no longer awaited. Each has been
offered for its place. -/
structure Ledger (s : Suite) (key : Digest) (top : Option UInt32) (offer : Nat → Nat → Block → Prop)
    (known : Set (Nat × Nat)) (b : Blocks) (t : Tree) : Prop where
  fileSize : t.fileSize = b.size
  known_iff : ∀ {level position}, Place b.size level position →
    ((level, position) ∈ known ↔ ¬ Awaited t level position)
  node : ∀ {id : Nat} {n}, t.get? id = some n → n.Traced s key known b
  vouched : b.Vouched s key top known
  offered : ∀ {level position}, Place b.size level position → (level, position) ∈ known →
    offer level position (b.block level position)

section Moves

theorem Ledger.not_known (h : Ledger s key top offer known b t) (hn : t.get? id = some n)
    (hawaits : n.Awaits level) (hplace : Place b.size level position)
    (hcovers : Covers n.depth n.position level position) : (level, position) ∉ known := by
  rw [h.known_iff hplace, not_not]
  exact ⟨id, n, hn, hawaits, hcovers⟩

theorem Ledger.shaped (h : Ledger s key top offer known b t) (hgood : Good t)
    (hn : t.get? id = some n) : n.Shaped b.size := h.fileSize ▸ hgood.sound.shaped hn

theorem Ledger.size_le (h : Ledger s key top offer known b t) (hgood : Good t) :
    b.size ≤ maxSize := h.fileSize ▸ hgood.sound.fileSize_le

/-- As long as no block is taken, the ledger stays as it is. -/
theorem Ledger.quiet (h : Ledger s key top offer known b t) (hfile : t'.fileSize = t.fileSize)
    (hawaited : ∀ level position, Place t.fileSize level position →
      (Awaited t' level position ↔ Awaited t level position))
    (hnode : ∀ {id : Nat} {n}, t'.get? id = some n → n.Traced s key known b) :
    Ledger s key top offer known b t' where
  fileSize := hfile.trans h.fileSize
  known_iff hplace := by
    rw [h.known_iff hplace, hawaited _ _ (h.fileSize ▸ hplace)]
  node := hnode
  vouched := h.vouched
  offered := h.offered

theorem Ledger.traced_set (h : Ledger s key top offer known b t) (hn : t.get? id = some n)
    (hm : m.Traced s key known b) {k : Nat} {x : Node} (hx : (t.set id m).get? k = some x) :
    x.Traced s key known b := by
  rw [Tree.get?_set hn] at hx
  split at hx
  · obtain rfl := Option.some.inj hx
    exact hm
  · exact h.node hx

theorem Ledger.unfolded {ids : List NodeId} (h : Ledger s key top offer known b t) (hgood : Good t)
    (hn : t.get? id = some n) (hstatus : n.status = .present) (hinner : n.isInner)
    (hchildren : (t.set id { n with status := .persistent }).allocateChildren id = (some ids, t')) :
    Ledger s key top offer known b t' := by
  obtain ⟨i, hi⟩ := Option.isSome_iff_exists.1 hinner
  obtain ⟨-, hunfold⟩ := hgood.unfolded hn hstatus hi hchildren
  have hgood' := hgood.unfold hn hstatus hinner hchildren
  have hawaited : ∀ level position, Place t.fileSize level position →
      (Awaited t' level position ↔ Awaited t level position) := fun _ _ hplace =>
    hgood.awaited_unfold hn hstatus hinner hchildren hplace
  have htable : i.table.isSome :=
    (hgood.staged.fits hn).table (by simp [hstatus]) (by simp [hstatus]) i hi
  refine h.quiet hunfold.fileSize hawaited fun {k x} hx => ?_
  rcases hunfold.back hx with ⟨-, rfl⟩ | ⟨j, hj, -, rfl⟩ | ⟨-, hold⟩
  · exact traced_congr (h.node hn) (retains_withChildren hi _ _)
  · refine traced_newChild (h.node hn) (h.shaped hgood hn) (h.size_le hgood) hi htable hj
      fun slot hslot => ?_
    obtain ⟨level, -, -, hchild, hplace, hcovers⟩ :=
      childPlace_spec (hgood'.sound.shaped hx) hgood'.sound.fileSize_le hslot
    rw [hunfold.fileSize] at hplace
    rw [hchild, h.known_iff (h.fileSize ▸ hplace), not_not, ← hawaited _ _ hplace]
    exact ⟨k, _, hx, .inl (status_newChild id n i j), hcovers⟩
  · exact h.node hold

theorem Ledger.pruned (h : Ledger s key top offer known b t) (hgood : Good t)
    (hn : t.get? id = some n)
    (hstatus : n.status = .present ∧ n.inner? = none ∨ n.status = .childrenPresent) :
    Ledger s key top offer known b (t.pruned id n) := by
  have hpruned := hgood.sound.pruned hn
  refine h.quiet hpruned.fileSize (fun _ _ _ => hgood.awaited_prune hn hstatus) fun {k x} hx => ?_
  obtain ⟨-, a, ha, ⟨rfl, -⟩ | ⟨-, slot, -, rfl⟩⟩ := hpruned.back hx
  · exact h.node ha
  · exact traced_congr (h.node ha) (retains_withoutChild a slot)

section Known

variable (h : Ledger s key top offer known b t) (hgood : Good t) (hn : t.get? id = some n)
  (hstatus : n.status = .created ∨ n.status = .pending)

include h hgood hn hstatus

theorem Ledger.traced_other {k : Nat} (hm : t.get? k = some m) (hne : k ≠ id)
    (hparent : n.parent ≠ some k) (data : Block) :
    m.Traced s key (insert (n.depth, n.position) known) (b.put n.depth n.position data) := by
  refine traced_put (h.node hm) (h.size_le hgood) (fun hcovers => ?_) (fun i slot hi hslot heq => ?_)
    data
  · exact hne (hgood.awaits_self hm hn (awaits_of_started hstatus 0) hcovers).symm
  · exact hparent
      (hgood.parent_of_childPlace hn hm (Node.childCount_of_inner hi ▸ hslot) heq)

theorem Ledger.self_not_known : (n.depth, n.position) ∉ known :=
  h.not_known hn (awaits_of_started hstatus _) (h.shaped hgood hn).place (covers_self _ _)

/-- What the ledger is once a block is taken. -/
theorem Ledger.learn (hfile : t'.fileSize = t.fileSize)
    (hawaited : ∀ level position, Place t.fileSize level position →
      (Awaited t' level position ↔
        Awaited t level position ∧ ¬ (level = n.depth ∧ position = n.position)))
    (hkey : s.hash (data.toList.take n.length) = n.chk.key)
    (hoffer : offer n.depth n.position data)
    (htop : n.parent = none → ∀ crc, top = some crc → s.checksum (data.toList.take n.length) = crc)
    (hsums : ∀ {above i}, Place b.size (n.depth + 1) above →
      i < childCount b.size above (n.depth + 1) → n.position = above + i * coverage n.depth →
      (∀ j < childCount b.size above (n.depth + 1),
        (n.depth, above + j * coverage n.depth) ∈ insert (n.depth, n.position) known) →
      (b.table (n.depth + 1) above).crc =
        s.chain ((b.put n.depth n.position data).childSums s n.depth above))
    (hnode : ∀ {k : Nat} {m}, t'.get? k = some m →
      m.Traced s key (insert (n.depth, n.position) known) (b.put n.depth n.position data)) :
    Ledger s key top offer (insert (n.depth, n.position) known) (b.put n.depth n.position data) t' := by
  have hshape := h.shaped hgood hn
  have hlength := hshape.length
  constructor
  case fileSize => exact hfile.trans h.fileSize
  case known_iff =>
    intro level position hplace
    rw [Blocks.size_put] at hplace
    rw [Set.mem_insert_iff, h.known_iff hplace, hawaited _ _ (h.fileSize ▸ hplace), Prod.mk.injEq]
    tauto
  case node => exact hnode
  case vouched =>
    refine h.vouched.put (h.size_le hgood) (fun below start hplace hcovers =>
      h.not_known hn (awaits_of_started hstatus below) hplace hcovers) ?_ ?_ ?_
    · rw [← hlength, hkey]
      exact (h.node hn).named
    · intro hroot
      rw [← hlength]
      apply htop
      by_contra hne
      obtain ⟨p, hp⟩ := Option.ne_none_iff_exists'.1 hne
      obtain ⟨q, i, hq, -, hup, -, -⟩ := hgood.sound.parent hn hp
      have hle := (h.shaped hgood hq).place.level_le
      omega
    · intro above i habove hi heq _ hall
      exact hsums habove hi heq hall
  case offered =>
    intro level position hplace hmem
    by_cases hself : (level, position) = (n.depth, n.position)
    · obtain ⟨rfl, rfl⟩ := Prod.mk.inj hself
      rw [Blocks.block_put_self]
      exact hoffer
    · rw [Blocks.block_put_of_ne data hself]
      exact h.offered hplace (hmem.resolve_left hself)

theorem Ledger.crowned (hparent : n.parent = none)
    (hkey : s.hash (data.toList.take n.length) = n.chk.key)
    (hoffer : offer n.depth n.position data)
    (htop : ∀ crc, top = some crc → s.checksum (n.admitted data).payload = crc) :
    Ledger s key top offer (insert (n.depth, n.position) known) (b.put n.depth n.position data)
      (t.set id (n.admitted data)) := by
  refine h.learn hgood hn hstatus rfl
    (fun _ _ hplace => hgood.awaited_admitted hn hstatus data hplace) hkey hoffer
    (fun _ => payload_admitted data n ▸ htop) (fun {above i} habove _ _ _ => ?_) fun {k m} hm => ?_
  · obtain ⟨n', hn', hroot, -⟩ := hgood.sound.rooted ((hgood.sound.root_iff hn).1 hparent)
    obtain rfl := Option.some.inj (hn.symm.trans hn')
    have hle := habove.level_le
    rw [hroot, h.fileSize] at hle
    omega
  · rw [Tree.get?_set hn] at hm
    split at hm
    · obtain rfl := Option.some.inj hm
      exact traced_admitted (h.node hn) (h.shaped hgood hn) (h.size_le hgood) data
    · rename_i hne
      exact h.traced_other hgood hn hstatus hm hne (by simp [hparent]) data

theorem Ledger.adopted {p slot : Nat} (hparent : n.parent = some p) (hm : t.get? p = some m)
    (hslot : m.child? slot = some id) (hkey : s.hash (data.toList.take n.length) = n.chk.key)
    (hoffer : offer n.depth n.position data) (hagrees : m.Agrees s slot (n.admitted data)) :
    Ledger s key top offer (insert (n.depth, n.position) known) (b.put n.depth n.position data)
      (told (t.set id (n.admitted data)) p (m.recorded s slot (n.admitted data))).1 := by
  have hsize := h.size_le hgood
  have hshape := h.shaped hgood hm
  have hplace := hgood.childPlace_eq hm hslot hn
  obtain ⟨hpos, hlt⟩ := hshape.lt_childCount hslot
  obtain ⟨i, hi⟩ := Option.isSome_iff_exists.1 (hshape.isSome_inner?.2 hpos)
  obtain ⟨level, hlevel, hlt', hchild, -⟩ := childPlace_spec hshape hsize hlt
  obtain ⟨rfl, hposition⟩ := Prod.mk.inj (hchild.symm.trans hplace)
  have hrecorded : (m.recorded s slot (n.admitted data)).Traced s key
      (insert (n.depth, n.position) known) (b.put n.depth n.position data) := by
    refine traced_recorded (h.node hm) hshape hsize (fun hcovers => ?_) hi
      (Node.childCount_of_inner hi ▸ hlt) hplace (h.self_not_known hgood hn hstatus) ?_
    · have hle := hcovers.below_le
      omega
    · rw [payload_admitted, (h.shaped hgood hn).length]
  obtain ⟨hne, hm', status, _, htree, -⟩ := hgood.told_parent hn hstatus hparent hm s slot data
  refine h.learn hgood hn hstatus ?_
    (fun _ _ hplace => hgood.awaited_told hn hstatus hparent hm data hplace) hkey hoffer
    (fun hnone => by rw [hparent] at hnone; cases hnone) (fun {above j} habove hj heq hall => ?_)
    fun {k x} hx => ?_
  · rw [htree]
    rfl
  · -- Only the parent has the block for a child, and all of its children are known by now.
    have hparentplace : Place b.size (n.depth + 1) m.position := hlevel ▸ hshape.place
    have hspan := coverage_eq_span (hparentplace.level_lt hsize)
    obtain ⟨rfl, -⟩ := hparentplace.child_inj hsize habove hlt' hj
      (by rw [← hspan, hposition, heq])
    obtain ⟨table, htable⟩ := Option.isSome_iff_exists.1
      (hgood.parent_table hn hstatus hparent hm hi)
    obtain ⟨-, rfl, hcrc⟩ := (h.node hm).table i table hi htable
    calc (b.table (n.depth + 1) m.position).crc = i.crc := by rw [hcrc, hlevel]
      _ = s.chain ((b.put n.depth n.position data).childSums s n.depth m.position) :=
        crc_eq_of_agrees hrecorded hshape hi hlevel hall hagrees
  · rw [htree, Tree.get?_set hm', Tree.get?_set hn] at hx
    split at hx
    · obtain rfl := Option.some.inj hx
      exact traced_congr hrecorded (retains_status _ status)
    · split at hx
      · obtain rfl := Option.some.inj hx
        exact traced_admitted (h.node hn) (h.shaped hgood hn) hsize data
      · rename_i hp hid
        exact h.traced_other hgood hn hstatus hx hid (by simp [hparent, Ne.symm hp]) data

end Known

theorem Evidence.hash_eq (h : Evidence env heard st id n data disk) (hgood : Good st.tree)
    (hn : st.tree.get? id = some n) :
    env.suite.hash (data.toList.take n.length) = n.chk.key := by
  cases h with
  | stored _ _ hkey => exact hkey
  | rebuilt _ _ _ hchk =>
    have hshape := hgood.sound.shaped hn
    rw [← hchk, Source.key_chk, Source.payload, hshape.length, hshape.fileSize]
    rfl
  | reply _ _ hkey _ => exact hkey

/-- A move adds the block that it takes. -/
theorem Ledger.move (h : Ledger env.suite key env.topCrc offer known b st.tree)
    (hgood : Good st.tree)
    (hoffer : ∀ {id : Nat} {n data disk}, st.tree.get? id = some n →
      Evidence env heard st id n data disk → offer n.depth n.position data)
    (hmove : Move env heard st st') :
    ∃ known' c, Ledger env.suite key env.topCrc offer known' c st'.tree ∧
      b.Extended known known' c := by
  have hsame : b.Extended known known b := .refl b known
  cases hmove with
  | pad hpad =>
    exact ⟨known, b, h.quiet hpad.fileSize (fun _ _ _ => awaited_congr hpad.get?)
      fun {k x} hx => h.node ((hpad.get? k).symm.trans hx), hsame⟩
  | defer hn hstatus =>
    refine ⟨known, b, h.quiet rfl (fun level _ _ => awaited_set hn (like_status _ .pending) ?_)
      fun hx => h.traced_set hn (traced_congr (h.node hn) (retains_status _ _)) hx, hsame⟩
    exact iff_of_true (.inr (.inl rfl)) (.inl hstatus)
  | crown hn hparent hknown htop =>
    exact ⟨_, _, h.crowned hgood hn hknown.status hparent (hknown.hash_eq hgood hn)
      (hoffer hn hknown) htop, .put (h.self_not_known hgood hn hknown.status) _⟩
  | adopt hn hparent hm hslot hknown hagrees =>
    exact ⟨_, _, h.adopted hgood hn hknown.status hparent hm hslot (hknown.hash_eq hgood hn)
      (hoffer hn hknown) hagrees, .put (h.self_not_known hgood hn hknown.status) _⟩
  | unfold hn hstatus hinner hchildren =>
    exact ⟨known, b, h.unfolded hgood hn hstatus hinner hchildren, hsame⟩
  | settle hn hstatus _ =>
    refine ⟨known, b, ?_, hsame⟩
    have hbefore := not_awaits (.inl hstatus)
    simp only [State.said, settled]
    split <;> refine h.quiet rfl (fun level _ _ => awaited_set hn (like_status _ _)
      (iff_of_false (not_awaits ?_ level) (hbefore level)))
      fun hx => h.traced_set hn (traced_congr (h.node hn) (retains_status _ _)) hx
    · exact .inr (.inl rfl)
    · exact .inr (.inr rfl)
  | prune hn _ hstatus => exact ⟨known, b, h.pruned hgood hn hstatus, hsame⟩

end Moves

end Download

end ContentTree

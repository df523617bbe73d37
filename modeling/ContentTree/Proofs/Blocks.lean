import Mathlib.Data.Set.Insert
import Mathlib.Logic.Function.Basic
import ContentTree.Proofs.InnerBlock
import ContentTree.Proofs.Places

/-!
# Any blocks over a file

A tree over a file may be given by any blocks at all, where no block need have been made from those
below it. All that the keys of such a tree settle is what the pairs in an inner block are; the hash
over the pairs and the checksum beside them may be anything.
-/

namespace ContentTree

/-- A block for each place in the tree over a file of `size` bytes. -/
structure Blocks where
  size : Nat
  block : Nat → Nat → Block

namespace Blocks

variable {s : Suite} {b c : Blocks} {level position : Nat} {data : Block}

def payload (b : Blocks) (level position : Nat) : Bytes :=
  (b.block level position).toList.take (nodeLength b.size level position)

/-- What the block at a place says of the children. -/
def table (b : Blocks) (level position : Nat) : InnerBlock :=
  InnerBlock.decode (b.block level position) (childCount b.size position level)

/-- The checksums of the children of a place one level up, in slot order. -/
def childSums (s : Suite) (b : Blocks) (level position : Nat) : List UInt32 :=
  (List.range (childCount b.size position (level + 1))).map fun i =>
    s.checksum (b.payload level (position + i * coverage level))

/-- Each inner block names the hashes of its children. -/
def Linked (s : Suite) (b : Blocks) : Prop :=
  ∀ ⦃level position i⦄, Place b.size (level + 1) position →
    i < childCount b.size position (level + 1) →
    ((b.table (level + 1) position).chks[i]?).map Chk.key =
      some (s.hash (b.payload level (position + i * coverage level)))

/-- The root has the hash `key`, and each other block has the one that the block above names. -/
structure Keyed (s : Suite) (key : Digest) (b : Blocks) : Prop where
  root : s.hash (b.payload (treeDepth b.size) 0) = key
  linked : b.Linked s

/-- Each inner block has the checksum over the checksums of its children, and the root has the one
given, if there is one. -/
structure Summed (s : Suite) (top : Option UInt32) (b : Blocks) : Prop where
  root : ∀ crc, top = some crc → s.checksum (b.payload (treeDepth b.size) 0) = crc
  inner : ∀ {level position}, Place b.size (level + 1) position →
    (b.table (level + 1) position).crc = s.chain (b.childSums s level position)

theorem table_congr (hsize : c.size = b.size)
    (h : c.payload (level + 1) position = b.payload (level + 1) position) :
    c.table (level + 1) position = b.table (level + 1) position := by
  unfold payload at h
  rw [hsize] at h
  unfold table
  rw [hsize]
  exact InnerBlock.decode_congr h

/-- The hash of a place binds every payload below it, where payloads of one place do not collide. -/
theorem Linked.payload_eq (hsize : b.size ≤ maxSize) (hsame : c.size = b.size) (hb : b.Linked s)
    (hc : c.Linked s) (hplace : Place b.size level position)
    (hcollision : ∀ below start, Place b.size below start → Covers level position below start →
      s.hash (c.payload below start) = s.hash (b.payload below start) →
      c.payload below start = b.payload below start)
    (hhash : s.hash (c.payload level position) = s.hash (b.payload level position))
    {below start : Nat} (hstart : Place b.size below start)
    (hcovers : Covers level position below start) :
    c.payload below start = b.payload below start := by
  induction level generalizing position with
  | zero =>
    obtain rfl : below = 0 := Nat.le_zero.1 hcovers.below_le
    obtain rfl := hcovers.eq_of_level hplace.dvd hstart.dvd
    exact hcollision _ _ hplace hcovers hhash
  | succ level ih =>
    -- Equal hashes give equal tables here, and the tables name the hashes one level down.
    have hpayload := hcollision _ _ hplace (covers_self _ _) hhash
    rcases Nat.lt_or_ge level below with hlt | hle
    · obtain rfl : below = level + 1 := Nat.le_antisymm hcovers.below_le hlt
      obtain rfl := hcovers.eq_of_level hplace.dvd hstart.dvd
      exact hpayload
    · obtain ⟨i, hi, hchild⟩ := hcovers.child hsize hplace hstart hle
      have hlevel := hplace.level_lt hsize
      have hfanout := ((lt_childCount_iff hsize hlevel).1 hi).1
      have hnext := hc (hsame ▸ hplace) (hsame ▸ hi)
      rw [table_congr hsame hpayload, hb hplace hi, coverage_eq_span hlevel] at hnext
      exact ih (hplace.child hsize hi)
        (fun below start hstart hbelow => hcollision below start hstart (hbelow.of_child hfanout))
        (Option.some.inj hnext).symm hchild

/-- Two trees that are keyed alike are the same, unless payloads of one place collide. -/
theorem Keyed.payload_eq {key : Digest} (hsize : b.size ≤ maxSize) (hsame : c.size = b.size)
    (hb : b.Keyed s key) (hc : c.Keyed s key)
    (hcollision : ∀ level position, Place b.size level position →
      s.hash (c.payload level position) = s.hash (b.payload level position) →
      c.payload level position = b.payload level position)
    (hplace : Place b.size level position) : c.payload level position = b.payload level position := by
  have hhash : s.hash (c.payload (treeDepth b.size) 0) = s.hash (b.payload (treeDepth b.size) 0) :=
    calc s.hash (c.payload (treeDepth b.size) 0) = key := hsame ▸ hc.root
      _ = s.hash (b.payload (treeDepth b.size) 0) := hb.root.symm
  exact hb.linked.payload_eq hsize hsame hc.linked (place_root b.size)
    (fun below start hstart _ => hcollision below start hstart) hhash hplace (covers_root hplace)

theorem Summed.of_payload_eq {top : Option UInt32} (hsize : b.size ≤ maxSize)
    (hsame : c.size = b.size) (h : b.Summed s top)
    (heq : ∀ level position, Place b.size level position →
      c.payload level position = b.payload level position) : c.Summed s top where
  root := by
    rw [hsame, heq _ _ (place_root b.size)]
    exact h.root
  inner {level position} hplace := by
    rw [hsame] at hplace
    rw [table_congr hsame (heq _ _ hplace), h.inner hplace, childSums, childSums, hsame]
    congr 1
    refine List.map_congr_left fun i hi => ?_
    rw [coverage_eq_span (hplace.level_lt hsize),
      heq _ _ (hplace.child hsize (List.mem_range.1 hi))]

/-! ### Blocks that become known one by one -/

def put (b : Blocks) (level position : Nat) (data : Block) : Blocks :=
  ⟨b.size, Function.update b.block level (Function.update (b.block level) position data)⟩

@[simp]
theorem size_put (b : Blocks) (level position : Nat) (data : Block) :
    (b.put level position data).size = b.size := rfl

@[simp]
theorem block_put_self (b : Blocks) (level position : Nat) (data : Block) :
    (b.put level position data).block level position = data := by
  simp [put]

theorem block_put_of_ne {level' position' : Nat} (data : Block)
    (h : (level', position') ≠ (level, position)) :
    (b.put level position data).block level' position' = b.block level' position' := by
  by_cases hlevel : level' = level
  · subst hlevel
    have hne : position' ≠ position := fun heq => h (by rw [heq])
    simp [put, hne]
  · simp [put, hlevel]

theorem payload_put_of_ne {level' position' : Nat} (data : Block)
    (h : (level', position') ≠ (level, position)) :
    (b.put level position data).payload level' position' = b.payload level' position' := by
  rw [payload, payload, block_put_of_ne data h, size_put]

theorem table_put_of_ne {level' position' : Nat} (data : Block)
    (h : (level', position') ≠ (level, position)) :
    (b.put level position data).table level' position' = b.table level' position' := by
  rw [table, table, block_put_of_ne data h, size_put]

theorem childSums_put_of_ne {level' position' : Nat} (data : Block)
    (h : ∀ i < childCount b.size position' (level' + 1),
      (level', position' + i * coverage level') ≠ (level, position)) :
    (b.put level position data).childSums s level' position' = b.childSums s level' position' := by
  refine List.map_congr_left fun i hi => ?_
  rw [payload_put_of_ne data (h i (List.mem_range.1 hi))]

/-- What was known stays known, and stays as it was. -/
structure Extended (b : Blocks) (known known' : Set (Nat × Nat)) (c : Blocks) : Prop where
  size : c.size = b.size
  subset : known ⊆ known'
  block : ∀ {level position}, (level, position) ∈ known →
    c.block level position = b.block level position

/-- As far as the blocks above are known, this is the key that they name for the place. -/
structure Names (key : Digest) (known : Set (Nat × Nat)) (b : Blocks) (level position : Nat)
    (k : Digest) : Prop where
  root : level = treeDepth b.size → k = key
  child : ∀ {above i}, Place b.size (level + 1) above → i < childCount b.size above (level + 1) →
    position = above + i * coverage level → (level + 1, above) ∈ known →
    ((b.table (level + 1) above).chks[i]?).map Chk.key = some k

/-- The known blocks have the keys named for them, and the right checksum where the children are
known too. -/
structure Vouched (s : Suite) (key : Digest) (top : Option UInt32) (known : Set (Nat × Nat))
    (b : Blocks) : Prop where
  keyed : ∀ {level position}, Place b.size level position → (level, position) ∈ known →
    b.Names key known level position (s.hash (b.payload level position))
  root : (treeDepth b.size, 0) ∈ known →
    ∀ crc, top = some crc → s.checksum (b.payload (treeDepth b.size) 0) = crc
  inner : ∀ {level position}, Place b.size (level + 1) position → (level + 1, position) ∈ known →
    (∀ i < childCount b.size position (level + 1), (level, position + i * coverage level) ∈ known) →
    (b.table (level + 1) position).crc = s.chain (b.childSums s level position)

section Vouched

variable {key k : Digest} {top : Option UInt32} {known known' known'' : Set (Nat × Nat)}

theorem Extended.refl (b : Blocks) (known : Set (Nat × Nat)) : b.Extended known known b :=
  ⟨rfl, subset_rfl, fun _ => rfl⟩

theorem Extended.trans {d : Blocks} (h : b.Extended known known' c)
    (h' : c.Extended known' known'' d) : b.Extended known known'' d where
  size := h'.size.trans h.size
  subset := h.subset.trans h'.subset
  block hmem := (h'.block (h.subset hmem)).trans (h.block hmem)

theorem Extended.put (hfresh : (level, position) ∉ known) (data : Block) :
    b.Extended known (insert (level, position) known) (b.put level position data) where
  size := rfl
  subset := Set.subset_insert _ _
  block hmem := block_put_of_ne data (ne_of_mem_of_not_mem hmem hfresh)

theorem Extended.table (h : b.Extended known known' c) (hmem : (level, position) ∈ known) :
    c.table level position = b.table level position := by
  rw [Blocks.table, Blocks.table, h.size, h.block hmem]

theorem Names.put {level' position' : Nat} (h : b.Names key known level' position' k)
    (hsize : b.size ≤ maxSize)
    (hnot : level' < level → ¬ Covers level position level' position') (data : Block) :
    (b.put level position data).Names key (insert (level, position) known) level' position' k where
  root := h.root
  child {above i} hplace hi heq hmem := by
    by_cases hself : (level' + 1, above) = (level, position)
    · obtain ⟨rfl, rfl⟩ := Prod.mk.inj hself
      have hlevel := hplace.level_lt hsize
      rw [coverage_eq_span hlevel] at heq
      refine absurd ?_ (hnot (Nat.lt_succ_self level'))
      rw [heq]
      exact (covers_self _ _).of_child ((lt_childCount_iff hsize hlevel).1 hi).1
    · rw [table_put_of_ne data hself]
      exact h.child hplace hi heq (hmem.resolve_left hself)

/-- A block may become known if it has the key named for it, no block below it is known, and no
checksum stands against it. -/
theorem Vouched.put (h : b.Vouched s key top known) (hsize : b.size ≤ maxSize)
    (hbelow : ∀ below start, Place b.size below start → Covers level position below start →
      (below, start) ∉ known)
    (hkey : b.Names key known level position
      (s.hash (data.toList.take (nodeLength b.size level position))))
    (htop : level = treeDepth b.size → ∀ crc, top = some crc →
      s.checksum (data.toList.take (nodeLength b.size level position)) = crc)
    (hsums : ∀ {above i}, Place b.size (level + 1) above → i < childCount b.size above (level + 1) →
      position = above + i * coverage level → (level + 1, above) ∈ known →
      (∀ j < childCount b.size above (level + 1),
        (level, above + j * coverage level) ∈ insert (level, position) known) →
      (b.table (level + 1) above).crc =
        s.chain ((b.put level position data).childSums s level above)) :
    (b.put level position data).Vouched s key top (insert (level, position) known) where
  keyed {level' position'} hplace hmem := by
    by_cases hself : (level', position') = (level, position)
    · obtain ⟨rfl, rfl⟩ := Prod.mk.inj hself
      rw [payload, block_put_self]
      exact hkey.put hsize (fun hlt => absurd hlt (Nat.lt_irrefl _)) data
    · rw [payload_put_of_ne data hself]
      have hknown := hmem.resolve_left hself
      exact (h.keyed hplace hknown).put hsize
        (fun _ hcovers => hbelow level' position' hplace hcovers hknown) data
  root hmem := by
    by_cases hself : (treeDepth b.size, 0) = (level, position)
    · obtain ⟨rfl, rfl⟩ := Prod.mk.inj hself
      rw [payload, size_put, block_put_self]
      exact htop rfl
    · rw [size_put, payload_put_of_ne data hself]
      exact h.root (hmem.resolve_left hself)
  inner {level' position'} hplace hmem hall := by
    rw [size_put] at hplace hall
    have hlevel := hplace.level_lt hsize
    by_cases hself : (level' + 1, position') = (level, position)
    · obtain ⟨rfl, rfl⟩ := Prod.mk.inj hself
      have hfirst : 0 < childCount b.size position' (level' + 1) :=
        (lt_childCount_iff hsize hlevel).2 ⟨by decide, by simpa using hplace.lt_size⟩
      have hchild := (hall 0 hfirst).resolve_left fun heq =>
        absurd (Prod.mk.inj heq).1 (Nat.ne_of_lt (Nat.lt_succ_self level'))
      rw [coverage_eq_span hlevel] at hchild
      exact absurd hchild (hbelow _ _ (hplace.child hsize hfirst)
        ((covers_self _ _).of_child (by decide)))
    · have hknown := hmem.resolve_left hself
      rw [table_put_of_ne data hself]
      by_cases hparent : ∃ i < childCount b.size position' (level' + 1),
          (level', position' + i * coverage level') = (level, position)
      · obtain ⟨i, hi, heq⟩ := hparent
        obtain ⟨rfl, rfl⟩ := Prod.mk.inj heq
        exact hsums hplace hi rfl hknown hall
      · push Not at hparent
        rw [childSums_put_of_ne data hparent]
        exact h.inner hplace hknown fun i hi => (hall i hi).resolve_left (hparent i hi)

theorem Vouched.keyed_of_all (h : b.Vouched s key top known) (hsize : b.size ≤ maxSize)
    (hall : ∀ level position, Place b.size level position → (level, position) ∈ known) :
    b.Keyed s key where
  root := (h.keyed (place_root b.size) (hall _ _ (place_root b.size))).root rfl
  linked level position i hplace hi := by
    have hchild := hplace.child hsize hi
    rw [← coverage_eq_span (hplace.level_lt hsize)] at hchild
    exact (h.keyed hchild (hall _ _ hchild)).child hplace hi rfl (hall _ _ hplace)

theorem Vouched.summed_of_all (h : b.Vouched s key top known) (hsize : b.size ≤ maxSize)
    (hall : ∀ level position, Place b.size level position → (level, position) ∈ known) :
    b.Summed s top where
  root := h.root (hall _ _ (place_root b.size))
  inner {level position} hplace := by
    refine h.inner hplace (hall _ _ hplace) fun i hi => hall _ _ ?_
    rw [coverage_eq_span (hplace.level_lt hsize)]
    exact hplace.child hsize hi

end Vouched

end Blocks

end ContentTree

import Mathlib.Data.Finset.Card
import Mathlib.Data.Finset.Prod
import ContentTree.Proofs.Tree.Arrangement
import ContentTree.Proofs.Words

/-!
# Trees with all their nodes

The nodes of a tree are created on demand, the children of one node at a time. In whatever order that
is done, it comes to an end, and the leaves that are then there take the file apart from its first
byte to its last.
-/

namespace ContentTree

namespace Tree

/-- The trees over a file of `size` bytes that creating children leads to. -/
inductive Expanded (size : Nat) : Tree → Prop
  | new : Expanded size (Tree.new size)
  | allocateChildren {t : Tree} (h : Expanded size t) (id : NodeId) :
      Expanded size (t.allocateChildren id).2

/-- Every inner node has its children. -/
def Full (t : Tree) : Prop :=
  ∀ {id : Nat} {n}, t.get? id = some n → n.isInner → n.slots?.isSome

/-- The leaves below a node in slot order. -/
def leavesBelow : Nat → Tree → NodeId → List Node
  | levels, t, id =>
    match t.get? id with
    | none => []
    | some n =>
      if n.isInner then
        match levels with
        | 0 => []
        | levels + 1 => n.childIds.flatMap (leavesBelow levels t)
      else [n]

def leaves (t : Tree) : List Node :=
  (t.root.map (leavesBelow (treeDepth t.fileSize) t)).getD []

/-- One after the other, the nodes take up the bytes from `start` to `stop`. -/
def Tiles : Nat → Nat → List Node → Prop
  | start, stop, [] => start = stop
  | start, stop, n :: ns => n.position = start ∧ Tiles (start + n.length) stop ns

/-- The leaves are a partition of the file, in order. -/
structure Partitioned (size : Nat) (t : Tree) : Prop where
  tiles : Tiles 0 size t.leaves
  mem_leaves : ∀ n, n ∈ t.leaves ↔ ∃ id : Nat, t.get? id = some n ∧ ¬ n.isInner
  length_pos : 0 < size → ∀ n ∈ t.leaves, 0 < n.length

/-- Inner nodes have the right number of children, each found again by where it starts. -/
structure Branched (t : Tree) : Prop where
  childCount : ∀ {id : Nat} {n}, t.get? id = some n → n.isInner →
    1 ≤ n.childCount ∧ n.childCount ≤ 25 ∧ n.length ≤ 1024
  slots : ∀ {id : Nat} {n}, t.get? id = some n → n.slots?.isSome → ∀ slot,
    slot < n.childCount ↔ ∃ c, n.child? slot = some c
  slotOf : ∀ {id : Nat} {n slot c}, t.get? id = some n → n.child? slot = some c →
    ∃ m, t.get? c = some m ∧ m.parent = some id ∧ n.slotOf? m.position = some slot

/-- Every number that creating the nodes has worked out is what the operations on words give, none of
them running over. -/
structure InWords (size : UInt64) (t : Tree) : Prop where
  length : ∀ {id : Nat} {n}, t.get? id = some n →
    Word.Gives (Word.nodeLength? size (UInt64.ofNat n.position) n.depth) n.length
  childCount : ∀ {id : Nat} {n}, t.get? id = some n → n.isInner →
    Word.Gives (Word.childCount? size (UInt64.ofNat n.position) n.depth) n.childCount
  start : ∀ {id : Nat} {n slot c m}, t.get? id = some n → n.child? slot = some c →
    t.get? c = some m →
    Word.Gives (Word.childStart? (UInt64.ofNat n.position) n.depth (UInt64.ofNat slot)) m.position
  next : ∀ id : Nat, t.contains id → Word.Gives (Word.add? (UInt64.ofNat id) 1) (id + 1)

variable {t : Tree} {id size : Nat} {n : Node}

theorem tiles_append {start mid stop : Nat} {ns ms : List Node} (h : Tiles start mid ns)
    (h' : Tiles mid stop ms) : Tiles start stop (ns ++ ms) := by
  induction ns generalizing start with
  | nil =>
    obtain rfl : start = mid := h
    exact h'
  | cons n ns ih => exact ⟨h.1, ih h.2⟩

/-! ### Nothing is freed -/

/-- No number is without its node and no slot is empty. -/
structure Whole (t : Tree) : Prop where
  sound : t.Sound
  live : ∀ k < t.nodes.size, ∃ n, t.get? k = some n
  slots : ∀ {id : Nat} {n slots}, t.get? id = some n → n.slots? = some slots →
    ∃ base, slots = (List.range' base n.childCount).map some

theorem whole_new (hsize : size ≤ maxSize) : (Tree.new size).Whole where
  sound := sound_new hsize
  live k hk := by
    obtain rfl : k = 0 := Nat.lt_one_iff.1 hk
    exact ⟨_, rfl⟩
  slots {id n slots} hn hslots := by
    obtain rfl : id = 0 := Nat.lt_one_iff.1 (lt_size_of_get? hn)
    obtain rfl := Option.some.inj hn
    rw [Node.slots?_new] at hslots
    cases hslots

theorem Whole.allocateChildren (h : t.Whole) (id : Nat) : (t.allocateChildren id).2.Whole := by
  obtain hsame | ⟨n, i, hn, hi, hslots, hunfold⟩ := h.sound.allocateChildren_cases id
  · rw [hsame]
    exact h
  have honward : Onward anything t (t.allocateChildren id).2 := h.sound.onward_allocateChildren id
  refine ⟨honward.sound, fun k hk => ?_, fun {k b slots} hb hs => ?_⟩
  · rw [hunfold.size] at hk
    rw [hunfold.get?]
    split
    · exact ⟨_, rfl⟩
    · split
      · exact ⟨_, rfl⟩
      · exact h.live k (by omega)
  · obtain ⟨-, rfl⟩ | ⟨j, -, -, rfl⟩ | ⟨-, hb⟩ := hunfold.back hb
    · exact ⟨t.nodes.size, (Option.some.inj hs).symm⟩
    · rw [(Download.like_newChild id n i j).slots?, Node.slots?_new] at hs
      cases hs
    · exact h.slots hb hs

theorem Expanded.whole (hsize : size ≤ maxSize) (h : Expanded size t) : t.Whole := by
  induction h with
  | new => exact whole_new hsize
  | allocateChildren _ id ih => exact ih.allocateChildren id

theorem Expanded.fileSize (hsize : size ≤ maxSize) (h : Expanded size t) : t.fileSize = size := by
  induction h with
  | new => rfl
  | @allocateChildren t h id ih =>
    have honward : Onward anything t (t.allocateChildren id).2 :=
      (h.whole hsize).sound.onward_allocateChildren id
    rw [honward.fileSize, ih]

/-! ### Creating children comes to an end -/

theorem Whole.childCount_bounds (h : t.Whole) (hn : t.get? id = some n) (hinner : n.isInner) :
    1 ≤ n.childCount ∧ n.childCount ≤ 25 ∧ n.length ≤ 1024 := by
  have hshape := h.sound.shaped hn
  have hplace := hshape.place
  obtain ⟨i, hi⟩ := Option.isSome_iff_exists.1 hinner
  obtain ⟨level, hlevel⟩ : ∃ level, n.depth = level + 1 :=
    Nat.exists_eq_add_one.2 (hshape.isSome_inner?.1 hinner)
  rw [hshape.childCount_eq hi, hshape.length]
  refine ⟨?_, ?_, nodeLength_le h.sound.fileSize_le hplace⟩
  · rw [hlevel] at hplace ⊢
    refine (lt_childCount_iff h.sound.fileSize_le (hplace.level_lt h.sound.fileSize_le)).2 ⟨by decide, ?_⟩
    simpa using hplace.lt_size
  · rw [hlevel] at hplace ⊢
    exact childCount_le h.sound.fileSize_le (hplace.level_lt h.sound.fileSize_le)

/-- There are no more nodes than places, and at most 13 levels of these. -/
theorem Whole.size_le (h : t.Whole) : t.nodes.size ≤ 13 * (t.fileSize / 1024 + 1) := by
  choose node hnode using h.live
  let place : Nat → Nat × Nat := fun k =>
    if hk : k < t.nodes.size then ((node k hk).depth, (node k hk).position / 1024) else (0, 0)
  have hmaps : ∀ k ∈ Finset.range t.nodes.size,
      place k ∈ Finset.range 13 ×ˢ Finset.range (t.fileSize / 1024 + 1) := by
    intro k hk
    rw [Finset.mem_range] at hk
    have hplace := (h.sound.shaped (hnode k hk)).place
    have hdepth := hplace.level_le.trans (treeDepth_le_twelve h.sound.fileSize_le)
    have hposition : (node k hk).position / 1024 ≤ t.fileSize / 1024 := by
      refine Nat.div_le_div_right ?_
      rcases hplace.start with hlt | hzero <;> omega
    simp only [place, dif_pos hk, Finset.mem_product, Finset.mem_range]
    omega
  have hinj : Set.InjOn place (Finset.range t.nodes.size) := by
    intro k hk j hj heq
    rw [Finset.mem_coe, Finset.mem_range] at hk hj
    simp only [place, dif_pos hk, dif_pos hj, Prod.mk.injEq] at heq
    have hdvd : ∀ (k : Nat) (hk : k < t.nodes.size), 1024 ∣ (node k hk).position := fun k hk =>
      (Dvd.intro _ rfl).trans (h.sound.shaped (hnode k hk)).place.dvd
    exact h.sound.unique (hnode k hk) (hnode j hj) heq.1
      ((Nat.div_left_inj (hdvd k hk) (hdvd j hj)).1 heq.2)
  have hcard := Finset.card_le_card_of_injOn place hmaps hinj
  simpa using hcard

theorem Whole.size_lt (h : t.Whole) : t.nodes.size < maxSize := by
  have hbound : 13 * (maxSize / 1024 + 1) < maxSize := by decide
  have hsize := h.size_le
  have hfile : t.fileSize / 1024 ≤ maxSize / 1024 := Nat.div_le_div_right h.sound.fileSize_le
  omega

/-- However the tree has been expanded so far, creating the children that are missing ends. -/
theorem Expanded.exists_full (hsize : size ≤ maxSize) (h : Expanded size t) :
    ∃ t', Expanded size t' ∧ t'.Full := by
  induction hgap : maxSize - t.nodes.size using Nat.strong_induction_on generalizing t with
  | h gap ih =>
    by_cases hfull : t.Full
    · exact ⟨t, h, hfull⟩
    have hwhole := h.whole hsize
    simp only [Full, not_forall] at hfull
    obtain ⟨id, n, hn, hinner, hslots⟩ := hfull
    have hgrows : t.nodes.size < (t.allocateChildren id).2.nodes.size := by
      obtain ⟨i, hi⟩ := Option.isSome_iff_exists.1 hinner
      have hnone : i.children = none := by simpa [Node.slots?, hi] using hslots
      have hcount := Node.childCount_of_inner hi
      obtain ⟨t', hrun, -, -, -, hsize'⟩ := allocateChildren_spec hn hi hnone
      have hpos := (hwhole.childCount_bounds hn hinner).1
      rw [hrun, hsize']
      omega
    have hlt := (hwhole.allocateChildren id).size_lt
    exact ih _ (by omega) (h.allocateChildren id) rfl

/-! ### The leaves of a full tree -/

theorem leavesBelow_leaf (hn : t.get? id = some n) (hleaf : ¬ n.isInner) (levels : Nat) :
    leavesBelow levels t id = [n] := by
  unfold leavesBelow
  simp only [hn, hleaf, Bool.false_eq_true, if_false]

theorem leavesBelow_inner (hn : t.get? id = some n) (hinner : n.isInner) (levels : Nat) :
    leavesBelow (levels + 1) t id = n.childIds.flatMap (leavesBelow levels t) := by
  rw [leavesBelow]
  simp only [hn, hinner, if_true]

theorem Whole.childIds_eq (h : t.Whole) (hn : t.get? id = some n) (hslots : n.slots?.isSome) :
    ∃ base, n.childIds = List.range' base n.childCount ∧
      ∀ slot < n.childCount, n.child? slot = some (base + slot) := by
  obtain ⟨slots, hslots⟩ := Option.isSome_iff_exists.1 hslots
  obtain ⟨base, rfl⟩ := h.slots hn hslots
  refine ⟨base, ?_, fun slot hslot => ?_⟩
  · rw [Node.childIds, hslots, Option.getD_some, List.filterMap_map, Function.id_comp,
      List.filterMap_some]
  · rw [Node.child?, hslots, Option.getD_some, List.getElem?_map, List.getElem?_range' hslot]
    simp

/-- The last slot of a node ends with the file or with what the node covers. -/
theorem Whole.end_of_slots (h : t.Whole) {level : Nat} (hn : t.get? id = some n)
    (hlevel : n.depth = level + 1) :
    min t.fileSize (n.position + n.childCount * span level) =
      min t.fileSize (n.position + span (level + 1)) := by
  have hshape := h.sound.shaped hn
  have hinner : n.isInner := hshape.isSome_inner?.2 (by omega)
  have hplace := hshape.place
  rw [hlevel] at hplace
  obtain ⟨i, hi⟩ := Option.isSome_iff_exists.1 hinner
  have hcount := hshape.childCount_eq hi
  rw [hlevel] at hcount
  have hend : ¬ (n.childCount < fanout ∧ n.position + n.childCount * span level < t.fileSize) := by
    rw [← lt_childCount_iff h.sound.fileSize_le (hplace.level_lt h.sound.fileSize_le), ← hcount]
    exact Nat.lt_irrefl _
  have hle := (h.childCount_bounds hn hinner).2.1
  rw [span_succ]
  by_cases heq : n.childCount = fanout
  · rw [heq]
  · have hlt : n.childCount < fanout := Nat.lt_of_le_of_ne hle heq
    have hgrow : n.childCount * span level ≤ fanout * span level := Nat.mul_le_mul_right _ hle
    have hout : t.fileSize ≤ n.position + n.childCount * span level := by
      by_contra hin
      exact hend ⟨hlt, by omega⟩
    omega

/-- The leaves below a node take up what it covers. -/
theorem Whole.tiles (h : t.Whole) (hfull : t.Full) {level : Nat} (hn : t.get? id = some n)
    (hlevel : n.depth = level) :
    Tiles n.position (min t.fileSize (n.position + span level)) (leavesBelow level t id) := by
  induction level generalizing id n with
  | zero =>
    have hshape := h.sound.shaped hn
    have hleaf : ¬ n.isInner := by
      intro hinner
      have hpos := hshape.isSome_inner?.1 hinner
      omega
    rw [leavesBelow_leaf hn hleaf]
    refine ⟨rfl, ?_⟩
    rw [hshape.length, hlevel, nodeLength, if_pos rfl]
    change n.position + min (t.fileSize - n.position) 1024 = min t.fileSize (n.position + 1024)
    rcases hshape.place.start with hlt | hzero <;> omega
  | succ level ih =>
    have hshape := h.sound.shaped hn
    have hinner : n.isInner := hshape.isSome_inner?.2 (by omega)
    have hplace := hshape.place
    rw [hlevel] at hplace
    have hcover := coverage_eq_span (hplace.level_lt h.sound.fileSize_le)
    obtain ⟨i, hi⟩ := Option.isSome_iff_exists.1 hinner
    have hcount := hshape.childCount_eq hi
    rw [hlevel] at hcount
    obtain ⟨base, hids, hchild⟩ := h.childIds_eq hn (hfull hn hinner)
    -- The first children take up what the slots before the next one stand for.
    have hfirst : ∀ k ≤ n.childCount, Tiles n.position (min t.fileSize (n.position + k * span level))
        ((List.range' base k).flatMap (leavesBelow level t)) := by
      intro k hk
      induction k with
      | zero =>
        have hlt := hplace.lt_size
        have hstart : n.position = min t.fileSize (n.position + 0 * span level) := by omega
        exact hstart
      | succ k ihk =>
        obtain ⟨m, hm, -, hdepth, hposition⟩ := h.sound.down hn (hchild k (by omega))
        have hlevelm : m.depth = level := by omega
        have hlt := ((lt_childCount_iff h.sound.fileSize_le (hplace.level_lt h.sound.fileSize_le)).1
          (hcount ▸ Nat.lt_of_succ_le hk)).2
        have htiles := ih hm hlevelm
        rw [hposition, hlevelm, hcover] at htiles
        have hbefore := ihk (by omega)
        rw [Nat.min_eq_right hlt.le] at hbefore
        rw [List.range'_1_concat, List.flatMap_append, List.flatMap_singleton, Nat.succ_mul,
          ← Nat.add_assoc]
        exact tiles_append hbefore htiles
    rw [leavesBelow_inner hn hinner, hids, ← h.end_of_slots hn hlevel]
    exact hfirst n.childCount le_rfl

theorem Whole.mem_leavesBelow (h : t.Whole) {m : Node} {level : Nat} (hn : t.get? id = some n)
    (hlevel : n.depth = level) :
    m ∈ leavesBelow level t id ↔
      ∃ k : Nat, t.get? k = some m ∧ ¬ m.isInner ∧ t.Below id k := by
  induction level generalizing id n with
  | zero =>
    have hleaf : ¬ n.isInner := by
      intro hinner
      have hpos := (h.sound.shaped hn).isSome_inner?.1 hinner
      omega
    rw [leavesBelow_leaf hn hleaf, List.mem_singleton]
    constructor
    · rintro rfl
      exact ⟨id, hn, hleaf, .refl⟩
    · rintro ⟨k, hm, -, hbelow⟩
      obtain rfl | ⟨c, ⟨a, ha, hc⟩, -⟩ := hbelow.cases_head
      · exact Option.some.inj (hm.symm.trans hn)
      · obtain rfl := Option.some.inj (hn.symm.trans ha)
        rw [Node.childIds_of_inner?_eq_none (by simpa [Node.isInner] using hleaf)] at hc
        cases hc
  | succ level ih =>
    have hinner : n.isInner := (h.sound.shaped hn).isSome_inner?.2 (by omega)
    have hchild : ∀ {c : Nat}, c ∈ n.childIds → ∃ x, t.get? c = some x ∧ x.depth = level := by
      intro c hc
      obtain ⟨slot, hslot⟩ := Node.mem_childIds.1 hc
      obtain ⟨x, hx, -, hdepth, -⟩ := h.sound.down hn hslot
      exact ⟨x, hx, by omega⟩
    rw [leavesBelow_inner hn hinner, List.mem_flatMap]
    constructor
    · rintro ⟨c, hc, hm⟩
      obtain ⟨x, hx, hdepth⟩ := hchild hc
      obtain ⟨k, hk, hleaf, hbelow⟩ := (ih hx hdepth).1 hm
      exact ⟨k, hk, hleaf, .head ⟨n, hn, hc⟩ hbelow⟩
    · rintro ⟨k, hk, hleaf, hbelow⟩
      obtain rfl | ⟨c, ⟨a, ha, hc⟩, hbelow⟩ := hbelow.cases_head
      · obtain rfl := Option.some.inj (hk.symm.trans hn)
        exact absurd hinner hleaf
      · obtain rfl := Option.some.inj (hn.symm.trans ha)
        obtain ⟨x, hx, hdepth⟩ := hchild hc
        exact ⟨c, hc, (ih hx hdepth).2 ⟨k, hk, hleaf, hbelow⟩⟩

theorem Whole.partitioned (h : t.Whole) (hfull : t.Full) (hroot : t.root ≠ none) :
    Partitioned t.fileSize t := by
  obtain ⟨root, hroot⟩ := Option.ne_none_iff_exists'.1 hroot
  obtain ⟨n, hn, hdepth, hposition⟩ := h.sound.rooted hroot
  have hleaves : t.leaves = leavesBelow (treeDepth t.fileSize) t root := by simp [leaves, hroot]
  have hmem : ∀ m, m ∈ t.leaves ↔ ∃ id : Nat, t.get? id = some m ∧ ¬ m.isInner := by
    intro m
    rw [hleaves, h.mem_leavesBelow hn hdepth]
    constructor
    · rintro ⟨k, hk, hleaf, -⟩
      exact ⟨k, hk, hleaf⟩
    · rintro ⟨k, hk, hleaf⟩
      obtain ⟨top, htop, hbelow⟩ := h.sound.below_root hk
      obtain rfl := Option.some.inj (hroot.symm.trans htop)
      exact ⟨k, hk, hleaf, hbelow⟩
  refine ⟨?_, hmem, fun hsize m hm => ?_⟩
  · have htiles := h.tiles hfull hn hdepth
    rwa [hposition, Nat.zero_add, Nat.min_eq_left (le_span_treeDepth _), ← hleaves] at htiles
  · obtain ⟨k, hk, hleaf⟩ := (hmem m).1 hm
    have hshape := h.sound.shaped hk
    have hzero : m.depth = 0 := hshape.inner?_eq_none.1 (by simpa [Node.isInner] using hleaf)
    rw [hshape.length, hzero, nodeLength, if_pos rfl]
    change 0 < min (t.fileSize - m.position) 1024
    rcases hshape.place.start with hlt | hstart <;> omega

theorem Whole.branched (h : t.Whole) : Branched t where
  childCount hn hinner := h.childCount_bounds hn hinner
  slots {id n} hn hslots slot := by
    obtain ⟨base, -, hchild⟩ := h.childIds_eq hn hslots
    exact ⟨fun hslot => ⟨base + slot, hchild slot hslot⟩,
      fun ⟨c, hc⟩ => ((h.sound.shaped hn).lt_childCount hc).2⟩
  slotOf {id n slot c} hn hc := by
    obtain ⟨m, hm, hparent, -⟩ := h.sound.down hn hc
    exact ⟨m, hm, hparent, h.sound.slotOf? hn hc hm⟩

theorem Whole.inWords (h : t.Whole) {size : UInt64} (hsize : t.fileSize = size.toNat) :
    InWords size t := by
  have hword : ∀ {id : Nat} {n : Node}, t.get? id = some n →
      (UInt64.ofNat n.position).toNat = n.position := by
    intro id n hn
    have hmax := h.sound.fileSize_le
    refine Word.toNat_ofNat ?_
    rcases (h.sound.shaped hn).place.start with hlt | hzero <;> omega
  constructor
  case length =>
    intro id n hn
    have hshape := h.sound.shaped hn
    have hplace := hshape.place
    rw [hsize, ← hword hn] at hplace
    have hgives := Word.gives_nodeLength? hplace
    rwa [hword hn, ← hsize, ← hshape.length] at hgives
  case childCount =>
    intro id n hn hinner
    obtain ⟨i, hi⟩ := Option.isSome_iff_exists.1 hinner
    have hgives := Word.gives_childCount? size (UInt64.ofNat n.position) n.depth
    rwa [hword hn, ← hsize, ← (h.sound.shaped hn).childCount_eq hi] at hgives
  case start =>
    intro id n slot c m hn hc hm
    obtain ⟨x, hx, -, hdepth, hposition⟩ := h.sound.down hn hc
    obtain rfl := Option.some.inj (hm.symm.trans hx)
    have hstart : m.position = (UInt64.ofNat n.position).toNat + slot * coverage (n.depth - 1) := by
      rw [hword hn, hposition, ← hdepth, Nat.add_sub_cancel]
    have hmax : m.position ≤ maxSize := hword hm ▸ Word.toNat_le _
    rw [hstart] at hmax ⊢
    exact Word.gives_childStart? hmax
  case next =>
    intro id hid
    obtain ⟨n, hn⟩ := Option.isSome_iff_exists.1 hid
    have hlt := (lt_size_of_get? hn).trans h.size_lt
    have hid : (UInt64.ofNat id).toNat = id := Word.toNat_ofNat hlt.le
    have hgives := @Word.gives_add? (UInt64.ofNat id) 1 (by rw [hid]; exact hlt)
    rwa [hid] at hgives

theorem Expanded.root (h : Expanded size t) (hsize : size ≤ maxSize) : t.root = some 0 := by
  induction h with
  | new => rfl
  | allocateChildren h id ih =>
    obtain hsame | ⟨n, i, -, -, -, hunfold⟩ := (h.whole hsize).sound.allocateChildren_cases id
    · rw [hsame, ih]
    · rw [hunfold.root, ih]

/-- The depth is the least that reaches the size of the file. The children can all be created, with
words alone, and whichever way that is done the leaves make up the file. -/
theorem expansion (size : UInt64) :
    IsLeast {d | size.toNat ≤ 1024 * 25 ^ d} (treeDepth size.toNat) ∧
      Word.treeDepth size = treeDepth size.toNat ∧
      (∃ t, Expanded size.toNat t ∧ t.Full) ∧
      ∀ t, Expanded size.toNat t →
        t.Branched ∧ t.InWords size ∧ (t.Full → t.Partitioned size.toNat) := by
  have hmax := Word.toNat_le size
  refine ⟨Word.treeDepth_eq size ▸ Word.isLeast_treeDepth size, Word.treeDepth_eq size,
    Expanded.new.exists_full hmax, fun t h => ?_⟩
  have hwhole := h.whole hmax
  have hfile := h.fileSize hmax
  refine ⟨hwhole.branched, hwhole.inWords hfile, fun hfull => ?_⟩
  rw [← hfile]
  exact hwhole.partitioned hfull (by rw [h.root hmax]; exact Option.some_ne_none 0)

/-- One byte more than a block: a root above a full leaf and one of a single byte. -/
theorem expansion_of_two_leaves :
    ∃ t, Expanded 1025 t ∧ t.Full ∧ t.Branched ∧ t.InWords 1025 ∧ t.Partitioned 1025 ∧
      t.leaves.map (fun n => (n.position, n.length)) = [(0, 1024), (1024, 1)] := by
  have hexpanded : Expanded (UInt64.toNat 1025) ((Tree.new 1025).allocateChildren 0).2 :=
    Expanded.new.allocateChildren 0
  have hfull : ((Tree.new 1025).allocateChildren 0).2.Full := by
    intro id n hn hinner
    have hlt : id < 3 := lt_size_of_get? hn
    obtain rfl | rfl | rfl : id = 0 ∨ id = 1 ∨ id = 2 := by omega
    all_goals
      obtain rfl := Option.some.inj hn
      revert hinner
      decide
  obtain ⟨hbranched, hwords, hparts⟩ := (expansion 1025).2.2.2 _ hexpanded
  exact ⟨_, hexpanded, hfull, hbranched, hwords, hparts hfull, by decide⟩

end Tree

end ContentTree

import Mathlib.Data.Set.Card
import ContentTree.Proofs.Opening
import ContentTree.Proofs.Tree.Expansion

/-!
# Nodes in the files of their levels

The block of a node is in the file of its level, behind those of the nodes to the left of it, each of
which has the room of a full block. So no two nodes of a tree meet in a file, and writing the payloads
of nodes in any order leaves each node with the last of its own.
-/

namespace ContentTree

namespace Word

/-- Where a block starts in the file of its level. -/
def levelOffset? (level : Nat) (position : UInt64) : Option UInt64 :=
  (pow? 25 level).map (position / ·)

theorem gives_levelOffset? {level : Nat} (h : level ≤ 12) (position : UInt64) :
    Gives (levelOffset? level position) (levelOffset level position.toNat) := by
  have hpow : Nat.pow (25 : UInt64).toNat level ≤ maxSize :=
    calc
      25 ^ level ≤ 25 ^ 12 := Nat.pow_le_pow_right (by decide) h
      _ ≤ maxSize := by decide
  obtain ⟨power, hgives, hnat⟩ := (gives_ofNat? hpow).exists_eq_some
  have hquot : (position / power).toNat = levelOffset level position.toNat := by
    rw [UInt64.toNat_div, hnat]
    rfl
  rw [levelOffset?, pow?, hgives, ← hquot]
  exact gives_some _

end Word

namespace Tree

variable {t : Tree} {id : Nat} {n : Node} {size : Nat}

/-! ### Where blocks start -/

/-- The nodes of its level to the left of a node. -/
def before (t : Tree) (n : Node) : Set Nat :=
  {k | ∃ m, t.get? k = some m ∧ m.depth = n.depth ∧ m.position < n.position}

/-- No two blocks of a level meet, those of level 0 are in the file, and when all nodes are there
each has its number within the level. -/
structure Layered (size : UInt64) (t : Tree) : Prop where
  apart : ∀ {id k : Nat} {n m}, t.get? id = some n → t.get? k = some m → id ≠ k → n.depth = m.depth →
    levelOffset n.depth n.position + n.length ≤ levelOffset m.depth m.position ∨
      levelOffset m.depth m.position + m.length ≤ levelOffset n.depth n.position
  within : ∀ {id : Nat} {n}, t.get? id = some n → ¬ n.isInner →
    levelOffset n.depth n.position + n.length ≤ size.toNat
  numbered : t.Full → ∀ {id : Nat} {n}, t.get? id = some n →
    levelOffset n.depth n.position = 1024 * (t.before n).ncard
  inWords : ∀ {id : Nat} {n}, t.get? id = some n →
    Word.Gives (Word.levelOffset? n.depth (UInt64.ofNat n.position)) (levelOffset n.depth n.position)

theorem Sound.length_le (h : t.Sound) (hn : t.get? id = some n) : n.length ≤ leafCapacity := by
  rw [(h.shaped hn).length]
  exact nodeLength_le h.fileSize_le (h.shaped hn).place

theorem Sound.position_le (h : t.Sound) (hn : t.get? id = some n) : n.position ≤ maxSize := by
  have hsize := h.fileSize_le
  rcases (h.shaped hn).place.start with hlt | hzero <;> omega

theorem Sound.apart (h : t.Sound) {k : Nat} {m : Node} (hn : t.get? id = some n)
    (hm : t.get? k = some m) (hne : id ≠ k) (hdepth : n.depth = m.depth) :
    levelOffset n.depth n.position + n.length ≤ levelOffset m.depth m.position ∨
      levelOffset m.depth m.position + m.length ≤ levelOffset n.depth n.position := by
  have hposition : n.position ≠ m.position := fun heq => hne (h.unique hn hm hdepth heq)
  have hdvd := (h.shaped hm).place.dvd
  rw [← hdepth] at hdvd ⊢
  have hrooms := levelOffset_apart (h.shaped hn).place.dvd hdvd hposition
  have hlength := h.length_le hn
  have hlength' := h.length_le hm
  omega

theorem Sound.leaf_within (h : t.Sound) (hn : t.get? id = some n) (hleaf : ¬ n.isInner) :
    levelOffset n.depth n.position + n.length ≤ t.fileSize := by
  have hshape := h.shaped hn
  have hzero : n.depth = 0 := hshape.inner?_eq_none.1 (by simpa [Node.isInner] using hleaf)
  rw [hshape.length, hzero, nodeLength, if_pos rfl, levelOffset_zero]
  change n.position + min (t.fileSize - n.position) 1024 ≤ t.fileSize
  rcases hshape.place.start with hlt | hstart <;> omega

/-- Beyond the leaves there are positions in a file for all blocks. -/
theorem Sound.offset_lt_iff (h : t.Sound) (hn : t.get? id = some n) :
    levelOffset n.depth n.position < Handle.offsetLimit ↔ n.isInner ∨ n.position < 2 ^ 63 := by
  have hinner : n.isInner ↔ 0 < n.depth := (h.shaped hn).isSome_inner?
  cases hdepth : n.depth with
  | zero =>
    have hleaf : ¬ n.isInner := fun hinside => absurd (hinner.1 hinside) (by omega)
    rw [levelOffset_zero, or_iff_right hleaf]
    rfl
  | succ level =>
    exact iff_of_true (levelOffset_lt (h.position_le hn)) (.inl (hinner.2 (by omega)))

/-- Below a node that covers a place there is a node at this place. -/
theorem Whole.exists_of_covers (h : t.Whole) (hfull : t.Full) {level position : Nat}
    (hplace : Place t.fileSize level position) (hn : t.get? id = some n)
    (hcovers : Covers n.depth n.position level position) :
    ∃ (k : Nat) (m : Node), t.get? k = some m ∧ m.depth = level ∧ m.position = position := by
  induction hgap : n.depth - level generalizing id n with
  | zero =>
    have hlevel : n.depth = level := by
      have hle := hcovers.below_le
      omega
    have hdvd := (h.sound.shaped hn).place.dvd
    rw [hlevel] at hcovers hdvd
    exact ⟨id, n, hn, hlevel, Covers.eq_of_level hdvd hplace.dvd hcovers⟩
  | succ gap ih =>
    obtain ⟨below, hbelow⟩ : ∃ below, n.depth = below + 1 := Nat.exists_eq_add_one.2 (by omega)
    have hshape := h.sound.shaped hn
    have hplacen := hshape.place
    have hinner : n.isInner := hshape.isSome_inner?.2 (by omega)
    obtain ⟨i, hi⟩ := Option.isSome_iff_exists.1 hinner
    have hcount := hshape.childCount_eq hi
    rw [hbelow] at hplacen hcovers hcount
    -- Some child covers the place too, and in a full tree it is there to go on from.
    obtain ⟨slot, hslot, hcovers'⟩ :=
      Covers.child h.sound.fileSize_le hplacen hplace hcovers (by omega)
    obtain ⟨base, -, hchild⟩ := h.childIds_eq hn (hfull hn hinner)
    obtain ⟨m, hm, -, hdepth, hposition⟩ := h.sound.down hn (hchild slot (hcount ▸ hslot))
    have hlevelm : m.depth = below := by omega
    rw [hlevelm, coverage_eq_span (hplacen.level_lt h.sound.fileSize_le)] at hposition
    exact ih hm (by rwa [hlevelm, hposition]) (by omega)

theorem Whole.exists_of_place (h : t.Whole) (hfull : t.Full) (hroot : t.root ≠ none)
    {level position : Nat} (hplace : Place t.fileSize level position) :
    ∃ (k : Nat) (m : Node), t.get? k = some m ∧ m.depth = level ∧ m.position = position := by
  obtain ⟨root, hroot⟩ := Option.ne_none_iff_exists'.1 hroot
  obtain ⟨n, hn, hdepth, hposition⟩ := h.sound.rooted hroot
  refine h.exists_of_covers hfull hplace hn ?_
  rw [hdepth, hposition]
  exact covers_root hplace

/-- The nodes to the left are one for each span before the node. -/
theorem Whole.ncard_before (h : t.Whole) (hfull : t.Full) (hroot : t.root ≠ none)
    (hn : t.get? id = some n) : (t.before n).ncard = n.position / span n.depth := by
  let number : Nat → Nat := fun k => ((t.get? k).elim 0 Node.position) / span n.depth
  have hnumber : ∀ {k : Nat} {m : Node}, t.get? k = some m → number k = m.position / span n.depth := by
    intro k m hm
    simp only [number, hm, Option.elim_some]
  have hplace := (h.sound.shaped hn).place
  obtain ⟨count, hcount⟩ := hplace.dvd
  have hpos := span_pos n.depth
  have hinj : Set.InjOn number (t.before n) := by
    rintro k ⟨m, hm, hdepth, -⟩ j ⟨b, hb, hdepth', -⟩ heq
    have hdvd := (h.sound.shaped hm).place.dvd
    have hdvd' := (h.sound.shaped hb).place.dvd
    rw [hdepth] at hdvd
    rw [hdepth'] at hdvd'
    rw [hnumber hm, hnumber hb, Nat.div_left_inj hdvd hdvd'] at heq
    exact h.sound.unique hm hb (hdepth.trans hdepth'.symm) heq
  -- No number is missing: a place to the left is one of the tree, and the tree is full.
  have himage : number '' t.before n = Finset.range count := by
    ext i
    rw [Finset.coe_range, Set.mem_Iio]
    constructor
    · rintro ⟨k, ⟨m, hm, -, hlt⟩, rfl⟩
      rw [hnumber hm]
      exact Nat.div_lt_of_lt_mul (hcount ▸ hlt)
    · intro hi
      have hlt : span n.depth * i < n.position := by
        rw [hcount]
        exact Nat.mul_lt_mul_of_pos_left hi hpos
      have hleft : Place t.fileSize n.depth (span n.depth * i) := by
        refine ⟨hplace.level_le, Dvd.intro i rfl, .inl ?_⟩
        rcases hplace.start with hstart | hzero <;> omega
      obtain ⟨k, m, hm, hdepth, hposition⟩ := h.exists_of_place hfull hroot hleft
      refine ⟨k, ⟨m, hm, hdepth, hposition ▸ hlt⟩, ?_⟩
      rw [hnumber hm, hposition, Nat.mul_div_cancel_left i hpos]
  rw [← hinj.ncard_image, himage, Set.ncard_coe_finset, Finset.card_range, hcount,
    Nat.mul_div_cancel_left count hpos]

theorem Whole.layered (h : t.Whole) (hroot : t.root ≠ none) {size : UInt64}
    (hsize : t.fileSize = size.toNat) : Layered size t where
  apart := h.sound.apart
  within hn hleaf := hsize ▸ h.sound.leaf_within hn hleaf
  numbered hfull {id n} hn := by
    rw [levelOffset_eq (h.sound.shaped hn).place.dvd, h.ncard_before hfull hroot hn]
  inWords {id n} hn := by
    have hdepth := (h.sound.shaped hn).place.level_le.trans (treeDepth_le_twelve h.sound.fileSize_le)
    have hgives := Word.gives_levelOffset? hdepth (UInt64.ofNat n.position)
    rwa [Word.toNat_ofNat (h.sound.position_le hn)] at hgives

/-! ### Writing payloads -/

/-- Payloads of nodes of the tree, each as long as its node. -/
def Payloads (t : Tree) (ws : List (NodeId × Bytes)) : Prop :=
  ∀ w ∈ ws, ∃ n, t.get? w.1 = some n ∧ w.2.length = n.length

def writeAll (t : Tree) (s : Storage) : Disk → List (NodeId × Bytes) → Except StorageError Disk
  | d, [] => .ok d
  | d, (id, bs) :: ws =>
    match t.get? id with
    | none => t.writeAll s d ws
    | some n => (s.write d n.depth n.position bs).bind fun d => t.writeAll s d ws

/-- What the files say of a node, if its payloads were written as in `ws` since they said `x`: the last
of these, or else at least as much as before. -/
def Holds (s : Storage) (d d' : Disk) (ws : List (NodeId × Bytes)) (id : NodeId) (n : Node) : Prop :=
  match ws.reverse.lookup id with
  | some bs => s.read d' n.depth n.position n.length = .ok bs
  | none => ∀ x, s.read d n.depth n.position n.length = .ok x →
      ∃ y, s.read d' n.depth n.position n.length = .ok y ∧ x <+: y

variable {s : Storage} {d d' : Disk} {ws : List (NodeId × Bytes)}

theorem holds_nil (s : Storage) (d : Disk) (id : NodeId) (n : Node) : Holds s d d [] id n :=
  fun x hx => ⟨x, hx, List.prefix_refl x⟩

/-- One more payload before the others is what is read of its node, unless there is a later one, and
leaves the other nodes alone. -/
theorem Holds.cons (h : t.Sound) (hsize : s.size = t.fileSize) (hopen : s.Opened d) {k : Nat} {m : Node}
    {bs : Bytes} {d₁ : Disk} (hm : t.get? k = some m) (hlength : bs.length = m.length)
    (hwrite : s.write d m.depth m.position bs = .ok d₁) (hn : t.get? id = some n)
    (hrest : Holds s d₁ d' ws id n) : Holds s d d' ((k, bs) :: ws) id n := by
  have hlevel : m.depth ≤ treeDepth s.size := hsize ▸ (h.shaped hm).place.level_le
  have hlevel' : n.depth ≤ treeDepth s.size := hsize ▸ (h.shaped hn).place.level_le
  unfold Holds at hrest ⊢
  rw [List.reverse_cons, List.lookup_append]
  cases hlookup : ws.reverse.lookup id with
  | some later =>
    rw [hlookup] at hrest
    exact hrest
  | none =>
    rw [hlookup] at hrest
    by_cases hid : id = k
    · subst hid
      obtain rfl := Option.some.inj (hm.symm.trans hn)
      -- No later write is to this node, so these bytes stay, and a read gives no more than them.
      have hself := Storage.read_write_self hopen hlevel hwrite
      rw [hlength] at hself
      obtain ⟨y, hy, hstart⟩ := hrest bs hself
      obtain rfl := hstart.eq_of_length_le (hlength ▸ Storage.length_le_of_read hy)
      rw [List.lookup_cons_self]
      exact hy
    · have hkey : (id == k) = false := beq_false_of_ne hid
      have hother : [(k, bs)].lookup id = none := by
        rw [List.lookup_cons, hkey]
        rfl
      rw [hother]
      intro x hx
      have hne : ¬ (n.depth = m.depth ∧ n.position = m.position) := fun hsame =>
        hid (h.unique hn hm hsame.1 hsame.2)
      obtain ⟨x', hx', hstart⟩ := Storage.prefix_read_write hopen hlevel hwrite
        (hlength ▸ h.length_le hm) (h.length_le hn) (h.shaped hm).place.dvd
        (h.shaped hn).place.dvd hlevel' hne hx
      obtain ⟨y, hy, hstart'⟩ := hrest x' hx'
      exact ⟨y, hy, hstart.trans hstart'⟩

theorem read_writeAll (h : t.Sound) (hsize : s.size = t.fileSize) (hopen : s.Opened d)
    (hpayloads : t.Payloads ws) (hwrite : t.writeAll s d ws = .ok d') (hn : t.get? id = some n) :
    Holds s d d' ws id n := by
  induction ws generalizing d with
  | nil =>
    obtain rfl := Except.ok.inj hwrite
    exact holds_nil s d id n
  | cons w ws ih =>
    obtain ⟨k, bs⟩ := w
    obtain ⟨m, hm, hlength⟩ := hpayloads (k, bs) List.mem_cons_self
    simp only [writeAll, hm] at hwrite
    cases hfirst : s.write d m.depth m.position bs with
    | error e =>
      rw [hfirst] at hwrite
      cases hwrite
    | ok d₁ =>
      rw [hfirst] at hwrite
      have hopen' := hopen.write (hsize ▸ (h.shaped hm).place.level_le) hfirst
      have hlater := fun w hw => hpayloads w (List.mem_cons_of_mem _ hw)
      exact (ih hopen' hlater hwrite).cons h hsize hopen hm hlength hfirst hn

/-- A write goes through wherever a file has positions, and beyond the leaves that is everywhere. -/
theorem exists_writeAll_iff (h : t.Sound) (hsize : s.size = t.fileSize) (hopen : s.Opened d)
    (hpayloads : t.Payloads ws) : (∃ d', t.writeAll s d ws = .ok d') ↔
      ∀ w ∈ ws, ∀ n, t.get? w.1 = some n → n.isInner ∨ n.position < 2 ^ 63 := by
  induction ws generalizing d with
  | nil => exact iff_of_true ⟨d, rfl⟩ nofun
  | cons w ws ih =>
    obtain ⟨k, bs⟩ := w
    obtain ⟨m, hm, hlength⟩ := hpayloads (k, bs) List.mem_cons_self
    have hplace := (h.shaped hm).place
    have hlevel : m.depth ≤ treeDepth s.size := hsize ▸ hplace.level_le
    have hreach : levelOffset m.depth m.position < Handle.offsetLimit ↔
        m.isInner ∨ m.position < 2 ^ 63 := h.offset_lt_iff hm
    simp only [List.forall_mem_cons, hm, Option.some.injEq, forall_eq', ← hreach, writeAll]
    cases hfirst : s.write d m.depth m.position bs with
    | error e =>
      obtain ⟨object, hobject, -⟩ := hopen.level _ hlevel
      refine iff_of_false nofun fun hall => ?_
      rw [Storage.write_of_isLevel hobject hall.1] at hfirst
      cases hfirst
    | ok d₁ =>
      obtain ⟨object, -, -, hoffset, -⟩ := Storage.write_eq_ok hopen hlevel hfirst
      have hrest := ih (hopen.write hlevel hfirst) fun w hw => hpayloads w (List.mem_cons_of_mem _ hw)
      exact hrest.trans (and_iff_right hoffset).symm

/-- For every size of a file, the blocks of a tree over it keep apart in the files of their levels, and
each has the place of its number there. So whatever the files held, and in whatever order payloads are
written, what is read of a node is the last payload that was written for it, and of a node that was
not written no byte that was there is lost. -/
theorem levels_apart (size : UInt64) {t : Tree} (h : Expanded size.toNat t) :
    t.Layered size ∧
      ∀ (d : Disk) (path : String) (s : Storage) (d₀ : Disk), d.Sound →
        Storage.openWritable d size.toNat path = (.ok s, d₀) → ∀ ws, t.Payloads ws →
          ((∃ d', t.writeAll s d₀ ws = .ok d') ↔
            ∀ w ∈ ws, ∀ n, t.get? w.1 = some n → n.isInner ∨ n.position < 2 ^ 63) ∧
          ∀ d', t.writeAll s d₀ ws = .ok d' → ∀ (id : Nat) (n : Node), t.get? id = some n →
            Holds s d₀ d' ws id n := by
  have hmax := Word.toNat_le size
  have hwhole := h.whole hmax
  have hfile := h.fileSize hmax
  refine ⟨hwhole.layered (by rw [h.root hmax]; exact Option.some_ne_none 0) hfile, ?_⟩
  intro d path s d₀ hd hopen ws hpayloads
  obtain ⟨-, hsize, hsound, hnamed, -⟩ := Storage.openWritable_eq_ok hd hopen
  have hopened := hnamed.opened hsound (hsize ▸ hmax)
  have hsame : s.size = t.fileSize := hsize.trans hfile.symm
  exact ⟨exists_writeAll_iff hwhole.sound hsame hopened hpayloads, fun d' hwrite id n hn =>
    read_writeAll hwhole.sound hsame hopened hpayloads hwrite hn⟩

/-- The last leaf written twice, and the first one in between. -/
theorem levels_apart_of_two_leaves :
    ∃ (t : Tree) (s : Storage) (d₀ d' : Disk), Expanded 1025 t ∧ t.Layered 1025 ∧
      Storage.openWritable Disk.empty 1025 "f" = (.ok s, d₀) ∧
      t.writeAll s d₀ [(2, [1]), (1, List.replicate 1024 3), (2, [7])] = .ok d' ∧
      s.read d' 0 0 1024 = .ok (List.replicate 1024 3) ∧ s.read d' 0 1024 1 = .ok [7] := by
  have hexpanded : Expanded (UInt64.toNat 1025) ((Tree.new 1025).allocateChildren 0).2 :=
    Expanded.new.allocateChildren 0
  obtain ⟨hlayered, hruns⟩ := levels_apart 1025 hexpanded
  obtain ⟨s, hs⟩ : ∃ s, (Storage.openWritable Disk.empty 1025 "f").1 = .ok s := by
    have hok : (Storage.openWritable Disk.empty 1025 "f").1.toBool = true := by decide +kernel
    cases hopen : (Storage.openWritable Disk.empty 1025 "f").1 with
    | ok s => exact ⟨s, rfl⟩
    | error e =>
      rw [hopen] at hok
      cases hok
  have hopen : Storage.openWritable Disk.empty 1025 "f" =
      (.ok s, (Storage.openWritable Disk.empty 1025 "f").2) := Prod.ext hs rfl
  obtain ⟨left, hleft, hdepth, hposition, hlength⟩ : ∃ n : Node,
      ((Tree.new 1025).allocateChildren 0).2.get? 1 = some n ∧
        n.depth = 0 ∧ n.position = 0 ∧ n.length = 1024 := ⟨_, rfl, by decide, by decide, by decide⟩
  obtain ⟨right, hright, hdepth', hposition', hlength'⟩ : ∃ n : Node,
      ((Tree.new 1025).allocateChildren 0).2.get? 2 = some n ∧
        n.depth = 0 ∧ n.position = 1024 ∧ n.length = 1 := ⟨_, rfl, by decide, by decide, by decide⟩
  have hpayloads : ((Tree.new 1025).allocateChildren 0).2.Payloads
      [(2, [1]), (1, List.replicate 1024 3), (2, [7])] := by
    simp only [Payloads, List.forall_mem_cons, List.not_mem_nil, false_imp_iff, implies_true, and_true]
    exact ⟨⟨right, hright, hlength'.symm⟩, ⟨left, hleft, by rw [List.length_replicate, hlength]⟩,
      ⟨right, hright, hlength'.symm⟩⟩
  obtain ⟨hcomplete, hreads⟩ := hruns Disk.empty "f" s _ Disk.sound_empty hopen _ hpayloads
  obtain ⟨d', hwrite⟩ := hcomplete.2 (by
    simp only [List.forall_mem_cons, List.not_mem_nil, false_imp_iff, implies_true, and_true, hleft,
      hright, Option.some.injEq, forall_eq', hposition, hposition']
    exact ⟨.inr (by decide), .inr (by decide), .inr (by decide)⟩)
  have hread : s.read d' left.depth left.position left.length = .ok (List.replicate 1024 3) :=
    hreads d' hwrite 1 left hleft
  have hread' : s.read d' right.depth right.position right.length = .ok [7] :=
    hreads d' hwrite 2 right hright
  rw [hdepth, hposition, hlength] at hread
  rw [hdepth', hposition', hlength'] at hread'
  exact ⟨_, s, _, d', hexpanded, hlayered, hopen, hwrite, hread, hread'⟩

end Tree

end ContentTree

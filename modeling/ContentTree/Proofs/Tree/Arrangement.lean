import ContentTree.Proofs.Tree.Kept

/-!
# The arrangement of a tree

Whatever is done to a tree, its nodes are those that slots lead to from the root, every slot leads to
a node of its own at the place that the slot stands for, and numbers are not used again.
-/

namespace ContentTree

namespace Tree

/-- One operation on a tree, with any node, receiver of messages and disk, successful or not. -/
inductive Operation : Tree → Tree → Prop
  | allocateChildren (t : Tree) (id : NodeId) : Operation t (t.allocateChildren id).2
  /-- An insertion or a deletion, as the environment has it. -/
  | upload {σ : Type} (env : Upload.Env σ) (st : Upload.State σ) (id : NodeId) :
      Operation st.tree ((Upload.run env id).run st).2.tree
  | isPresent (env : Download.Env) (st : Download.State) (id : NodeId) :
      Operation st.tree ((Download.isPresent env id).run st).2.tree
  | download (env : Download.Env) (st : Download.State) (id : NodeId) :
      Operation st.tree ((Download.start env id).run st).2.tree
  | receive (env : Download.Env) (st : Download.State) (id : NodeId) (handler : ReplyHandler)
      (query : Digest) (reply : Block) :
      Operation st.tree ((Download.receive env id handler query reply).run st).2.tree
  | done (st : Download.State) (id : NodeId) :
      Operation st.tree ((Download.free id).run st).2.tree

/-- The trees that operations lead to. -/
inductive Reached : Tree → Prop
  | new {size : Nat} (hsize : size ≤ maxSize) : Reached (Tree.new size)
  | forDownload (f : FileIdentifier) : Reached (Tree.forDownload f)
  | next {t t' : Tree} (h : Reached t) (hop : Operation t t') : Reached t'

structure Arranged (t : Tree) : Prop where
  /-- Without a root there is no node at all. -/
  live : ∀ id : Nat, t.contains id ↔ ∃ root, t.root = some root ∧ t.Below root id
  slots : ∀ (id : Nat) n i c, t.get? id = some n → n.child? i = some c →
    ∃ m, t.get? c = some m ∧ m.parent = some id ∧ m.depth + 1 = n.depth ∧
      m.position = n.position + i * coverage m.depth
  distinct : ∀ (id k : Nat) n m i j c, t.get? id = some n → t.get? k = some m →
    n.child? i = some c → m.child? j = some c → id = k ∧ i = j
  counted : ∀ (id : Nat) n inner, t.get? id = some n → n.inner? = some inner →
    inner.live = (inner.children.getD []).countP Option.isSome
  numbered : ∀ id : Nat, t.contains id → id < t.nodes.size

variable {t t' : Tree} {id : Nat} {n : Node}

theorem Sound.below_root (h : t.Sound) (hn : t.get? id = some n) :
    ∃ root, t.root = some root ∧ t.Below root id := by
  induction hgap : treeDepth t.fileSize - n.depth using Nat.strong_induction_on generalizing id n with
  | h gap ih =>
    cases hp : n.parent with
    | none => exact ⟨id, (h.root_iff hn).1 hp, .refl⟩
    | some p =>
      obtain ⟨m, i, hm, hi, hdepth, -, -⟩ := h.parent hn hp
      have hle := (h.shaped hm).place.level_le
      obtain ⟨root, hroot, hbelow⟩ := ih _ (by omega) hm rfl
      exact ⟨root, hroot, hbelow.tail ⟨m, hm, Node.mem_childIds.2 ⟨i, hi⟩⟩⟩

theorem Sound.contains_of_below (h : t.Sound) {root : Nat} (hroot : t.root = some root)
    (hbelow : t.Below root id) : t.contains id := by
  rw [contains, Option.isSome_iff_exists]
  induction hbelow with
  | refl =>
    obtain ⟨n, hn, -⟩ := h.rooted hroot
    exact ⟨n, hn⟩
  | tail _ hlink _ =>
    obtain ⟨a, ha, hc⟩ := hlink
    obtain ⟨i, hi⟩ := Node.mem_childIds.1 hc
    obtain ⟨m, hm, -⟩ := h.down ha hi
    exact ⟨m, hm⟩

theorem Sound.arranged (h : t.Sound) : t.Arranged where
  live id := by
    constructor
    · intro hcontains
      obtain ⟨n, hn⟩ := Option.isSome_iff_exists.1 hcontains
      exact h.below_root hn
    · rintro ⟨root, hroot, hbelow⟩
      exact h.contains_of_below hroot hbelow
  slots id n i c hn hc := h.down hn hc
  distinct id k n m i j c hn hm hi hj := by
    obtain ⟨x, hx, hparent, -⟩ := h.down hn hi
    obtain ⟨y, hy, hparent', -⟩ := h.down hm hj
    obtain rfl := Option.some.inj (hx.symm.trans hy)
    obtain rfl := Option.some.inj (hparent.symm.trans hparent')
    obtain rfl := Option.some.inj (hn.symm.trans hm)
    exact ⟨rfl, h.slot_inj hn hi hj⟩
  counted id n inner hn hinner := ((h.shaped hn).inner inner hinner).2.2.2.1
  numbered id hcontains := by
    obtain ⟨n, hn⟩ := Option.isSome_iff_exists.1 hcontains
    exact lt_size_of_get? hn

theorem Operation.onward (hop : Operation t t') (h : t.Sound) : Onward anything t t' := by
  cases hop with
  | allocateChildren _ id => exact h.onward_allocateChildren id
  | upload env st id => exact (Upload.kept_run id).run st h
  | isPresent env st id => exact ((Download.kept_isPresent id).run st h).onward.weaken
  | download env st id => exact ((Download.kept_start id).run st h).onward.weaken
  | receive env st id handler query reply =>
    exact (Download.advanced_receive id handler query reply).run st h
  | done st id => exact h.onward_free id

theorem Reached.sound (h : Reached t) : t.Sound := by
  induction h with
  | new hsize => exact sound_new hsize
  | forDownload f => exact (Download.unstarted_forDownload f).good.sound
  | next _ hop ih => exact (hop.onward ih).sound

/-- After any operations a tree is arranged. Numbers that have been handed out are below the next
one, and one that has been freed stays free. -/
theorem arranged_of_reached (h : Reached t) :
    t.Arranged ∧ ∀ later, Relation.ReflTransGen Operation t later →
      t.nodes.size ≤ later.nodes.size ∧
        ∀ id < t.nodes.size, ¬ t.contains id → ¬ later.contains id := by
  refine ⟨h.sound.arranged, fun later hlater => ?_⟩
  have honward : Onward anything t later := by
    induction hlater with
    | refl => exact h.sound.onward
    | tail _ hop ih => exact ih.trans (hop.onward ih.sound)
  refine ⟨honward.size_le, fun id hid hfree => ?_⟩
  rw [contains, Option.not_isSome_iff_eq_none] at hfree ⊢
  exact honward.spent id hid hfree

/-- A node with two children, one of which is freed. -/
theorem arranged_of_freed_child :
    (((Tree.new 2048).allocateChildren 0).2.free 1).2.Arranged := by
  let st : Download.State := ⟨((Tree.new 2048).allocateChildren 0).2, .empty, .new 2048, #[]⟩
  exact (arranged_of_reached
    (.next (.next (.new (by decide)) (.allocateChildren _ 0)) (.done st 1))).1

end Tree

end ContentTree

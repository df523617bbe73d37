import ContentTree.Proofs.Node
import ContentTree.Proofs.Tree.Arena

/-!
# Freeing nodes

Freeing downwards removes nodes and changes no other. It removes nothing but what hangs below the
node freed, and no child of a removed node is left where links lead to lower nodes.
-/

namespace ContentTree

namespace Tree

variable {t t' : Tree} {id k : Nat} {n m : Node}

/-- What freeing some nodes does. -/
structure Freed (t : Tree) (freed : List NodeId) (t' : Tree) : Prop where
  get? : ∀ k, t'.get? k = if k ∈ freed then none else t.get? k
  root : t'.root = t.root
  fileSize : t'.fileSize = t.fileSize
  size : t'.nodes.size = t.nodes.size

theorem Freed.nil (t : Tree) : Freed t [] t := ⟨by simp, rfl, rfl, rfl⟩

theorem Freed.append {first rest : List NodeId} {t'' : Tree} (h : Freed t first t')
    (h' : Freed t' rest t'') : Freed t (first ++ rest) t'' where
  get? k := by
    rw [h'.get? k, h.get? k]
    simp only [List.mem_append]
    split <;> split <;> simp_all
  root := h'.root.trans h.root
  fileSize := h'.fileSize.trans h.fileSize
  size := h'.size.trans h.size

theorem freed_erase (t : Tree) (id : NodeId) : Freed t [id] (t.erase id) where
  get? k := by simp [get?_erase]
  root := rfl
  fileSize := rfl
  size := size_erase t id

theorem Freed.get?_of_some {freed : List NodeId} (h : Freed t freed t')
    (hk : t'.get? k = some n) : t.get? k = some n := by
  rw [h.get? k] at hk
  split at hk
  · cases hk
  · exact hk

theorem freed_freeEach {free : Tree → NodeId → List NodeId × Tree}
    (hfree : ∀ t id, Freed t (free t id).1 (free t id).2) (ids : List NodeId) (t : Tree) :
    Freed t (freeEach free t ids).1 (freeEach free t ids).2 := by
  induction ids generalizing t with
  | nil => exact Freed.nil t
  | cons id ids ih => exact (hfree t id).append (ih (free t id).2)

theorem freeBelow_of_get?_eq_none (h : t.get? id = none) (levels : Nat) :
    freeBelow levels t id = ([], t) := by
  cases levels <;> simp [freeBelow, h]

theorem freeBelow_zero (h : t.get? id = some n) : freeBelow 0 t id = ([id], t.erase id) := by
  simp [freeBelow, h]

theorem freeBelow_succ (h : t.get? id = some n) (levels : Nat) : freeBelow (levels + 1) t id =
    (id :: (freeEach (freeBelow levels) (t.erase id) n.childIds).1,
      (freeEach (freeBelow levels) (t.erase id) n.childIds).2) := by
  simp [freeBelow, h]

theorem freed_freeBelow (levels : Nat) (t : Tree) (id : NodeId) :
    Freed t (freeBelow levels t id).1 (freeBelow levels t id).2 := by
  induction levels generalizing t id with
  | zero =>
    cases hn : t.get? id with
    | none =>
      rw [freeBelow_of_get?_eq_none hn]
      exact Freed.nil t
    | some n =>
      rw [freeBelow_zero hn]
      exact freed_erase t id
  | succ levels ih =>
    cases hn : t.get? id with
    | none =>
      rw [freeBelow_of_get?_eq_none hn]
      exact Freed.nil t
    | some n =>
      rw [freeBelow_succ hn]
      exact (freed_erase t id).append (freed_freeEach ih _ _)

theorem mem_freeBelow_self (hn : t.get? id = some n) (levels : Nat) :
    id ∈ (freeBelow levels t id).1 := by
  cases levels <;> simp [freeBelow, hn]

theorem freeBelow_of_childless (h : t.get? id = some n) (hchildless : n.childIds = [])
    (levels : Nat) : freeBelow levels t id = ([id], t.erase id) := by
  cases levels with
  | zero => exact freeBelow_zero h
  | succ levels => rw [freeBelow_succ h, hchildless, freeEach]

theorem freeEach_subset {free : Tree → NodeId → List NodeId × Tree} {s : NodeId → Prop}
    (hfreed : ∀ u d, Freed u (free u d).1 (free u d).2)
    (hfree : ∀ u d, (∀ k n c, s k → u.get? k = some n → c ∈ n.childIds → s c) → s d →
      ∀ k ∈ (free u d).1, s k) (ids : List NodeId) (hids : ∀ c ∈ ids, s c)
    (hclosed : ∀ k n c, s k → t.get? k = some n → c ∈ n.childIds → s c) :
    ∀ k ∈ (freeEach free t ids).1, s k := by
  induction ids generalizing t with
  | nil => simp [freeEach]
  | cons d ids ih =>
    intro k hk
    rcases List.mem_append.1 hk with hfirst | hrest
    · exact hfree t d hclosed (hids d (by simp)) k hfirst
    · refine ih (fun c hc => hids c (by simp [hc])) ?_ k hrest
      intro k n c hk hget
      exact hclosed k n c hk ((hfreed t d).get?_of_some hget)

/-- Nothing is freed but nodes of a set that links do not leave. -/
theorem freeBelow_subset {s : NodeId → Prop}
    (hclosed : ∀ k n c, s k → t.get? k = some n → c ∈ n.childIds → s c) (levels : Nat) (hid : s id) :
    ∀ k ∈ (freeBelow levels t id).1, s k := by
  induction levels generalizing t id with
  | zero =>
    cases hn : t.get? id with
    | none => simp [freeBelow_of_get?_eq_none hn]
    | some n => simpa [freeBelow_zero hn] using hid
  | succ levels ih =>
    cases hn : t.get? id with
    | none => simp [freeBelow_of_get?_eq_none hn]
    | some n =>
      have herase : ∀ k m c, s k → (t.erase id).get? k = some m → c ∈ m.childIds → s c := by
        intro k m c hk hget
        exact hclosed k m c hk ((freed_erase t id).get?_of_some hget)
      rw [freeBelow_succ hn]
      intro k hk
      rcases List.mem_cons.1 hk with rfl | hrest
      · exact hid
      · refine freeEach_subset (freed_freeBelow levels) (fun _ _ hu hd => ih hu hd) n.childIds ?_
          herase k hrest
        exact fun c hc => hclosed id n c hid hn hc

/-- Links lead to lower nodes. -/
def Descends (t : Tree) : Prop :=
  ∀ k n c m, t.get? k = some n → c ∈ n.childIds → t.get? c = some m → m.depth < n.depth

theorem Descends.of_freed {freed : List NodeId} (h : t.Descends) (hfreed : Freed t freed t') :
    t'.Descends := fun k n c m hn hc hm =>
  h k n c m (hfreed.get?_of_some hn) hc (hfreed.get?_of_some hm)

theorem freeEach_closed {levels : Nat}
    (hfree : ∀ (u : Tree) d b, u.Descends → u.get? d = some b → b.depth ≤ levels → ∀ k c m,
      u.get? k = some m → (freeBelow levels u d).2.get? k = none → c ∈ m.childIds →
        (freeBelow levels u d).2.get? c = none)
    (ids : List NodeId) (hdown : t.Descends)
    (hlow : ∀ c ∈ ids, ∀ b, t.get? c = some b → b.depth ≤ levels) :
    (∀ c ∈ ids, (freeEach (freeBelow levels) t ids).2.get? c = none) ∧
      ∀ k m c, t.get? k = some m → (freeEach (freeBelow levels) t ids).2.get? k = none →
        c ∈ m.childIds → (freeEach (freeBelow levels) t ids).2.get? c = none := by
  induction ids generalizing t with
  | nil =>
    refine ⟨by simp, fun k m c hm hnone => ?_⟩
    simp only [freeEach] at hnone
    rw [hm] at hnone
    cases hnone
  | cons d ids ih =>
    have hfirst := freed_freeBelow levels t d
    have hrest := freed_freeEach (freed_freeBelow levels) ids (freeBelow levels t d).2
    have hgone : (freeBelow levels t d).2.get? d = none := by
      cases hd : t.get? d with
      | none => rw [hfirst.get? d, hd, ite_self]
      | some b => rw [hfirst.get? d, if_pos (mem_freeBelow_self hd levels)]
    -- What the first child has taken away stays away while the others are freed.
    have hstays : ∀ k, (freeBelow levels t d).2.get? k = none →
        (freeEach (freeBelow levels) t (d :: ids)).2.get? k = none := by
      intro k hnone
      change (freeEach (freeBelow levels) (freeBelow levels t d).2 ids).2.get? k = none
      rw [hrest.get? k, hnone, ite_self]
    obtain ⟨hids, hclosed⟩ := ih (hdown.of_freed hfirst)
      fun c hc b hb => hlow c (by simp [hc]) b (hfirst.get?_of_some hb)
    refine ⟨fun c hc => ?_, fun k m c hm hnone hc => ?_⟩
    · rcases List.mem_cons.1 hc with rfl | hc
      · exact hstays _ hgone
      · exact hids c hc
    · cases hk : (freeBelow levels t d).2.get? k with
      | none =>
        cases hd : t.get? d with
        | none =>
          rw [freeBelow_of_get?_eq_none hd, hm] at hk
          cases hk
        | some b => exact hstays c (hfree t d b hdown hd (hlow d (by simp) b hd) k c m hm hk hc)
      | some m' =>
        have hm' := hfirst.get?_of_some hk
        obtain rfl : m' = m := Option.some.inj (hm'.symm.trans hm)
        exact hclosed k m' c hk hnone hc

theorem freeBelow_closed (hdown : t.Descends) {levels : Nat} (hid : t.get? id = some n)
    (hlevels : n.depth ≤ levels) {c : NodeId} {m : Node} (hm : t.get? k = some m)
    (hk : (freeBelow levels t id).2.get? k = none) (hc : c ∈ m.childIds) :
    (freeBelow levels t id).2.get? c = none := by
  induction levels generalizing t id n k c m with
  | zero =>
    rw [freeBelow_zero hid, get?_erase] at hk ⊢
    have hself : k = id := by
      by_contra hne
      rw [if_neg hne, hm] at hk
      cases hk
    subst hself
    obtain rfl : m = n := Option.some.inj (hm.symm.trans hid)
    -- A child would have to stand below the lowest level.
    have hnone : t.get? c = none := Option.eq_none_iff_forall_not_mem.2 fun b hb => by
      have hlt := hdown k m c b hm hc hb
      omega
    rw [hnone, ite_self]
  | succ levels ih =>
    have herased := freed_erase t id
    have hrest := freed_freeEach (freed_freeBelow levels) n.childIds (t.erase id)
    obtain ⟨hchildren, hclosed⟩ := freeEach_closed (fun _ _ _ hu hd hle _ _ _ => ih hu hd hle)
      n.childIds (hdown.of_freed herased) fun c hc b hb => by
        have hlt := hdown id n c b hid hc (herased.get?_of_some hb)
        omega
    rw [freeBelow_succ hid] at hk ⊢
    by_cases hself : k = id
    · subst hself
      obtain rfl : m = n := Option.some.inj (hm.symm.trans hid)
      exact hchildren c hc
    · refine hclosed k m c ?_ hk hc
      rw [get?_erase, if_neg hself, hm]

/-! ### Freeing a node without children -/

def withoutChild (n : Node) (slot : Nat) : Node :=
  n.modifyInner fun i =>
    { i with children := i.children.map (·.set slot none), live := i.live - 1 }

theorem detach_eq {parent slot position : Nat} {c : NodeId} {i : Inner}
    (h : t.get? parent = some m) (hinner : m.inner? = some i)
    (hslot : m.slotOf? position = some slot) (hchild : m.child? slot = some c) :
    t.detach parent position = (decide (i.live - 1 = 0 ∧ m.status ≠ .persistent),
      t.set parent (withoutChild m slot)) := by
  obtain ⟨slots, hslots⟩ : ∃ slots, i.children = some slots := by
    cases hchildren : i.children with
    | none => simp [Node.child?, Node.slots?, hinner, hchildren] at hchild
    | some slots => exact ⟨slots, rfl⟩
  have hjoin : slots[slot]?.join = some c := by
    simpa [Node.child?, Node.slots?, hinner, hslots] using hchild
  have hkind := Node.inner?_eq_some.1 hinner
  simp [detach, h, hinner, hslot, hslots, hjoin, withoutChild, Node.modifyInner, Node.setInner, hkind]

/-- The tree without a node, whose parent is not told. -/
def cleared (t : Tree) (id : NodeId) : Tree :=
  if t.root = some id then { t.erase id with root := none } else t.erase id

theorem get?_cleared (t : Tree) (id k : Nat) :
    (t.cleared id).get? k = if k = id then none else t.get? k := by
  rw [← get?_erase]
  unfold cleared
  split <;> rfl

theorem root_cleared (t : Tree) (id : NodeId) :
    (t.cleared id).root = if t.root = some id then none else t.root := by
  unfold cleared
  split <;> rfl

@[simp]
theorem fileSize_cleared (t : Tree) (id : NodeId) : (t.cleared id).fileSize = t.fileSize := by
  unfold cleared
  split <;> rfl

@[simp]
theorem size_cleared (t : Tree) (id : NodeId) :
    (t.cleared id).nodes.size = t.nodes.size := by
  rw [← size_erase t id]
  unfold cleared
  split <;> rfl

/-- Freeing a node without children frees just that node, and goes on with the parent if that is
left empty. -/
theorem freeUp_of_childless (h : t.get? id = some n) (hchildless : n.childIds = [])
    (levels : Nat) : freeUp levels t id =
      match n.parent with
      | none => ([id], t.cleared id)
      | some parent =>
        match levels, ((t.cleared id).detach parent n.position).1 with
        | levels + 1, true =>
          let above := freeUp levels ((t.cleared id).detach parent n.position).2 parent
          (id :: above.1, above.2)
        | _, _ => ([id], ((t.cleared id).detach parent n.position).2) := by
  rw [freeUp.eq_def]
  simp only [h, freeBelow_of_childless h hchildless]
  have hrest : (if (t.erase id).root = some id then { t.erase id with root := none }
      else t.erase id) = t.cleared id := rfl
  rw [hrest]
  cases n.parent with
  | none => rfl
  | some parent =>
    simp only
    cases levels with
    | zero => rfl
    | succ levels =>
      cases ((t.cleared id).detach parent n.position).1 <;> rfl

theorem freeUp_of_kept {parent : Nat} (h : t.get? id = some n) (hchildless : n.childIds = [])
    (hparent : n.parent = some parent)
    (hkept : ((t.cleared id).detach parent n.position).1 = false) (levels : Nat) :
    freeUp levels t id = ([id], ((t.cleared id).detach parent n.position).2) := by
  rw [freeUp_of_childless h hchildless, hparent]
  simp only [hkept]

end Tree

end ContentTree

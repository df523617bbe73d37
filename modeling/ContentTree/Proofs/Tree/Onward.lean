import Mathlib.Logic.Relation
import ContentTree.Proofs.Tree.Staged

/-!
# What every operation keeps of a tree

An operation leaves a sound tree sound, hands out new numbers only, and never brings a number back.
Freeing a node, in particular, takes away just what slots lead to from it.
-/

namespace ContentTree

namespace Tree

variable {t t' t'' : Tree} {id k : Nat} {n m : Node}

/-! ### What hangs below a node -/

/-- A slot of the first node leads to the second. -/
def Links (t : Tree) (p c : NodeId) : Prop := ∃ n, t.get? p = some n ∧ c ∈ n.childIds

/-- Slots lead from the first node to the second. -/
abbrev Below (t : Tree) : NodeId → NodeId → Prop := Relation.ReflTransGen t.Links

theorem Sound.mem_freeBelow (h : t.Sound) (hn : t.get? id = some n) :
    k ∈ (freeBelow n.depth t id).1 ↔ t.Below id k := by
  have hfreed := freed_freeBelow n.depth t id
  constructor
  · refine freeBelow_subset (fun p a c hp ha hc => ?_) n.depth Relation.ReflTransGen.refl k
    exact hp.tail ⟨a, ha, hc⟩
  · intro hbelow
    induction hbelow with
    | refl => exact mem_freeBelow_self hn _
    | tail _ hlink ih =>
      obtain ⟨a, ha, hc⟩ := hlink
      obtain ⟨i, hi⟩ := Node.mem_childIds.1 hc
      obtain ⟨m, hm, -⟩ := h.down ha hi
      have hgone := freeBelow_closed h.descends hn (Nat.le_refl _) ha
        (by rw [hfreed.get?, if_pos ih]) hc
      rw [hfreed.get?] at hgone
      by_contra hkept
      rw [if_neg hkept, hm] at hgone
      cases hgone

theorem Sound.depth_le_of_below (h : t.Sound) (hn : t.get? id = some n) (hbelow : t.Below id k)
    (hm : t.get? k = some m) : m.depth ≤ n.depth := by
  induction hbelow generalizing m with
  | refl => rw [Option.some.inj (hn.symm.trans hm)]
  | tail _ hlink ih =>
    obtain ⟨a, ha, hc⟩ := hlink
    have hlt := h.descends _ _ _ _ ha hc hm
    exact (Nat.le_of_lt hlt).trans (ih ha)

/-- Another node hangs below a node just if its parent does. -/
theorem Sound.below_iff (h : t.Sound) (hm : t.get? k = some m) (hne : k ≠ id) :
    t.Below id k ↔ ∃ p, m.parent = some p ∧ t.Below id p := by
  constructor
  · intro hbelow
    obtain heq | ⟨p, hp, a, ha, hc⟩ := Relation.ReflTransGen.cases_tail hbelow
    · exact absurd heq hne
    · obtain ⟨i, hi⟩ := Node.mem_childIds.1 hc
      obtain ⟨x, hx, hparent, -⟩ := h.down ha hi
      obtain rfl := Option.some.inj (hm.symm.trans hx)
      exact ⟨p, hparent, hp⟩
  · rintro ⟨p, hp, hbelow⟩
    obtain ⟨a, i, ha, hi⟩ := h.up hm hp
    exact hbelow.tail ⟨a, ha, Node.mem_childIds.2 ⟨i, hi⟩⟩

/-! ### Freeing a node with all that hangs below it -/

/-- The tree without a node and what hangs below it, before the parent is told. -/
def trimmed (t : Tree) (id : NodeId) (n : Node) : Tree :=
  if t.root = some id then { (freeBelow n.depth t id).2 with root := none }
  else (freeBelow n.depth t id).2

/-- The tree without a node and what hangs below it. -/
def lopped (t : Tree) (id : NodeId) (n : Node) : Tree :=
  match n.parent with
  | none => t.trimmed id n
  | some p => ((t.trimmed id n).detach p n.position).2

theorem Sound.get?_trimmed (h : t.Sound) (hn : t.get? id = some n) :
    (t.trimmed id n).get? k = some m ↔ ¬ t.Below id k ∧ t.get? k = some m := by
  have hget : (t.trimmed id n).get? k = (freeBelow n.depth t id).2.get? k := by
    unfold trimmed
    split <;> rfl
  rw [hget, (freed_freeBelow n.depth t id).get?, Option.ite_none_left_eq_some, h.mem_freeBelow hn]

theorem size_trimmed (t : Tree) (id : NodeId) (n : Node) :
    (t.trimmed id n).nodes.size = t.nodes.size := by
  unfold trimmed
  split <;> exact (freed_freeBelow n.depth t id).size

theorem root_trimmed (t : Tree) (id : NodeId) (n : Node) :
    (t.trimmed id n).root = if t.root = some id then none else t.root := by
  unfold trimmed
  split
  · rfl
  · exact (freed_freeBelow n.depth t id).root

theorem fileSize_trimmed (t : Tree) (id : NodeId) (n : Node) :
    (t.trimmed id n).fileSize = t.fileSize := by
  unfold trimmed
  split <;> exact (freed_freeBelow n.depth t id).fileSize

/-- The parent of a node does not go with it. -/
theorem Sound.get?_trimmed_parent (h : t.Sound) (hn : t.get? id = some n) {p : Nat}
    (hp : n.parent = some p) (hm : t.get? p = some m) : (t.trimmed id n).get? p = some m := by
  refine (h.get?_trimmed hn).2 ⟨fun hbelow => ?_, hm⟩
  obtain ⟨m', -, hm', -, hdepth, -⟩ := h.parent hn hp
  obtain rfl := Option.some.inj (hm.symm.trans hm')
  have hle := h.depth_le_of_below hn hbelow hm
  omega

theorem Sound.cut (h : t.Sound) (hn : t.get? id = some n) :
    Cut t id n (t.Below id) (t.lopped id n) ∧ (t.lopped id n).nodes.size = t.nodes.size := by
  have hlink : Unlinked (t.trimmed id n) id n (t.lopped id n) :=
    h.unlinked hn fun hp hm => h.get?_trimmed_parent hn hp hm
  refine ⟨⟨.refl, fun ha hne => h.below_iff ha hne, fun {k b} hb => ?_, fun {k a} ha hk => ?_, ?_, ?_⟩,
    ?_⟩
  · obtain ⟨a, ha, hcase⟩ := hlink.back hb
    obtain ⟨hk, ha⟩ := (h.get?_trimmed hn).1 ha
    exact ⟨hk, a, ha, hcase⟩
  · exact hlink.forth ((h.get?_trimmed hn).2 ⟨hk, ha⟩)
  · rw [hlink.root, root_trimmed]
  · rw [hlink.fileSize, fileSize_trimmed]
  · rw [hlink.size, size_trimmed]

theorem freeUp_eq (hn : t.get? id = some n) (levels : Nat) :
    (freeUp levels t id).2 = t.lopped id n ∨
      ∃ lower p, levels = lower + 1 ∧ (freeUp levels t id).2 = (freeUp lower (t.lopped id n) p).2 := by
  have htrimmed : (if (freeBelow n.depth t id).2.root = some id then
      { (freeBelow n.depth t id).2 with root := none } else (freeBelow n.depth t id).2) =
        t.trimmed id n := by
    rw [(freed_freeBelow n.depth t id).root]
    rfl
  rw [freeUp.eq_def]
  simp only [hn, htrimmed]
  unfold lopped
  cases hp : n.parent with
  | none => exact .inl rfl
  | some p =>
    simp only
    cases levels with
    | zero => exact .inl rfl
    | succ lower =>
      cases ((t.trimmed id n).detach p n.position).1 with
      | false => exact .inl rfl
      | true => exact .inr ⟨lower, p, rfl, rfl⟩

/-! ### Going onward -/

/-- What an operation keeps of a sound tree. A node is pending afterwards only if it was so before,
or if its level, position and pair are `lost`. -/
structure Onward (lost : Nat → Nat → Chk → Prop) (t t' : Tree) : Prop where
  sound : t'.Sound
  fileSize : t'.fileSize = t.fileSize
  size_le : t.nodes.size ≤ t'.nodes.size
  spent : ∀ k < t.nodes.size, t.get? k = none → t'.get? k = none
  pending : ∀ {k : Nat} {b}, t'.get? k = some b → b.status = .pending →
    (∃ a, t.get? k = some a ∧ a.status = .pending ∧ b.depth = a.depth ∧ b.position = a.position ∧
      b.chk = a.chk) ∨ lost b.depth b.position b.chk

/-- What does as it likes with the status of nodes. -/
abbrev anything : Nat → Nat → Chk → Prop := fun _ _ _ => True

section Onward

variable {lost : Nat → Nat → Chk → Prop}

theorem Onward.weaken (h : Onward lost t t') : Onward anything t t' :=
  ⟨h.sound, h.fileSize, h.size_le, h.spent, fun _ _ => .inr trivial⟩

theorem Sound.onward (h : t.Sound) : Onward lost t t :=
  ⟨h, rfl, Nat.le_refl _, fun _ _ hk => hk, fun hb hs => .inl ⟨_, hb, hs, rfl, rfl, rfl⟩⟩

theorem Onward.trans (h : Onward lost t t') (h' : Onward lost t' t'') : Onward lost t t'' where
  sound := h'.sound
  fileSize := h'.fileSize.trans h.fileSize
  size_le := h.size_le.trans h'.size_le
  spent k hk hnone := h'.spent k (hk.trans_le h.size_le) (h.spent k hk hnone)
  pending {k c} hc hs := by
    rcases h'.pending hc hs with ⟨b, hb, hbs, hdepth, hposition, hchk⟩ | hlost
    · rw [hdepth, hposition, hchk]
      rcases h.pending hb hbs with ⟨a, ha, has, hsame⟩ | hlost
      · exact .inl ⟨a, ha, has, hsame⟩
      · exact .inr hlost
    · exact .inr hlost

theorem Sound.onward_padded (h : t.Sound) (hpadded : Padded t t') : Onward lost t t' where
  sound := h.of_like hpadded.like
  fileSize := hpadded.fileSize
  size_le := hpadded.size_le
  spent k _ hnone := (hpadded.get? k).trans hnone
  pending {k b} hb hs := .inl ⟨b, (hpadded.get? k).symm.trans hb, hs, rfl, rfl, rfl⟩

theorem Sound.onward_set (h : t.Sound) (hn : t.get? id = some n) (hlike : n.Like m)
    (hpending : m.status = .pending →
      n.status = .pending ∧ m.chk = n.chk ∨ lost n.depth n.position m.chk) :
    Onward lost t (t.set id m) where
  sound := h.of_like (like_set hn hlike)
  fileSize := rfl
  size_le := (size_set t id m).ge
  spent k _ hnone := by
    rw [get?_set hn]
    split
    · rename_i hk
      rw [hk, hn] at hnone
      cases hnone
    · exact hnone
  pending {k b} hb hs := by
    rw [get?_set hn] at hb
    split at hb
    · rename_i hk
      obtain rfl := Option.some.inj hb
      rw [hlike.depth, hlike.position, hk]
      rcases hpending hs with ⟨hbefore, hchk⟩ | hlost
      · exact .inl ⟨n, hn, hbefore, rfl, rfl, hchk⟩
      · exact .inr hlost
    · exact .inl ⟨b, hb, hs, rfl, rfl, rfl⟩

theorem Sound.onward_set_padded (h : t.Sound) (hn : t.get? id = some n) (hlike : n.Like m)
    (hpending : m.status = .pending →
      n.status = .pending ∧ m.chk = n.chk ∨ lost n.depth n.position m.chk)
    (hpadded : Padded (t.set id m) t') : Onward lost t t' := by
  have hset := h.onward_set hn hlike hpending
  exact hset.trans (hset.sound.onward_padded hpadded)

theorem Sound.onward_setStatus (h : t.Sound) (id : Nat) {status : Status}
    (hstatus : status ≠ .pending) : Onward lost t (t.setStatus id status) := by
  cases hn : t.get? id with
  | none =>
    have hsame : t.setStatus id status = t := by simp [setStatus, modify, hn]
    rw [hsame]
    exact h.onward
  | some n =>
    rw [setStatus_eq_set hn]
    exact h.onward_set hn (Download.like_status n status) fun hs => absurd hs hstatus

theorem Sound.onward_lopped (h : t.Sound) (hn : t.get? id = some n) :
    Onward lost t (t.lopped id n) := by
  obtain ⟨hcut, hsize⟩ := h.cut hn
  refine ⟨h.of_cut hn hcut, hcut.fileSize, hsize.ge, fun k _ hnone => ?_, fun {k b} hb hs => ?_⟩
  · cases hb : (t.lopped id n).get? k with
    | none => rfl
    | some b =>
      obtain ⟨-, a, ha, -⟩ := hcut.back hb
      rw [ha] at hnone
      cases hnone
  · obtain ⟨-, a, ha, ⟨rfl, -⟩ | ⟨-, i, -, rfl⟩⟩ := hcut.back hb
    · exact .inl ⟨b, ha, hs, rfl, rfl, rfl⟩
    · rw [status_withoutChild] at hs
      exact .inl ⟨a, ha, hs, depth_withoutChild a i, position_withoutChild a i,
        chk_withoutChild a i⟩

theorem Sound.onward_freeUp (h : t.Sound) (levels id : Nat) :
    Onward lost t (freeUp levels t id).2 := by
  -- Freeing goes on with the parent, one level up, if that is left without children.
  induction levels using Nat.strong_induction_on generalizing t id with
  | h levels ih =>
    cases hn : t.get? id with
    | none =>
      rw [freeUp.eq_def]
      simp only [hn]
      exact h.onward
    | some n =>
      have hlopped : Onward lost t (t.lopped id n) := h.onward_lopped hn
      rcases freeUp_eq hn levels with hsame | ⟨lower, p, hlevels, habove⟩
      · rw [hsame]
        exact hlopped
      · rw [habove]
        exact hlopped.trans (ih lower (by omega) hlopped.sound p)

theorem Sound.onward_free (h : t.Sound) (id : Nat) : Onward lost t (t.free id).2 :=
  h.onward_freeUp _ id

/-- Children are created below an inner node that has had none; otherwise nothing changes. -/
theorem Sound.allocateChildren_cases (h : t.Sound) (id : Nat) :
    (t.allocateChildren id).2 = t ∨ ∃ n i, t.get? id = some n ∧ n.inner? = some i ∧
      i.children = none ∧ Unfolded t id n (withChildren n i t.nodes.size) i (newChild id n i)
        (t.allocateChildren id).2 := by
  cases hn : t.get? id with
  | none => exact .inl (by simp only [allocateChildren, hn])
  | some n =>
    cases hi : n.inner? with
    | none => exact .inl (by simp only [allocateChildren, hn, hi])
    | some i =>
      cases hslots : i.children with
      | some slots => exact .inl (by simp [allocateChildren, hn, hi, hslots])
      | none =>
        obtain ⟨t', hrun, hget, hroot, hfile, hsize⟩ := allocateChildren_spec hn hi hslots
        have hshape := h.shaped hn
        rw [hrun]
        refine .inr ⟨n, i, rfl, hi, hslots, hget, hroot, hfile, hsize, rfl,
          Download.shaped_withChildren hshape hi _, rfl, rfl, ?_, fun j _ => ?_⟩
        · rw [Node.depth_of_inner hi]
          rfl
        · rw [Node.depth_of_inner hi, ← hshape.fileSize]
          exact Download.like_newChild id n i j

theorem Sound.onward_allocateChildren (h : t.Sound) (id : Nat) :
    Onward lost t (t.allocateChildren id).2 := by
  obtain hsame | ⟨n, i, hn, hi, hslots, hunfold⟩ := h.allocateChildren_cases id
  · rw [hsame]
    exact h.onward
  · refine ⟨h.unfolded hn hi hslots hunfold, hunfold.fileSize, hunfold.size ▸ Nat.le_add_right _ _,
      fun k hk hnone => ?_, fun {k b} hb hs => ?_⟩
    · rw [hunfold.get?, if_neg (fun heq => by rw [heq, hn] at hnone; cases hnone), if_neg (by omega)]
      exact hnone
    · obtain ⟨rfl, rfl⟩ | ⟨j, -, -, rfl⟩ | ⟨-, hb⟩ := hunfold.back hb
      · exact .inl ⟨n, hn, hs, hunfold.depth, rfl, rfl⟩
      · rw [Download.status_newChild] at hs
        cases hs
      · exact .inl ⟨b, hb, hs, rfl, rfl, rfl⟩

end Onward

end Tree

end ContentTree

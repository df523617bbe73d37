import ContentTree.Proofs.Tree.Staged

/-!
# Freeing upwards

Freeing a node that has no children is a sequence of moves, one for each ancestor that it leaves
empty. Afterwards no node is left empty, and no node that is still to be started has changed.
-/

namespace ContentTree

namespace Download

/-- The node is not in passing: its block is not just present, and it is not left empty. -/
def Rests (n : Node) : Prop :=
  n.status ≠ .present ∧ (n.status = .childrenPresent → n.childIds ≠ [])

def RestsBut (t : Tree) (id : Nat) : Prop := ∀ {k : Nat} {n}, t.get? k = some n → k ≠ id → Rests n

def AllRest (t : Tree) : Prop := ∀ {k : Nat} {n}, t.get? k = some n → Rests n

/-- Of the nodes that are to be started just those in `started` have been, and the same nodes are
starting their children as before. -/
structure Frame (started : Nat → Prop) (t t' : Tree) : Prop where
  created : ∀ {k : Nat} {m}, t'.get? k = some m ∧ m.status = .created ↔
    (t.get? k = some m ∧ m.status = .created) ∧ ¬ started k
  persistent : ∀ {k : Nat}, (∃ m, t'.get? k = some m ∧ m.status = .persistent) ↔
    ∃ m, t.get? k = some m ∧ m.status = .persistent

section Frame

variable {started later : Nat → Prop} {t t' t'' : Tree}

theorem Frame.trans (h : Frame started t t') (h' : Frame later t' t'') :
    Frame (fun k => started k ∨ later k) t t'' where
  created := by
    intro k m
    rw [h'.created, h.created, not_or, and_assoc]
  persistent := h'.persistent.trans h.persistent

theorem Frame.congr (h : Frame started t t') (hsame : ∀ k, started k ↔ later k) :
    Frame later t t' where
  created := by
    intro k m
    rw [h.created, hsame]
  persistent := h.persistent

theorem frame_padded (h : Tree.Padded t t') : Frame (fun _ => False) t t' where
  created := by
    intro k m
    rw [h.get?, not_false_eq_true, and_true]
  persistent := by
    intro k
    rw [h.get?]

theorem Frame.of_none_created (h : Frame started t t')
    (hnone : ∀ {k : Nat} {m}, started k → t.get? k = some m → m.status ≠ .created) :
    Frame (fun _ => False) t t' where
  created := by
    intro k m
    rw [h.created, not_false_eq_true, and_true, and_iff_left_iff_imp]
    exact fun hm hk => hnone hk hm.1 hm.2
  persistent := h.persistent

/-- A node that changes is not to be started any more, and starts its children if it did before. -/
theorem frame_set {id : Nat} {n m : Node} (hn : t.get? id = some n) (hcreated : m.status ≠ .created)
    (hpersistent : m.status = .persistent ↔ n.status = .persistent) :
    Frame (· = id) t (t.set id m) where
  created := by
    intro k b
    rw [Tree.get?_set hn]
    by_cases hk : k = id
    · rw [if_pos hk, Option.some.injEq]
      refine ⟨?_, fun h => absurd hk h.2⟩
      rintro ⟨rfl, hs⟩
      exact absurd hs hcreated
    · rw [if_neg hk]
      simp [hk]
  persistent := by
    intro k
    rw [Tree.get?_set hn]
    by_cases hk : k = id
    · subst hk
      rw [if_pos rfl, hn]
      simp [hpersistent]
    · rw [if_neg hk]

end Frame

section Prune

variable {env : Env} {st : State} {t : Tree} {id : Nat} {n : Node}

theorem Good.frame_pruned (h : Good t) (hn : t.get? id = some n)
    (hcreated : n.status ≠ .created) (hpersistent : n.status ≠ .persistent) :
    Frame (fun _ => False) t (t.pruned id n) := by
  have hpruned := h.sound.pruned hn
  have hfresh : ∀ {k : Nat} {a : Node} {i : Nat}, t.get? k = some a → a.child? i = some id →
      a.status ≠ .created := by
    intro k a i ha hi hs
    have hslots := (h.staged.fits ha).fresh (Or.inl hs)
    simp [Node.child?, hslots] at hi
  constructor
  case created =>
    intro k m
    rw [not_false_eq_true, and_true]
    constructor
    · rintro ⟨hm, hs⟩
      obtain ⟨-, a, ha, ⟨rfl, -⟩ | ⟨-, i, hi, rfl⟩⟩ := hpruned.back hm
      · exact ⟨ha, hs⟩
      · rw [Tree.status_withoutChild] at hs
        exact absurd hs (hfresh ha hi)
    · rintro ⟨hm, hs⟩
      have hne : k ≠ id := by
        rintro rfl
        obtain rfl := Option.some.inj (hm.symm.trans hn)
        exact hcreated hs
      obtain ⟨b, hb⟩ := hpruned.forth hm hne
      obtain ⟨-, a, ha, ⟨rfl, -⟩ | ⟨-, i, hi, rfl⟩⟩ := hpruned.back hb
      · obtain rfl := Option.some.inj (hm.symm.trans ha)
        exact ⟨hb, hs⟩
      · obtain rfl := Option.some.inj (hm.symm.trans ha)
        exact absurd hs (hfresh ha hi)
  case persistent =>
    intro k
    constructor
    · rintro ⟨b, hb, hs⟩
      obtain ⟨-, a, ha, ⟨rfl, -⟩ | ⟨-, i, hi, rfl⟩⟩ := hpruned.back hb
      · exact ⟨_, ha, hs⟩
      · exact ⟨a, ha, by rwa [Tree.status_withoutChild] at hs⟩
    · rintro ⟨a, ha, hs⟩
      have hne : k ≠ id := by
        rintro rfl
        obtain rfl := Option.some.inj (ha.symm.trans hn)
        exact hpersistent hs
      obtain ⟨b, hb⟩ := hpruned.forth ha hne
      obtain ⟨-, a', ha', ⟨rfl, -⟩ | ⟨-, i, hi, rfl⟩⟩ := hpruned.back hb
      · obtain rfl := Option.some.inj (ha.symm.trans ha')
        exact ⟨_, hb, hs⟩
      · obtain rfl := Option.some.inj (ha.symm.trans ha')
        exact ⟨_, hb, by rwa [Tree.status_withoutChild]⟩

/-- The state once a node without children has been freed. -/
def State.freed (st : State) (levels : Nat) (id : NodeId) : State :=
  State.said { st with tree := (Tree.freeUp levels st.tree id).2 }
    ((Tree.freeUp levels st.tree id).1.map .release)

/-- Whatever is not the parent of the node that went away rests if it did before. -/
theorem rests_pruned (h : Good t) (hrest : RestsBut t id) (hn : t.get? id = some n) {k : Nat}
    {b : Node} (hb : (t.pruned id n).get? k = some b) (hne : n.parent ≠ some k) : Rests b := by
  obtain ⟨hself, a, ha, ⟨rfl, -⟩ | ⟨hparent, -⟩⟩ := (h.sound.pruned hn).back hb
  · exact hrest ha hself
  · exact absurd hparent hne

/-- A parent that is not starting its children rests as long as one of them is left. -/
theorem rests_withoutChild {m : Node} {i : Nat} (hm : Rests m)
    (hkept : decide ((Tree.withoutChild m i).childIds = [] ∧ m.status ≠ .persistent) = false) :
    Rests (Tree.withoutChild m i) := by
  refine ⟨by simpa using hm.1, fun hs => ?_⟩
  rw [Tree.status_withoutChild] at hs
  simpa [hs] using hkept

theorem freed_of_top (hn : st.tree.get? id = some n) (hchildless : n.childIds = [])
    (hparent : n.parent = none) (levels : Nat) :
    st.freed levels id = State.said { st with tree := st.tree.pruned id n } [.release id] := by
  cases levels <;>
    simp only [State.freed, Tree.freeUp_of_childless hn hchildless, hparent, Tree.pruned,
      List.map_cons, List.map_nil]

/-- A parent that is left empty and is not persistent has nothing to ask for any more. -/
theorem Good.status_emptied (h : Good st.tree) {p i : Nat} {m : Node} (hm : st.tree.get? p = some m)
    (hi : m.child? i = some id) (hnone : (Tree.withoutChild m i).childIds = [])
    (hpersistent : m.status ≠ .persistent) {t' : Tree} (hgood : Good t')
    (hp : t'.get? p = some (Tree.withoutChild m i)) :
    (Tree.withoutChild m i).status = .childrenPresent := by
  rw [Tree.status_withoutChild]
  have hslots : m.slots? ≠ none := fun heq => by simp [Node.child?, heq] at hi
  have hnotasked : m.status ≠ .superqueryPending := by
    intro hs
    refine hgood.staged.asked hp (by simpa using hs) ?_
    rw [pendingQueries_eq, hnone, List.filterMap_nil]
  have hfits := h.staged.fits hm
  rcases hfits.status with hs | hs | hs | hs | hs | hs
  · exact absurd (hfits.fresh (Or.inl hs)) hslots
  · exact absurd (hfits.fresh (Or.inr (Or.inl hs))) hslots
  · exact absurd (hfits.fresh (Or.inr (Or.inr hs))) hslots
  · exact absurd hs hpersistent
  · exact hs
  · exact absurd hs hnotasked

/-- Freeing upwards makes moves, and nothing that it passes is left empty. -/
theorem moves_freed (levels : Nat) (h : Good st.tree) (hrest : RestsBut st.tree id)
    (hn : st.tree.get? id = some n) (hchildless : n.childIds = [])
    (hstatus : n.status = .present ∧ n.inner? = none ∨ n.status = .childrenPresent)
    (hlevels : treeDepth st.tree.fileSize ≤ levels + n.depth) :
    Moves env st (st.freed levels id) ∧ AllRest (st.freed levels id).tree ∧
      Frame (fun _ => False) st.tree (st.freed levels id).tree := by
  induction levels generalizing st id n with
  | zero =>
    have hparent : n.parent = none := by
      by_contra hne
      obtain ⟨p, hp⟩ := Option.ne_none_iff_exists'.1 hne
      obtain ⟨m, i, hm, -, hdepth, -, -⟩ := h.sound.parent hn hp
      have hle := (h.sound.shaped hm).place.level_le
      omega
    rw [freed_of_top hn hchildless hparent]
    exact ⟨.single (.prune hn hchildless hstatus),
      fun hb => rests_pruned h hrest hn hb (by simp [hparent]),
      h.frame_pruned hn (by rcases hstatus with ⟨hs, -⟩ | hs <;> simp [hs])
        (by rcases hstatus with ⟨hs, -⟩ | hs <;> simp [hs])⟩
  | succ levels ih =>
    have hprune : Moves env st (State.said { st with tree := st.tree.pruned id n } [.release id]) :=
      .single (.prune hn hchildless hstatus)
    have hframe := h.frame_pruned hn (by rcases hstatus with ⟨hs, -⟩ | hs <;> simp [hs])
      (by rcases hstatus with ⟨hs, -⟩ | hs <;> simp [hs])
    have hgood := h.moves hprune
    cases hparent : n.parent with
    | none =>
      rw [freed_of_top hn hchildless hparent]
      exact ⟨hprune, fun hb => rests_pruned h hrest hn hb (by simp [hparent]), hframe⟩
    | some p =>
      obtain ⟨m, i, hm, hi, hne, hpruned, hkept, hflag⟩ := h.sound.detach hn hparent
      have hp : (st.tree.pruned id n).get? p = some (Tree.withoutChild m i) := by
        rw [hpruned, Tree.get?_set hkept, if_pos rfl]
      have hdetached : ((st.tree.cleared id).detach p n.position).2 = st.tree.pruned id n := by
        simp only [Tree.pruned, hparent]
      have hrestp : RestsBut (st.tree.pruned id n) p := fun hb hk =>
        rests_pruned h hrest hn hb (by simpa [hparent] using Ne.symm hk)
      cases hempty : decide ((Tree.withoutChild m i).childIds = [] ∧ m.status ≠ .persistent) with
      | false =>
        have hfreed : st.freed (levels + 1) id =
            State.said { st with tree := st.tree.pruned id n } [.release id] := by
          simp only [State.freed, Tree.freeUp_of_kept hn hchildless hparent (hflag.trans hempty),
            hdetached, List.map_cons, List.map_nil]
        rw [hfreed]
        refine ⟨hprune, fun {k b} hb => ?_, hframe⟩
        by_cases hk : k = p
        · subst hk
          obtain rfl := Option.some.inj (hb.symm.trans hp)
          exact rests_withoutChild (hrest hm hne) hempty
        · exact hrestp hb hk
      | true =>
        obtain ⟨hnone, hnotpersistent⟩ := of_decide_eq_true hempty
        have hfreed : st.freed (levels + 1) id = State.freed
            (State.said { st with tree := st.tree.pruned id n } [.release id]) levels p := by
          simp only [State.freed, Tree.freeUp_of_childless hn hchildless, hparent,
            hflag.trans hempty, hdetached, State.said, List.map_cons]
          simp
        rw [hfreed]
        have hmstatus := h.status_emptied hm hi hnone hnotpersistent hgood hp
        have hlevels' : treeDepth (st.tree.pruned id n).fileSize ≤
            levels + (Tree.withoutChild m i).depth := by
          obtain ⟨b, j, hb, -, hdepth, -, -⟩ := h.sound.parent hn hparent
          obtain rfl := Option.some.inj (hb.symm.trans hm)
          rw [(h.sound.pruned hn).fileSize, Tree.depth_withoutChild]
          omega
        obtain ⟨hmoves, hrest', hframe'⟩ := ih hgood hrestp hp hnone (Or.inr hmstatus) hlevels'
        exact ⟨hprune.trans hmoves, hrest', (hframe.trans hframe').congr fun k => by simp⟩

end Prune

end Download

end ContentTree

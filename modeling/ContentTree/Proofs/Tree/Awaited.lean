import ContentTree.Proofs.Tree.Staged

/-!
# What is still awaited

A place is awaited as long as a node above it or at it is still to be found. The only moves that
change this are those that take a block, and what they take away is the place of that block.
-/

namespace ContentTree

/-- The node stands for all it covers until its block is known, and for what is below it until it has
children. -/
def Node.Awaits (n : Node) (level : Nat) : Prop :=
  n.status = .created ∨ n.status = .pending ∨ n.status = .present ∧ level < n.depth

namespace Download

variable {env : Env} {heard : Option (Nat × Block)} {st st' : State} {t t' : Tree}
  {id level position : Nat} {n m : Node}

def Awaited (t : Tree) (level position : Nat) : Prop :=
  ∃ (k : Nat) (b : Node), t.get? k = some b ∧ b.Awaits level ∧
    Covers b.depth b.position level position

section Awaits

theorem awaits_of_started (h : n.status = .created ∨ n.status = .pending) (level : Nat) :
    n.Awaits level := by
  rcases h with hs | hs
  · exact .inl hs
  · exact .inr (.inl hs)

theorem not_awaits (h : n.status = .persistent ∨ n.status = .childrenPresent ∨
    n.status = .superqueryPending) (level : Nat) : ¬ n.Awaits level := by
  rintro (hs | hs | ⟨hs, -⟩) <;> rcases h with h | h | h <;> rw [hs] at h <;> cases h

theorem awaits_admitted (data : Block) (level : Nat) :
    (n.admitted data).Awaits level ↔ level < n.depth := by
  simp [Node.Awaits, (like_admitted data n).depth]

theorem Good.childless (h : Good t) (hn : t.get? id = some n) (hawaits : n.Awaits level) :
    n.childIds = [] := by
  apply Node.childIds_of_slots?_eq_none
  apply (h.staged.fits hn).fresh
  rcases hawaits with hs | hs | ⟨hs, -⟩ <;> simp [hs]

/-- What is below a node or at it is awaited by no node above. -/
theorem Good.awaits_self (h : Good t) (hn : t.get? id = some n) {k : Nat} {b : Node}
    (hb : t.get? k = some b) (hawaits : b.Awaits level)
    (hcovers : Covers b.depth b.position n.depth n.position) : k = id := by
  have hle := (h.sound.shaped hb).place.level_le
  obtain ⟨a, c, hc, hdepth, hchildren, hbelow⟩ := h.sound.ancestor hn hcovers.below_le hle
  have hself := hbelow n.depth n.position (covers_self _ _)
  have hdvd := (h.sound.shaped hc).place.dvd
  rw [hdepth] at hself hdvd
  have hposition := Covers.unique hdvd (h.sound.shaped hb).place.dvd hself hcovers
  obtain rfl := h.sound.unique hc hb hdepth hposition
  rcases hchildren with heq | hchildren
  · exact heq
  · obtain rfl := Option.some.inj (hc.symm.trans hb)
    exact absurd (h.childless hb hawaits) hchildren

end Awaits

theorem awaited_congr (h : ∀ k : Nat, t'.get? k = t.get? k) :
    Awaited t' level position ↔ Awaited t level position := by
  simp only [Awaited, h]

/-- What is awaited changes with a node just as what the node itself awaits. -/
theorem awaited_set (hn : t.get? id = some n) (hlike : n.Like m)
    (hsame : m.Awaits level ↔ n.Awaits level) :
    Awaited (t.set id m) level position ↔ Awaited t level position := by
  constructor
  · rintro ⟨k, b, hb, hawaits, hcovers⟩
    rw [Tree.get?_set hn] at hb
    split at hb
    · obtain rfl := Option.some.inj hb
      rw [hlike.depth, hlike.position] at hcovers
      exact ⟨id, n, hn, hsame.1 hawaits, hcovers⟩
    · exact ⟨k, b, hb, hawaits, hcovers⟩
  · rintro ⟨k, b, hb, hawaits, hcovers⟩
    by_cases hk : k = id
    · subst hk
      obtain rfl := Option.some.inj (hb.symm.trans hn)
      rw [← hlike.depth, ← hlike.position] at hcovers
      exact ⟨k, m, by rw [Tree.get?_set hn, if_pos rfl], hsame.2 hawaits, hcovers⟩
    · exact ⟨k, b, by rw [Tree.get?_set hn, if_neg hk, hb], hawaits, hcovers⟩

theorem Good.awaited_admitted (h : Good t) (hn : t.get? id = some n)
    (hstatus : n.status = .created ∨ n.status = .pending) (data : Block)
    (hplace : Place t.fileSize level position) :
    Awaited (t.set id (n.admitted data)) level position ↔
      Awaited t level position ∧ ¬ (level = n.depth ∧ position = n.position) := by
  have hlike := like_admitted data n
  constructor
  · rintro ⟨k, b, hb, hawaits, hcovers⟩
    rw [Tree.get?_set hn] at hb
    split at hb
    · obtain rfl := Option.some.inj hb
      rw [awaits_admitted] at hawaits
      rw [hlike.depth, hlike.position] at hcovers
      refine ⟨⟨id, n, hn, awaits_of_started hstatus level, hcovers⟩, ?_⟩
      rintro ⟨heq, -⟩
      omega
    · rename_i hk
      refine ⟨⟨k, b, hb, hawaits, hcovers⟩, ?_⟩
      rintro ⟨rfl, rfl⟩
      exact hk (h.awaits_self hn hb hawaits hcovers)
  · rintro ⟨⟨k, b, hb, hawaits, hcovers⟩, hne⟩
    by_cases hk : k = id
    · subst hk
      obtain rfl := Option.some.inj (hb.symm.trans hn)
      refine ⟨k, b.admitted data, by rw [Tree.get?_set hn, if_pos rfl], ?_, ?_⟩
      · rw [awaits_admitted]
        have hle := hcovers.below_le
        rcases Nat.lt_or_ge level b.depth with hlt | hge
        · exact hlt
        · obtain rfl : level = b.depth := by omega
          have hposition := hcovers.eq_of_level (h.sound.shaped hn).place.dvd hplace.dvd
          exact absurd ⟨rfl, hposition.symm⟩ hne
      · rw [hlike.depth, hlike.position]
        exact hcovers
    · exact ⟨k, b, by rw [Tree.get?_set hn, if_neg hk, hb], hawaits, hcovers⟩

theorem Good.awaited_told {s : Suite} {p slot : Nat} (h : Good t) (hn : t.get? id = some n)
    (hstatus : n.status = .created ∨ n.status = .pending) (hp : n.parent = some p)
    (hm : t.get? p = some m) (data : Block) (hplace : Place t.fileSize level position) :
    Awaited (Download.told (t.set id (n.admitted data)) p
        (m.recorded s slot (n.admitted data))).1 level position ↔
      Awaited t level position ∧ ¬ (level = n.depth ∧ position = n.position) := by
  have hbefore := h.parent_status hn hstatus hp hm
  obtain ⟨-, hm', status, _, htree, -, htells⟩ := h.told_parent hn hstatus hp hm s slot data
  have hlike : m.Like { m.recorded s slot (n.admitted data) with status := status } :=
    (like_recorded s slot (n.admitted data)).trans (like_status _ status)
  rw [htree, ← h.awaited_admitted hn hstatus data hplace]
  apply awaited_set hm' hlike
  have hquiet' : m.status = .persistent ∨ m.status = .childrenPresent ∨
      m.status = .superqueryPending := by
    rcases hbefore with hs | hs <;> simp [hs]
  exact iff_of_false (not_awaits htells.status level) (not_awaits hquiet' level)

theorem Good.awaited_unfold {ids : List NodeId} (h : Good t) (hn : t.get? id = some n)
    (hstatus : n.status = .present) (hinner : n.isInner)
    (hchildren : (t.set id { n with status := .persistent }).allocateChildren id = (some ids, t'))
    (hplace : Place t.fileSize level position) :
    Awaited t' level position ↔ Awaited t level position := by
  obtain ⟨i, hi⟩ := Option.isSome_iff_exists.1 hinner
  have hgood := h.unfold hn hstatus hinner hchildren
  obtain ⟨-, hunfold⟩ := h.unfolded hn hstatus hi hchildren
  have hself := hunfold.get?_self
  have hshape := h.sound.shaped hn
  have hdepth : 0 < n.depth := hshape.isSome_inner?.1 hinner
  constructor
  · rintro ⟨k, b, hb, hawaits, hcovers⟩
    rcases hunfold.back hb with ⟨-, rfl⟩ | ⟨j, -, -, rfl⟩ | ⟨-, hold⟩
    · exact absurd hawaits (not_awaits (.inl rfl) level)
    · have hlike := like_newChild id n i j
      have hparent : (Tree.newChild id n i j).parent = some id := by
        rw [hlike.parent, Node.parent_new]
      have hbdepth : (Tree.newChild id n i j).depth = i.depth - 1 := by
        rw [hlike.depth, Node.depth_new]
      have habove := hgood.sound.covers_parent hb hparent hself hcovers
      rw [hunfold.depth, hunfold.position] at habove
      have hle := hcovers.below_le
      rw [Node.depth_of_inner hi] at hdepth
      refine ⟨id, n, hn, .inr (.inr ⟨hstatus, ?_⟩), habove⟩
      rw [Node.depth_of_inner hi]
      omega
    · exact ⟨k, b, hold, hawaits, hcovers⟩
  · rintro ⟨k, b, hb, hawaits, hcovers⟩
    by_cases hk : k = id
    · subst hk
      obtain rfl := Option.some.inj (hb.symm.trans hn)
      have hlt : level < b.depth := by
        rcases hawaits with hs | hs | ⟨-, hlt⟩
        · rw [hs] at hstatus
          cases hstatus
        · rw [hs] at hstatus
          cases hstatus
        · exact hlt
      obtain ⟨below, hbelow⟩ : ∃ below, b.depth = below + 1 := ⟨b.depth - 1, by omega⟩
      have hat := hshape.place
      rw [hbelow] at hat hcovers
      obtain ⟨j, hj, hchild⟩ := hcovers.child h.sound.fileSize_le hat hplace (by omega)
      have hidepth : i.depth = below + 1 := by rw [← Node.depth_of_inner hi, hbelow]
      rw [← hidepth, ← (hshape.inner i hi).2.1] at hj
      have hlike := like_newChild k b i j
      have hnew := hunfold.get? (t.nodes.size + j)
      have hold := Tree.lt_size_of_get? hn
      rw [if_neg (by omega), if_pos (by omega), Nat.add_sub_cancel_left] at hnew
      refine ⟨_, _, hnew, .inl (status_newChild k b i j), ?_⟩
      rw [hlike.depth, hlike.position, Node.depth_new, Node.position_new, hidepth,
        Nat.add_sub_cancel, coverage_eq_span (hat.level_lt h.sound.fileSize_le)]
      exact hchild
    · exact ⟨k, b, hunfold.get?_of_old hb hk, hawaits, hcovers⟩

theorem Good.awaited_prune (h : Good t) (hn : t.get? id = some n)
    (hstatus : n.status = .present ∧ n.inner? = none ∨ n.status = .childrenPresent) :
    Awaited (t.pruned id n) level position ↔ Awaited t level position := by
  have hpruned := h.sound.pruned hn
  have hquiet : ∀ level, ¬ n.Awaits level := by
    intro level hawaits
    rcases hstatus with ⟨hs, hleaf⟩ | hs
    · have hzero := Node.depth_of_leaf hleaf
      rcases hawaits with hs' | hs' | ⟨-, hlt⟩
      · rw [hs] at hs'
        cases hs'
      · rw [hs] at hs'
        cases hs'
      · omega
    · exact not_awaits (.inr (.inl hs)) level hawaits
  have hsame : ∀ {k : Nat} {a b : Node}, t.get? k = some a → (t.pruned id n).get? k = some b →
      b.status = a.status ∧ b.depth = a.depth ∧ b.position = a.position := by
    intro k a b ha hb
    obtain ⟨-, a', ha', ⟨rfl, -⟩ | ⟨-, i, -, rfl⟩⟩ := hpruned.back hb
    · obtain rfl := Option.some.inj (ha.symm.trans ha')
      exact ⟨rfl, rfl, rfl⟩
    · obtain rfl := Option.some.inj (ha.symm.trans ha')
      exact ⟨Tree.status_withoutChild a i, Tree.depth_withoutChild a i,
        Tree.position_withoutChild a i⟩
  constructor
  · rintro ⟨k, b, hb, hawaits, hcovers⟩
    obtain ⟨-, a, ha, -⟩ := hpruned.back hb
    obtain ⟨hs, hdepth, hposition⟩ := hsame ha hb
    refine ⟨k, a, ha, ?_, ?_⟩
    · rwa [Node.Awaits, ← hs, ← hdepth]
    · rwa [← hdepth, ← hposition]
  · rintro ⟨k, a, ha, hawaits, hcovers⟩
    have hne : k ≠ id := by
      rintro rfl
      obtain rfl := Option.some.inj (ha.symm.trans hn)
      exact hquiet level hawaits
    obtain ⟨b, hb⟩ := hpruned.forth ha hne
    obtain ⟨hs, hdepth, hposition⟩ := hsame ha hb
    refine ⟨k, b, hb, ?_, ?_⟩
    · rwa [Node.Awaits, hs, hdepth]
    · rwa [hdepth, hposition]

/-- A move leaves alone what is known, or it takes a block, and then the place of the block is no
longer awaited. -/
inductive Effect (env : Env) (heard : Option (Nat × Block)) (st st' : State) : Prop
  | quiet (hdisk : st'.disk = st.disk) (hmeter : st'.meter = st.meter)
      (hawaited : ∀ level position, Place st.tree.fileSize level position →
        (Awaited st'.tree level position ↔ Awaited st.tree level position))
  | known {id : Nat} {n : Node} {data : Block} (hn : st.tree.get? id = some n)
      (hknown : Evidence env heard st id n data st'.disk) (hmeter : st'.meter = metered st.meter n)
      (hawaited : ∀ level position, Place st.tree.fileSize level position →
        (Awaited st'.tree level position ↔
          Awaited st.tree level position ∧ ¬ (level = n.depth ∧ position = n.position)))

theorem Good.effect (h : Good st.tree) (hmove : Move env heard st st') :
    Effect env heard st st' := by
  cases hmove with
  | pad hpad => exact .quiet rfl rfl fun _ _ _ => awaited_congr hpad.get?
  | defer hn hstatus =>
    refine .quiet rfl rfl fun level _ _ => awaited_set hn (like_status _ .pending) ?_
    exact iff_of_true (.inr (.inl rfl)) (.inl hstatus)
  | crown hn hparent hknown _ =>
    exact .known hn hknown rfl fun _ _ hplace => h.awaited_admitted hn hknown.status _ hplace
  | adopt hn hparent hm _ hknown _ =>
    exact .known hn hknown rfl fun _ _ hplace =>
      h.awaited_told hn hknown.status hparent hm _ hplace
  | unfold hn hstatus hinner hchildren =>
    exact .quiet rfl rfl fun _ _ hplace => h.awaited_unfold hn hstatus hinner hchildren hplace
  | settle hn hstatus _ =>
    refine .quiet rfl rfl fun level _ _ => ?_
    have hbefore := not_awaits (.inl hstatus) level
    simp only [State.said, settled]
    split <;> refine awaited_set hn (like_status _ _) (iff_of_false (not_awaits ?_ level) hbefore)
    · exact .inr (.inl rfl)
    · exact .inr (.inr rfl)
  | prune hn _ hstatus => exact .quiet rfl rfl fun _ _ _ => h.awaited_prune hn hstatus

theorem Good.not_awaited (h : Good t) (hroot : t.root = none) : ¬ Awaited t level position := by
  rintro ⟨k, b, hb, -⟩
  rw [h.sound.empty hroot k] at hb
  cases hb

end Download

end ContentTree

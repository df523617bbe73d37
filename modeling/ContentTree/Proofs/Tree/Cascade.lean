import ContentTree.Proofs.Tree.Arrangement

/-!
# What freeing takes away

A node goes with all that hangs below it, and with it goes every ancestor that this leaves without
children, up to the first that is persistent or has others. Nothing else goes, no node goes twice,
and the recursion ends by itself: the levels that bound it are never used up.
-/

namespace ContentTree

namespace Tree

variable {t t' u : Tree} {id k p : Nat} {n m : Node} {levels : Nat}

/-! ### Freeing without a bound -/

def unrooted (t : Tree) (id : NodeId) : Tree :=
  if t.root = some id then { t with root := none } else t

mutual

/-- Freeing a node comes to an end. It frees these nodes, in this order, and leaves this tree. -/
inductive Frees : Tree → NodeId → List NodeId → Tree → Prop
  | unknown {t : Tree} {id : NodeId} (h : t.get? id = none) : Frees t id [] t
  | known {t u t' : Tree} {id : NodeId} {n : Node} {below above : List NodeId}
      (hn : t.get? id = some n) (hbelow : FreesEach (t.erase id) n.childIds below u)
      (habove : Tells (u.unrooted id) n above t') : Frees t id (id :: (below ++ above)) t'

inductive FreesEach : Tree → List NodeId → List NodeId → Tree → Prop
  | nil {t : Tree} : FreesEach t [] [] t
  | cons {t u t' : Tree} {id : NodeId} {ids first rest : List NodeId} (hfirst : Frees t id first u)
      (hrest : FreesEach u ids rest t') : FreesEach t (id :: ids) (first ++ rest) t'

/-- The parent of a node that has gone is told, and is freed if that leaves it empty. -/
inductive Tells : Tree → Node → List NodeId → Tree → Prop
  | top {t : Tree} {n : Node} (hparent : n.parent = none) : Tells t n [] t
  | stays {t : Tree} {n : Node} {p : NodeId} (hparent : n.parent = some p)
      (hstays : (t.detach p n.position).1 = false) : Tells t n [] (t.detach p n.position).2
  | goes {t t' : Tree} {n : Node} {p : NodeId} {freed : List NodeId} (hparent : n.parent = some p)
      (hgoes : (t.detach p n.position).1 = true)
      (hfrees : Frees (t.detach p n.position).2 p freed t') : Tells t n freed t'

end

theorem Frees.unique {freed : List NodeId} (h : Frees t id freed t') :
    ∀ {freed' u}, Frees t id freed' u → freed' = freed ∧ u = t' := by
  refine @Frees.rec
    (fun t id freed t' _ => ∀ {freed' u}, Frees t id freed' u → freed' = freed ∧ u = t')
    (fun t ids freed t' _ => ∀ {freed' u}, FreesEach t ids freed' u → freed' = freed ∧ u = t')
    (fun t n freed t' _ => ∀ {freed' u}, Tells t n freed' u → freed' = freed ∧ u = t')
    ?unknown ?known ?nil ?cons ?top ?stays ?goes t id freed t' h
  case unknown =>
    intro t id hnone freed' u h
    cases h with
    | unknown => exact ⟨rfl, rfl⟩
    | known hn => cases hnone.symm.trans hn
  case known =>
    intro t v t' id n below above hn _ _ hbelow habove freed' u h
    cases h with
    | unknown hnone => cases hnone.symm.trans hn
    | known hn' hbelow' habove' =>
      obtain rfl := Option.some.inj (hn.symm.trans hn')
      obtain ⟨rfl, rfl⟩ := hbelow hbelow'
      obtain ⟨rfl, rfl⟩ := habove habove'
      exact ⟨rfl, rfl⟩
  case nil =>
    intro t freed' u h
    cases h
    exact ⟨rfl, rfl⟩
  case cons =>
    intro t v t' id ids first rest _ _ hfirst hrest freed' u h
    cases h with
    | cons hfirst' hrest' =>
      obtain ⟨rfl, rfl⟩ := hfirst hfirst'
      obtain ⟨rfl, rfl⟩ := hrest hrest'
      exact ⟨rfl, rfl⟩
  case top =>
    intro t n hp freed' u h
    cases h with
    | top => exact ⟨rfl, rfl⟩
    | stays hp' => cases hp.symm.trans hp'
    | goes hp' => cases hp.symm.trans hp'
  case stays =>
    intro t n p hp hstays freed' u h
    cases h with
    | top hp' => cases hp.symm.trans hp'
    | stays hp' =>
      obtain rfl := Option.some.inj (hp.symm.trans hp')
      exact ⟨rfl, rfl⟩
    | goes hp' hgoes =>
      obtain rfl := Option.some.inj (hp.symm.trans hp')
      cases hstays.symm.trans hgoes
  case goes =>
    intro t t' n p freed hp hgoes _ hfrees freed' u h
    cases h with
    | top hp' => cases hp.symm.trans hp'
    | stays hp' hstays =>
      obtain rfl := Option.some.inj (hp.symm.trans hp')
      cases hstays.symm.trans hgoes
    | goes hp' _ hfrees' =>
      obtain rfl := Option.some.inj (hp.symm.trans hp')
      exact hfrees hfrees'

/-! ### Going down -/

/-- What freeing downwards relies on in a tree, and leaves as it is. -/
structure Hanging (t : Tree) : Prop where
  descends : t.Descends
  back : ∀ {k c : Nat} {n m}, t.get? k = some n → c ∈ n.childIds → t.get? c = some m →
    m.parent = some k
  root : ∀ {k p : Nat} {n}, t.get? k = some n → n.parent = some p → t.root ≠ some k

theorem Hanging.of_freed {freed : List NodeId} (h : t.Hanging) (hfreed : Freed t freed t') :
    t'.Hanging where
  descends := h.descends.of_freed hfreed
  back hn hc hm := h.back (hfreed.get?_of_some hn) hc (hfreed.get?_of_some hm)
  root hn hp := hfreed.root ▸ h.root (hfreed.get?_of_some hn) hp

theorem Sound.hanging (h : t.Sound) : t.Hanging where
  descends := h.descends
  back hn hc hm := by
    obtain ⟨i, hi⟩ := Node.mem_childIds.1 hc
    obtain ⟨m', hm', hparent, -⟩ := h.down hn hi
    obtain rfl := Option.some.inj (hm.symm.trans hm')
    exact hparent
  root hn hp hroot := by
    rw [(h.root_iff hn).2 hroot] at hp
    cases hp

theorem unrooted_of_ne (h : t.root ≠ some id) : t.unrooted id = t := if_neg h

/-- A parent that has gone before is not told of anything. -/
theorem tells_of_gone (hp : n.parent = some p) (hgone : t.get? p = none) : Tells t n [] t := by
  have hdetach : t.detach p n.position = (false, t) := by simp only [detach, hgone]
  simpa only [hdetach] using Tells.stays (t := t) hp (by rw [hdetach])

theorem freesEach_of_gone {ids : List NodeId} (hgone : ∀ c ∈ ids, t.get? c = none) :
    FreesEach t ids [] t := by
  induction ids with
  | nil => exact .nil
  | cons c ids ih =>
    exact .cons (.unknown (hgone c (by simp))) (ih fun d hd => hgone d (by simp [hd]))

/-- The nodes below a node are freed while it is gone itself. -/
theorem Hanging.frees_of_gone {below : List NodeId} (h : t.Hanging) (hn : t.get? id = some n)
    (hp : n.parent = some p) (hgone : t.get? p = none)
    (hfreed : (freeBelow levels t id).1 = id :: below)
    (hbelow : FreesEach (t.erase id) n.childIds below (freeBelow levels t id).2) :
    Frees t id (freeBelow levels t id).1 (freeBelow levels t id).2 := by
  have hfreeBelow := freed_freeBelow levels t id
  have hparent : (freeBelow levels t id).2.get? p = none := by
    rw [hfreeBelow.get?, hgone, ite_self]
  have hroot : (freeBelow levels t id).2.root ≠ some id := hfreeBelow.root ▸ h.root hn hp
  rw [hfreed, ← List.append_nil below]
  refine .known hn hbelow ?_
  rw [unrooted_of_ne hroot]
  exact tells_of_gone hp hparent

theorem Hanging.freesEach {ids : List NodeId}
    (hfree : ∀ {v : Tree} {c m}, v.Hanging → v.get? c = some m → m.depth ≤ levels →
      ∃ below, (freeBelow levels v c).1 = c :: below ∧
        FreesEach (v.erase c) m.childIds below (freeBelow levels v c).2)
    (h : t.Hanging) (hgone : t.get? p = none)
    (hids : ∀ c ∈ ids, ∀ m, t.get? c = some m → m.parent = some p ∧ m.depth ≤ levels) :
    FreesEach t ids (Tree.freeEach (freeBelow levels) t ids).1
      (Tree.freeEach (freeBelow levels) t ids).2 := by
  induction ids generalizing t with
  | nil => exact .nil
  | cons c ids ih =>
    have hfreed := freed_freeBelow levels t c
    refine .cons (u := (freeBelow levels t c).2) ?_ (ih (h.of_freed hfreed) ?_ fun d hd m hm =>
      hids d (by simp [hd]) m (hfreed.get?_of_some hm))
    · cases hc : t.get? c with
      | none =>
        rw [freeBelow_of_get?_eq_none hc]
        exact .unknown hc
      | some m =>
        obtain ⟨hparent, hdepth⟩ := hids c (by simp) m hc
        obtain ⟨below, hbelow, heach⟩ := hfree h hc hdepth
        exact h.frees_of_gone hc hparent hgone hbelow heach
    · rw [hfreed.get?, hgone, ite_self]

theorem Hanging.lower {c : NodeId} (h : t.Hanging) (hn : t.get? id = some n) (hc : c ∈ n.childIds)
    (hm : (t.erase id).get? c = some m) : m.parent = some id ∧ m.depth < n.depth := by
  have hget := (freed_erase t id).get?_of_some hm
  exact ⟨h.back hn hc hget, h.descends id n c m hn hc hget⟩

/-- The levels that bound the recursion downwards are not used up. -/
theorem Hanging.freesEach_freeBelow (h : t.Hanging) (hn : t.get? id = some n)
    (hdepth : n.depth ≤ levels) : ∃ below, (freeBelow levels t id).1 = id :: below ∧
      FreesEach (t.erase id) n.childIds below (freeBelow levels t id).2 := by
  induction levels generalizing t id n with
  | zero =>
    rw [freeBelow_zero hn]
    refine ⟨[], rfl, freesEach_of_gone fun c hc => Option.eq_none_iff_forall_not_mem.2 fun m hm => ?_⟩
    have hlt := (h.lower hn hc hm).2
    omega
  | succ levels ih =>
    rw [freeBelow_succ hn]
    refine ⟨_, rfl, (h.of_freed (freed_erase t id)).freesEach (p := id)
      (fun hv hc hle => ih hv hc hle) (by rw [get?_erase, if_pos rfl]) fun c hc m hm => ?_⟩
    obtain ⟨hparent, hlt⟩ := h.lower hn hc hm
    exact ⟨hparent, by omega⟩

/-! ### Going up -/

/-- The ancestors that go when `id` goes, and the first one that stays. -/
inductive Emptied (t : Tree) : NodeId → List NodeId → Option NodeId → Prop
  | top {id : NodeId} {n : Node} (hn : t.get? id = some n) (hparent : n.parent = none) :
      Emptied t id [] none
  | stays {id p : NodeId} {n m : Node} (hn : t.get? id = some n) (hparent : n.parent = some p)
      (hm : t.get? p = some m) (hstays : m.status = .persistent ∨ m.childIds ≠ [id]) :
      Emptied t id [] (some p)
  | goes {id p : NodeId} {n m : Node} {above : List NodeId} {spared : Option NodeId}
      (hn : t.get? id = some n) (hparent : n.parent = some p) (hm : t.get? p = some m)
      (hstatus : m.status ≠ .persistent) (honly : m.childIds = [id])
      (habove : Emptied t p above spared) : Emptied t id (p :: above) spared

/-- What the freed nodes are and what is left of the others. -/
structure Removed (t : Tree) (id : NodeId) (above : List NodeId) (spared : Option NodeId)
    (freed : List NodeId) (t' : Tree) : Prop where
  nodup : freed.Nodup
  mem_iff : ∀ k, k ∈ freed ↔ t.Below id k ∨ k ∈ above
  live : ∀ k ∈ freed, t.contains k
  gone : ∀ k ∈ freed, t'.get? k = none
  /-- The first ancestor that stays loses its slot for the last node of the chain. -/
  loses : ∀ p, spared = some p → ∃ m inner slot, t.get? p = some m ∧ m.inner? = some inner ∧
    0 < inner.live ∧ m.child? slot = some ((id :: above).getLast (List.cons_ne_nil id above)) ∧
    t'.get? p = some (withoutChild m slot)
  other : ∀ k, k ∉ freed → spared ≠ some k → t'.get? k = t.get? k
  root : t'.root = t.root.filter (· ∉ freed)
  fileSize : t'.fileSize = t.fileSize
  size : t'.nodes.size = t.nodes.size

theorem trimmed_eq (t : Tree) (id : NodeId) (n : Node) :
    t.trimmed id n = (freeBelow n.depth t id).2.unrooted id := by
  rw [trimmed, unrooted, (freed_freeBelow n.depth t id).root]

theorem childIds_withoutChild_eq_nil {i : Nat} (hi : m.child? i = some id) :
    (withoutChild m i).childIds = [] ↔ m.childIds = [id] := by
  have hslots := slots?_withoutChild m i
  rw [Node.childIds, Node.childIds, hslots]
  cases hold : m.slots? with
  | none => simp [Node.child?, hold] at hi
  | some slots =>
    have hget : slots[i]?.join = some id := by simpa [Node.child?, hold] using hi
    rw [Option.join_eq_some_iff, List.getElem?_eq_some_iff] at hget
    obtain ⟨hlt, hget⟩ := hget
    have hsplit : slots = slots.take i ++ some id :: slots.drop (i + 1) := by
      rw [← hget, List.getElem_cons_drop, List.take_append_drop]
    simp only [Option.map_some, Option.getD_some]
    rw [List.set_eq_take_append_cons_drop, if_pos hlt]
    conv_rhs => rw [hsplit]
    simp [List.append_eq_singleton_iff]

/-- The parent goes with a node just if it is not persistent and has no other child. -/
theorem Sound.detach_trimmed (h : t.Sound) (hn : t.get? id = some n) (hp : n.parent = some p) :
    ∃ m, t.get? p = some m ∧ id ∈ m.childIds ∧
      ((t.trimmed id n).detach p n.position).1 =
        decide (m.childIds = [id] ∧ m.status ≠ .persistent) := by
  obtain ⟨m, i, hm, hi, -⟩ := h.parent hn hp
  refine ⟨m, hm, Node.mem_childIds.2 ⟨i, hi⟩, ?_⟩
  rw [h.detach_of_kept hn hm hi (h.get?_trimmed_parent hn hp hm)]
  simp only [childIds_withoutChild_eq_nil hi]

theorem free_of_unknown (h : t.get? id = none) : t.free id = ([], t) := by
  simp only [free, freeUp.eq_def, h]

theorem freeUp_top (hn : t.get? id = some n) (hp : n.parent = none) (levels : Nat) :
    freeUp levels t id = ((freeBelow n.depth t id).1, t.lopped id n) := by
  rw [freeUp.eq_def, lopped]
  simp only [hn, hp, trimmed_eq, unrooted]

theorem freeUp_stays (hn : t.get? id = some n) (hp : n.parent = some p)
    (hstays : ((t.trimmed id n).detach p n.position).1 = false) (levels : Nat) :
    freeUp levels t id = ((freeBelow n.depth t id).1, t.lopped id n) := by
  rw [trimmed_eq, unrooted] at hstays
  rw [freeUp.eq_def, lopped]
  simp only [hn, hp, trimmed_eq, unrooted, hstays]

theorem freeUp_goes (hn : t.get? id = some n) (hp : n.parent = some p)
    (hgoes : ((t.trimmed id n).detach p n.position).1 = true) (levels : Nat) :
    freeUp (levels + 1) t id = ((freeBelow n.depth t id).1 ++ (freeUp levels (t.lopped id n) p).1,
      (freeUp levels (t.lopped id n) p).2) := by
  rw [trimmed_eq, unrooted] at hgoes
  rw [freeUp.eq_def, lopped]
  simp only [hn, hp, trimmed_eq, unrooted, hgoes]

theorem Sound.sound_lopped (h : t.Sound) (hn : t.get? id = some n) : (t.lopped id n).Sound :=
  h.of_cut hn (h.cut hn).1

/-- Freeing upwards goes from a node to its parent as long as the parent is left empty. The levels
that bound it are not used up. -/
theorem Sound.freeUp_induction {result : Tree → NodeId → List NodeId → Tree → Prop}
    (top : ∀ {t id n}, t.Sound → t.get? id = some n → n.parent = none →
      result t id (freeBelow n.depth t id).1 (t.lopped id n))
    (stays : ∀ {t id n p m}, t.Sound → t.get? id = some n → n.parent = some p →
      t.get? p = some m → m.status = .persistent ∨ m.childIds ≠ [id] →
      ((t.trimmed id n).detach p n.position).1 = false →
      result t id (freeBelow n.depth t id).1 (t.lopped id n))
    (goes : ∀ {t id n p m freed t'}, t.Sound → t.get? id = some n → n.parent = some p →
      t.get? p = some m → m.status ≠ .persistent → m.childIds = [id] →
      ((t.trimmed id n).detach p n.position).1 = true →
      result (t.lopped id n) p freed t' →
      result t id ((freeBelow n.depth t id).1 ++ freed) t')
    (h : t.Sound) (hn : t.get? id = some n) (hlevels : treeDepth t.fileSize ≤ levels + n.depth) :
    result t id (freeUp levels t id).1 (freeUp levels t id).2 := by
  induction levels generalizing t id n with
  | zero =>
    have hparent : n.parent = none := Option.eq_none_iff_forall_not_mem.2 fun p hp => by
      obtain ⟨m, -, hm, -, hdepth, -, -⟩ := h.parent hn hp
      have hle := (h.shaped hm).place.level_le
      omega
    rw [freeUp_top hn hparent]
    exact top h hn hparent
  | succ levels ih =>
    cases hp : n.parent with
    | none =>
      rw [freeUp_top hn hp]
      exact top h hn hp
    | some p =>
      obtain ⟨m, hm, -, hflag⟩ := h.detach_trimmed hn hp
      by_cases hempty : m.childIds = [id] ∧ m.status ≠ .persistent
      · have hgoes := hflag.trans (decide_eq_true hempty)
        rw [freeUp_goes hn hp hgoes]
        refine goes h hn hp hm hempty.2 hempty.1 hgoes ?_
        obtain ⟨m', -, hm', -, hdepth, -, -⟩ := h.parent hn hp
        obtain rfl := Option.some.inj (hm.symm.trans hm')
        have hcut := (h.cut hn).1
        have hnot : ¬ t.Below id p := fun hbelow => by
          have hle := h.depth_le_of_below hn hbelow hm
          omega
        obtain ⟨b, hb⟩ := hcut.forth hm hnot
        obtain ⟨-, a, ha, -, hbdepth, -⟩ := h.back_of_cut hn hcut hb
        obtain rfl := Option.some.inj (hm.symm.trans ha)
        exact ih (h.sound_lopped hn) hb (by rw [hcut.fileSize]; omega)
      · have hstays := hflag.trans (decide_eq_false hempty)
        rw [freeUp_stays hn hp hstays]
        exact stays h hn hp hm (by tauto) hstays

theorem Sound.frees_freeUp (h : t.Sound) (hn : t.get? id = some n)
    (hlevels : treeDepth t.fileSize ≤ levels + n.depth) :
    Frees t id (freeUp levels t id).1 (freeUp levels t id).2 := by
  refine @Sound.freeUp_induction _ _ _ _ Frees ?top ?stays ?goes h hn hlevels
  case top =>
    intro t id n h hn hp
    obtain ⟨below, hfreed, hbelow⟩ := h.hanging.freesEach_freeBelow hn (Nat.le_refl _)
    rw [hfreed, ← List.append_nil below]
    refine .known hn hbelow ?_
    rw [lopped, hp, ← trimmed_eq]
    exact .top hp
  case stays =>
    intro t id n p m h hn hp _ _ hstays
    obtain ⟨below, hfreed, hbelow⟩ := h.hanging.freesEach_freeBelow hn (Nat.le_refl _)
    rw [hfreed, ← List.append_nil below]
    refine .known hn hbelow ?_
    rw [lopped, hp, ← trimmed_eq]
    exact .stays hp hstays
  case goes =>
    intro t id n p m freed t' h hn hp _ _ _ hgoes hfrees
    obtain ⟨below, hfreed, hbelow⟩ := h.hanging.freesEach_freeBelow hn (Nat.le_refl _)
    rw [hfreed, List.cons_append]
    refine .known hn hbelow ?_
    rw [← trimmed_eq]
    rw [lopped, hp] at hfrees
    exact .goes hp hgoes hfrees

/-! ### What is left -/

theorem nodup_freeEach {free : Tree → NodeId → List NodeId × Tree}
    (hfreed : ∀ t id, Freed t (free t id).1 (free t id).2)
    (hfree : ∀ t id, (free t id).1.Nodup ∧ ∀ k ∈ (free t id).1, t.contains k) (ids : List NodeId)
    (t : Tree) : (freeEach free t ids).1.Nodup ∧ ∀ k ∈ (freeEach free t ids).1, t.contains k := by
  induction ids generalizing t with
  | nil => simp [freeEach]
  | cons c ids ih =>
    obtain ⟨hfirst, hlive⟩ := hfree t c
    obtain ⟨hrest, hlive'⟩ := ih (free t c).2
    -- A node that is freed later is still there when the first child has been freed.
    have hlater : ∀ k ∈ (freeEach free (free t c).2 ids).1, k ∉ (free t c).1 ∧ t.contains k := by
      intro k hk
      obtain ⟨n, hn⟩ := Option.isSome_iff_exists.1 (hlive' k hk)
      refine ⟨fun hmem => ?_, Option.isSome_iff_exists.2 ⟨n, (hfreed t c).get?_of_some hn⟩⟩
      rw [(hfreed t c).get?, if_pos hmem] at hn
      cases hn
    refine ⟨List.nodup_append.2 ⟨hfirst, hrest, ?_⟩, fun k hk => ?_⟩
    · rintro k hk _ hk' rfl
      exact (hlater k hk').1 hk
    · rcases List.mem_append.1 hk with hk | hk
      · exact hlive k hk
      · exact (hlater k hk).2

theorem nodup_freeBelow (levels : Nat) (t : Tree) (id : NodeId) :
    (freeBelow levels t id).1.Nodup ∧ ∀ k ∈ (freeBelow levels t id).1, t.contains k := by
  induction levels generalizing t id with
  | zero =>
    cases hn : t.get? id with
    | none => simp [freeBelow_of_get?_eq_none hn]
    | some n => simp [freeBelow_zero hn, contains, hn]
  | succ levels ih =>
    cases hn : t.get? id with
    | none => simp [freeBelow_of_get?_eq_none hn]
    | some n =>
      obtain ⟨hnodup, hlive⟩ := nodup_freeEach (freed_freeBelow levels) ih n.childIds (t.erase id)
      have hothers : ∀ k ∈ (freeEach (freeBelow levels) (t.erase id) n.childIds).1,
          k ≠ id ∧ t.contains k := by
        intro k hk
        have hcontains := hlive k hk
        rw [contains, get?_erase] at hcontains
        split at hcontains
        · cases hcontains
        · rename_i hne
          exact ⟨hne, hcontains⟩
      rw [freeBelow_succ hn]
      refine ⟨List.nodup_cons.2 ⟨fun hmem => (hothers id hmem).1 rfl, hnodup⟩, fun k hk => ?_⟩
      rcases List.mem_cons.1 hk with rfl | hk
      · simp [contains, hn]
      · exact (hothers k hk).2

section Lopped

variable {above : List NodeId} {spared : Option NodeId}

theorem Sound.get?_lopped_of_below (h : t.Sound) (hn : t.get? id = some n) (hk : t.Below id k) :
    (t.lopped id n).get? k = none :=
  Option.eq_none_iff_forall_not_mem.2 fun _ hb => ((h.cut hn).1.back hb).1 hk

theorem Sound.get?_lopped (h : t.Sound) (hn : t.get? id = some n) (hk : ¬ t.Below id k)
    (hne : n.parent ≠ some k) : (t.lopped id n).get? k = t.get? k := by
  have hcut := (h.cut hn).1
  cases ha : t.get? k with
  | none =>
    refine Option.eq_none_iff_forall_not_mem.2 fun b hb => ?_
    obtain ⟨-, a, ha', -⟩ := hcut.back hb
    cases ha.symm.trans ha'
  | some a =>
    obtain ⟨b, hb⟩ := hcut.forth ha hk
    obtain ⟨-, a', ha', ⟨rfl, -⟩ | ⟨hp, -⟩⟩ := hcut.back hb
    · rw [hb, ← ha', ha]
    · exact absurd hp hne

theorem Sound.get?_lopped_parent (h : t.Sound) (hn : t.get? id = some n) (hp : n.parent = some p) :
    ∃ m i, t.get? p = some m ∧ m.child? i = some id ∧ n.depth + 1 = m.depth ∧
      (t.lopped id n).get? p = some (withoutChild m i) := by
  obtain ⟨m, -, hm, -, hdepth, -, -⟩ := h.parent hn hp
  have hcut := (h.cut hn).1
  obtain ⟨b, hb⟩ := hcut.forth hm fun hbelow => by
    have hle := h.depth_le_of_below hn hbelow hm
    omega
  obtain ⟨-, a, ha, ⟨-, hne⟩ | ⟨-, i, hi, rfl⟩⟩ := hcut.back hb
  · exact absurd hp hne
  · obtain rfl := Option.some.inj (hm.symm.trans ha)
    exact ⟨m, i, hm, hi, hdepth, hb⟩

theorem Sound.get?_of_lopped (h : t.Sound) (hn : t.get? id = some n)
    (hm : (t.lopped id n).get? k = some m) (hne : n.parent ≠ some k) : t.get? k = some m := by
  have hk : ¬ t.Below id k := fun hbelow => by
    cases (h.get?_lopped_of_below hn hbelow).symm.trans hm
  rw [← h.get?_lopped hn hk hne, hm]

/-- The chain of ancestors that go is the same once the first of them has lost its child. -/
theorem Sound.emptied_of_lopped (h : t.Sound) (hn : t.get? id = some n)
    (hempty : Emptied (t.lopped id n) k above spared)
    (hdepth : ∀ b, (t.lopped id n).get? k = some b → n.depth < b.depth) :
    Emptied t k above spared := by
  have hcut := (h.cut hn).1
  have hsound := h.sound_lopped hn
  have hself : ∀ {q : Nat} {b : Node}, (t.lopped id n).get? q = some b →
      ∃ a, t.get? q = some a ∧ a.parent = b.parent := by
    intro q b hb
    obtain ⟨-, a, ha, -, -, -, hparent, -⟩ := h.back_of_cut hn hcut hb
    exact ⟨a, ha, hparent.symm⟩
  have habove : ∀ {q r : Nat} {b m : Node}, (t.lopped id n).get? q = some b → b.parent = some r →
      (t.lopped id n).get? r = some m → n.depth < b.depth →
        t.get? r = some m ∧ n.depth < m.depth := by
    intro q r b m hb hr hm hlt
    obtain ⟨m', -, hm', -, hup, -, -⟩ := hsound.parent hb hr
    obtain rfl := Option.some.inj (hm.symm.trans hm')
    refine ⟨h.get?_of_lopped hn hm fun heq => ?_, by omega⟩
    obtain ⟨a, i, -, -, hadepth, ha⟩ := h.get?_lopped_parent hn heq
    obtain rfl := Option.some.inj (hm.symm.trans ha)
    rw [depth_withoutChild] at hup
    omega
  induction hempty with
  | top hb hroot =>
    obtain ⟨a, ha, hparent⟩ := hself hb
    exact .top ha (hparent.trans hroot)
  | stays hb hr hm hstays =>
    obtain ⟨a, ha, hparent⟩ := hself hb
    exact .stays ha (hparent.trans hr) (habove hb hr hm (hdepth _ hb)).1 hstays
  | goes hb hr hm hstatus honly _ ih =>
    obtain ⟨a, ha, hparent⟩ := hself hb
    obtain ⟨hm', hlt⟩ := habove hb hr hm (hdepth _ hb)
    refine .goes ha (hparent.trans hr) hm' hstatus honly (ih fun b hb' => ?_)
    rwa [← Option.some.inj (hm.symm.trans hb')]

/-- A node goes with what hangs below it, and its parent loses its slot. -/
theorem Sound.removed_lopped (h : t.Sound) (hn : t.get? id = some n) :
    Removed t id [] n.parent (freeBelow n.depth t id).1 (t.lopped id n) where
  nodup := (nodup_freeBelow n.depth t id).1
  mem_iff k := by simp [h.mem_freeBelow hn]
  live := (nodup_freeBelow n.depth t id).2
  gone k hk := h.get?_lopped_of_below hn ((h.mem_freeBelow hn).1 hk)
  loses p hp := by
    obtain ⟨m, i, hm, hi, hdepth, hkept⟩ := h.get?_lopped_parent hn hp
    obtain ⟨inner, hinner⟩ : ∃ inner, m.inner? = some inner :=
      Option.isSome_iff_exists.1 ((h.shaped hm).isSome_inner?.2 (by omega))
    have hmem : id ∈ m.childIds := Node.mem_childIds.2 ⟨i, hi⟩
    have hlive : inner.live ≠ 0 := fun hzero => by
      rw [((h.shaped hm).live_eq_zero hinner).1 hzero] at hmem
      cases hmem
    exact ⟨m, inner, i, hm, hinner, Nat.pos_of_ne_zero hlive, hi, hkept⟩
  other k hk hne := h.get?_lopped hn (fun hbelow => hk ((h.mem_freeBelow hn).2 hbelow)) hne
  root := by
    rw [(h.cut hn).1.root]
    cases hroot : t.root with
    | none => simp
    | some r =>
      obtain ⟨b, hb, -⟩ := h.rooted hroot
      have hparent := (h.root_iff hb).2 hroot
      have hmem : r ∈ (freeBelow n.depth t id).1 ↔ r = id := by
        rw [h.mem_freeBelow hn]
        refine ⟨fun hbelow => ?_, fun heq => heq ▸ .refl⟩
        by_contra hne
        obtain ⟨q, hq, -⟩ := (h.below_iff hb hne).1 hbelow
        cases hparent.symm.trans hq
      simp only [Option.filter_some, hmem, Option.some.injEq]
      by_cases heq : r = id <;> simp [heq]
  fileSize := (h.cut hn).1.fileSize
  size := (h.cut hn).2

/-- When the parent goes as well, what was removed below it and what goes with it come together. -/
theorem Removed.up {freed : List NodeId} (h : t.Sound) (hn : t.get? id = some n)
    (hp : n.parent = some p) (hm : t.get? p = some m) (honly : m.childIds = [id])
    (hup : Removed (t.lopped id n) p above spared freed t') :
    Removed t id (p :: above) spared ((freeBelow n.depth t id).1 ++ freed) t' := by
  have hbase := h.removed_lopped hn
  obtain ⟨m', i, hm', hi, -, hkept⟩ := h.get?_lopped_parent hn hp
  obtain rfl := Option.some.inj (hm.symm.trans hm')
  have hchildless : (withoutChild m i).childIds = [] := (childIds_withoutChild_eq_nil hi).2 honly
  have hbelow : ∀ k, (t.lopped id n).Below p k ↔ k = p := by
    refine fun k => ⟨fun hbelow => ?_, fun heq => heq ▸ .refl⟩
    obtain heq | ⟨c, ⟨b, hb, hc⟩, -⟩ := hbelow.cases_head
    · exact heq.symm
    · rw [← Option.some.inj (hkept.symm.trans hb), hchildless] at hc
      cases hc
  have hself : p ∈ freed := (hup.mem_iff p).2 (.inl .refl)
  constructor
  case nodup =>
    refine List.nodup_append.2 ⟨hbase.nodup, hup.nodup, ?_⟩
    rintro k hk _ hk' rfl
    have hlive := hup.live k hk'
    rw [contains, hbase.gone k hk] at hlive
    cases hlive
  case mem_iff =>
    intro k
    rw [List.mem_append, hbase.mem_iff, hup.mem_iff, hbelow]
    simp
  case live =>
    intro k hk
    rcases List.mem_append.1 hk with hk | hk
    · exact hbase.live k hk
    · obtain ⟨b, hb⟩ := Option.isSome_iff_exists.1 (hup.live k hk)
      obtain ⟨-, a, ha, -⟩ := (h.cut hn).1.back hb
      exact Option.isSome_iff_exists.2 ⟨a, ha⟩
  case gone =>
    intro k hk
    by_cases hk' : k ∈ freed
    · exact hup.gone k hk'
    · have hgone := hbase.gone k ((List.mem_append.1 hk).resolve_right hk')
      rw [hup.other k hk' ?_, hgone]
      intro hspared
      obtain ⟨b, -, -, hb, -⟩ := hup.loses k hspared
      cases hgone.symm.trans hb
  case loses =>
    intro q hq
    obtain ⟨b, inner, slot, hb, hinner, hlive, hslot, hleft⟩ := hup.loses q hq
    have hne : n.parent ≠ some q := fun heq => by
      obtain rfl := Option.some.inj (hp.symm.trans heq)
      obtain rfl := Option.some.inj (hkept.symm.trans hb)
      have hmem := Node.mem_childIds.2 ⟨slot, hslot⟩
      rw [hchildless] at hmem
      cases hmem
    exact ⟨b, inner, slot, h.get?_of_lopped hn hb hne, hinner, hlive, by simpa using hslot, hleft⟩
  case other =>
    intro k hk hne
    rw [List.mem_append, not_or] at hk
    rw [hup.other k hk.2 hne, hbase.other k hk.1]
    rintro heq
    rw [Option.some.inj (hp.symm.trans heq)] at hself
    exact hk.2 hself
  case root =>
    rw [hup.root, hbase.root, Option.filter_filter]
    congr 1
    funext r
    simp [List.mem_append, Bool.and_comm]
  case fileSize => exact hup.fileSize.trans hbase.fileSize
  case size => exact hup.size.trans hbase.size

end Lopped

theorem Sound.removed_freeUp (h : t.Sound) (hn : t.get? id = some n)
    (hlevels : treeDepth t.fileSize ≤ levels + n.depth) :
    ∃ above spared, Emptied t id above spared ∧
      Removed t id above spared (freeUp levels t id).1 (freeUp levels t id).2 := by
  refine @Sound.freeUp_induction _ _ _ _ (fun t id freed t' =>
    ∃ above spared, Emptied t id above spared ∧ Removed t id above spared freed t')
    ?top ?stays ?goes h hn hlevels
  case top =>
    intro t id n h hn hp
    exact ⟨[], none, .top hn hp, hp ▸ h.removed_lopped hn⟩
  case stays =>
    intro t id n p m h hn hp hm hstays _
    exact ⟨[], some p, .stays hn hp hm hstays, hp ▸ h.removed_lopped hn⟩
  case goes =>
    intro t id n p m freed t' h hn hp hm hstatus honly _ ⟨above, spared, hempty, hup⟩
    refine ⟨p :: above, spared, .goes hn hp hm hstatus honly ?_, hup.up h hn hp hm honly⟩
    refine h.emptied_of_lopped hn hempty fun b hb => ?_
    obtain ⟨m', i, -, -, hdepth, hkept⟩ := h.get?_lopped_parent hn hp
    obtain rfl := Option.some.inj (hkept.symm.trans hb)
    rw [depth_withoutChild]
    omega

end Tree

namespace Download

/-- Freeing comes to an end and has one outcome. An unknown node changes nothing. A known one goes
with all that hangs below it and with the ancestors that this empties, and the scheduler is told of
each of these nodes once and of no other. -/
theorem free_exact {st : State} (h : st.tree.Sound) (id : NodeId) :
    ∃ freed t,
      (free id).run st =
        (.ok (), { st with tree := t, calls := st.calls ++ (freed.map .release).toArray }) ∧
      (∀ freed' t', st.tree.Frees id freed' t' ↔ freed' = freed ∧ t' = t) ∧
      (¬ st.tree.contains id → freed = [] ∧ t = st.tree) ∧
      (st.tree.contains id → ∃ above spared,
        st.tree.Emptied id above spared ∧ st.tree.Removed id above spared freed t) := by
  refine ⟨(st.tree.free id).1, (st.tree.free id).2, rfl, ?_, ?_, ?_⟩
  · have hfrees : st.tree.Frees id (st.tree.free id).1 (st.tree.free id).2 := by
      cases hn : st.tree.get? id with
      | none =>
        rw [Tree.free_of_unknown hn]
        exact .unknown hn
      | some n => exact h.frees_freeUp hn (Nat.le_add_right _ _)
    intro freed' t'
    refine ⟨fun hother => hfrees.unique hother, ?_⟩
    rintro ⟨rfl, rfl⟩
    exact hfrees
  · intro hnone
    rw [Tree.contains, Option.not_isSome_iff_eq_none] at hnone
    simp [Tree.free_of_unknown hnone]
  · intro hcontains
    obtain ⟨n, hn⟩ := Option.isSome_iff_exists.1 hcontains
    exact h.removed_freeUp hn (Nat.le_add_right _ _)

/-- The last leaf of two takes the root with it. -/
theorem free_exact_of_last_leaf :
    let t := (((Tree.new 2048).allocateChildren 0).2.free 1).2
    let st : State := ⟨t, .empty, .new 2048, #[]⟩
    t.Sound ∧ t.contains 2 ∧ ∃ freed t' above spared,
      freed.map SchedulerCall.release = [.release 2, .release 0] ∧
      (free 2).run st = (.ok (), { st with tree := t', calls := (freed.map .release).toArray }) ∧
      t.Frees 2 freed t' ∧ t.Emptied 2 above spared ∧ t.Removed 2 above spared freed t' := by
  intro t st
  have hsound : t.Sound :=
    Tree.Reached.sound (.next (.next (.new (by decide)) (.allocateChildren _ 0))
      (.done ⟨((Tree.new 2048).allocateChildren 0).2, .empty, .new 2048, #[]⟩ 1))
  have hlive : t.contains 2 := by decide +kernel
  have hcalls : ((free 2).run st).2.calls.toList = [.release 2, .release 0] := by decide +kernel
  obtain ⟨freed, t', hrun, hfrees, -, hknown⟩ := @free_exact st hsound 2
  obtain ⟨above, spared, hempty, hremoved⟩ := hknown hlive
  rw [hrun] at hcalls
  exact ⟨hsound, hlive, freed, t', above, spared, by simpa [st] using hcalls, by simpa [st] using hrun,
    (hfrees freed t').2 ⟨rfl, rfl⟩, hempty, hremoved⟩

end Download

end ContentTree

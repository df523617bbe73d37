import Mathlib.Data.Set.Card
import Mathlib.Order.Interval.Finset.Nat
import ContentTree.Proofs.Tree.Intact

/-!
# What remains of a download

The places that are still awaited get fewer with every reply that is taken, and progress is what is
left of the file once the bytes of the awaited leaves are taken away.
-/

namespace ContentTree

namespace Download

variable {env : Env} {src : Source} {heard : Option (Nat × Block)} {st st' : State} {t : Tree}
  {id size : Nat} {n : Node}

/-- The places of a file whose blocks are not present yet. -/
def missing (size : Nat) (t : Tree) : Set (Nat × Nat) :=
  {place | Place size place.1 place.2 ∧ Awaited t place.1 place.2}

/-- The bytes of a file whose leaves are not present yet. -/
def due (size : Nat) (t : Tree) : Set Nat :=
  {k | k < size ∧ Awaited t 0 (k / leafCapacity * leafCapacity)}

theorem finite_missing (size : Nat) (t : Tree) : (missing size t).Finite := by
  apply ((Set.finite_Iic (treeDepth size)).prod (Set.finite_Iic size)).subset
  rintro ⟨level, position⟩ ⟨hplace, -⟩
  have hstart := hplace.start
  exact ⟨hplace.level_le, by simp only [Set.mem_Iic]; omega⟩

theorem finite_due (size : Nat) (t : Tree) : (due size t).Finite :=
  (Set.finite_Iio size).subset fun _ hk => hk.1

theorem place_leaf {k : Nat} (hk : k < size) : Place size 0 (k / leafCapacity * leafCapacity) :=
  ⟨Nat.zero_le _, Nat.dvd_mul_left .., .inl ((Nat.div_mul_le_self k _).trans_lt hk)⟩

theorem ncard_leaf {position : Nat} (hplace : Place size 0 position) :
    {k | k < size ∧ k / leafCapacity * leafCapacity = position}.ncard = leafLength size position := by
  have hset : {k | k < size ∧ k / leafCapacity * leafCapacity = position} =
      ↑(Finset.Ico position (min size (position + leafCapacity))) := by
    obtain ⟨i, rfl⟩ := hplace.dvd
    have hcapacity : leafCapacity = 1024 := rfl
    ext k
    simp only [Set.mem_ofPred_eq, Finset.coe_Ico, Set.mem_Ico, span_zero, lt_min_iff, hcapacity]
    omega
  have hstart := hplace.start
  rw [hset, Set.ncard_coe_finset, Nat.card_Ico, leafLength]
  omega

/-- The bytes of a leaf that is not present yet are due. -/
theorem Good.leaf_due (h : Good t) (hn : t.get? id = some n) (hinner : n.inner? = none)
    (hstatus : n.status = .created ∨ n.status = .pending) :
    {k | k < t.fileSize ∧ k / leafCapacity * leafCapacity = n.position} ⊆ due t.fileSize t ∧
      {k | k < t.fileSize ∧ k / leafCapacity * leafCapacity = n.position}.ncard = n.length := by
  have hzero := Node.depth_of_leaf hinner
  have hshape := h.sound.shaped hn
  have hplace := hshape.place
  rw [hzero] at hplace
  constructor
  · rintro k ⟨hk, heq⟩
    refine ⟨hk, id, n, hn, awaits_of_started hstatus 0, ?_⟩
    rw [hzero, heq]
    exact covers_self 0 n.position
  · rw [ncard_leaf hplace, hshape.length, hzero]
    rfl

theorem Effect.awaited {level position : Nat} (h : Effect env heard st st')
    (hplace : Place st.tree.fileSize level position) (hawaited : Awaited st'.tree level position) :
    Awaited st.tree level position := by
  cases h with
  | quiet _ _ hiff => exact (hiff level position hplace).1 hawaited
  | known _ _ _ hiff => exact ((hiff level position hplace).1 hawaited).1

/-- Progress makes up for the bytes that are no longer due. -/
theorem Effect.progress (h : Effect env heard st st') (hgood : Good st.tree)
    (hsize : st.tree.fileSize = size) :
    st'.meter.stats.progress + (due size st'.tree).ncard =
      st.meter.stats.progress + (due size st.tree).ncard := by
  subst hsize
  cases h with
  | quiet _ hmeter hiff =>
    have hdue : due st.tree.fileSize st'.tree = due st.tree.fileSize st.tree := by
      ext k
      exact and_congr_right fun hk => hiff _ _ (place_leaf hk)
    rw [hmeter, hdue]
  | @known id n data hn hknown hmeter hiff =>
    cases hinner : n.inner? with
    | some i =>
      have hpos := (hgood.sound.shaped hn).isSome_inner?.1 (by rw [hinner]; rfl)
      have hdue : due st.tree.fileSize st'.tree = due st.tree.fileSize st.tree := by
        ext k
        refine and_congr_right fun hk => (hiff _ _ (place_leaf hk)).trans ?_
        exact and_iff_left fun heq => absurd heq.1 (by omega)
      rw [hmeter, hdue, metered, if_pos (by simp [Node.isInner, hinner])]
    | none =>
      have hzero := Node.depth_of_leaf hinner
      obtain ⟨hleaf, hbytes⟩ := hgood.leaf_due hn hinner hknown.status
      have hdue : due st.tree.fileSize st'.tree = due st.tree.fileSize st.tree \
          {k | k < st.tree.fileSize ∧ k / leafCapacity * leafCapacity = n.position} := by
        ext k
        simp only [due, Set.mem_sdiff, Set.mem_ofPred_eq, and_assoc]
        refine and_congr_right fun hk => (hiff _ _ (place_leaf hk)).trans ?_
        rw [hzero]
        exact and_congr_right fun _ => ⟨fun hnot heq => hnot ⟨rfl, heq.2⟩,
          fun hnot heq => hnot ⟨hk, heq.2⟩⟩
      have hcard := Set.ncard_sdiff_add_ncard_of_subset hleaf (finite_due _ _)
      have hmetered : (metered st.meter n).stats.progress = st.meter.stats.progress + n.length := by
        rw [metered, if_neg (by simp [Node.isInner, hinner])]
        rfl
      rw [hmeter, hmetered, hdue, ← hcard, hbytes]
      omega

section Moves

variable (hsize : src.size ≤ maxSize)

include hsize

theorem Intact.moves_remaining (h : Intact env src st) (hdisk : DiskBinds env src st.disk)
    (hmoves : Moves env st st') :
    missing src.size st'.tree ⊆ missing src.size st.tree ∧
      st'.meter.stats.progress + (due src.size st'.tree).ncard =
        st.meter.stats.progress + (due src.size st.tree).ncard := by
  induction hmoves with
  | refl => exact ⟨Set.Subset.rfl, rfl⟩
  | tail hbefore hmove ih =>
    obtain ⟨hsubset, hprogress⟩ := ih
    have hintact := h.moves hsize hdisk hbefore
    have heffect := hintact.good.effect hmove
    constructor
    · rintro ⟨level, position⟩ ⟨hplace, hawaited⟩
      exact hsubset ⟨hplace, heffect.awaited (hintact.faithful.fileSize ▸ hplace) hawaited⟩
    · exact (heffect.progress hintact.good hintact.faithful.fileSize).trans hprogress

/-- A reply that is taken leaves fewer places, and counts. -/
theorem Intact.taken_remaining (h : Intact env src st) (hdisk : DiskBinds env src st.disk)
    (hreply : ReplyBinds env src st.tree heard) (hbinds : DiskBinds env src st'.disk)
    (htaken : Taken env heard st id st') :
    (missing src.size st'.tree).ncard < (missing src.size st.tree).ncard ∧
      st'.meter.stats.progress + (due src.size st'.tree).ncard =
        st.meter.stats.progress + (due src.size st.tree).ncard := by
  obtain ⟨mid, n, data, hn, hknown, hmove, hmid, hmoves, -⟩ := htaken
  have hintact := h.move hsize hdisk hreply hmove
  have hsame := disk_eq_of_moves hmoves
  have heffect := h.good.effect hmove
  obtain ⟨hsubset, hprogress⟩ := hintact.moves_remaining hsize (hsame ▸ hbinds) hmoves
  have hplace := (h.good.sound.shaped hn).place
  rw [h.faithful.fileSize] at hplace
  refine ⟨Set.ncard_lt_ncard ⟨?_, ?_⟩ (finite_missing _ _), ?_⟩
  · rintro ⟨level, position⟩ hmem
    obtain ⟨hplace, hawaited⟩ := hsubset hmem
    exact ⟨hplace, heffect.awaited (h.faithful.fileSize ▸ hplace) hawaited⟩
  · intro hsuperset
    have hbefore : (n.depth, n.position) ∈ missing src.size st.tree :=
      ⟨hplace, id, n, hn, awaits_of_started hknown.status _, covers_self _ _⟩
    obtain ⟨-, k, b, hb, hawaits, hcovers⟩ := hsubset (hsuperset hbefore)
    have hlike := like_admitted data n
    rw [← hlike.depth, ← hlike.position] at hcovers
    obtain rfl := hintact.good.awaits_self hmid hb hawaits hcovers
    obtain rfl := Option.some.inj (hmid.symm.trans hb)
    exact absurd ((awaits_admitted data n.depth).1 hawaits) (Nat.lt_irrefl _)
  · exact hprogress.trans (heffect.progress h.good h.faithful.fileSize)

end Moves

/-! ### Who waits -/

theorem Idle.awaits_iff (h : Idle t) (hn : t.get? id = some n) (level : Nat) :
    n.Awaits level ↔ n.status = .pending := by
  simp [Node.Awaits, h.created hn, (h.rest hn).1]

/-- Between two operations a place is awaited as long as it is at or below a pending node. -/
theorem Idle.awaited_iff (h : Idle t) {level position : Nat} :
    Awaited t level position ↔ ∃ (k : Nat) (b : Node), t.get? k = some b ∧ b.status = .pending ∧
      Covers b.depth b.position level position := by
  refine exists₂_congr fun k b => and_congr_right fun hb => and_congr_left' ?_
  exact h.awaits_iff hb level

theorem Idle.exists_pending (h : Idle t) (hn : t.get? id = some n) :
    ∃ (k : Nat) (b : Node), t.get? k = some b ∧ b.status = .pending := by
  induction hdepth : n.depth using Nat.strong_induction_on generalizing id n with
  | h depth ih =>
    rcases (h.good.staged.fits hn).status with hs | hs | hs | hs | hs | hs
    · exact absurd hs (h.created hn)
    · exact ⟨id, n, hn, hs⟩
    · exact absurd hs (h.rest hn).1
    · exact absurd hs (h.persistent hn)
    · obtain ⟨c, hc⟩ := List.exists_mem_of_ne_nil _ ((h.rest hn).2 hs)
      obtain ⟨i, hi⟩ := Node.mem_childIds.1 hc
      obtain ⟨b, hb, -, hlower, -⟩ := h.good.sound.down hn hi
      exact ih b.depth (by omega) hb rfl
    · obtain ⟨query, hquery⟩ := List.exists_mem_of_ne_nil _ (h.good.staged.asked hn hs)
      obtain ⟨c, -, b, hb, hstatus, -⟩ := mem_pendingQueries.1 hquery
      exact ⟨c, b, hb, hstatus⟩

theorem pendingChild?_eq_some {query : Digest} {c : NodeId}
    (h : pendingChild? t id query = some c) :
    ∃ b, t.get? c = some b ∧ b.status = .pending ∧ b.chk.query = query := by
  unfold pendingChild? at h
  obtain ⟨n, -, h⟩ := Option.bind_eq_some_iff.1 h
  split at h
  · cases h
  · simpa [Option.any_eq_true] using List.find?_some h

theorem exists_pendingChild? {query : Digest} (hn : t.get? id = some n)
    (hstatus : n.status = .superqueryPending) (hquery : query ∈ pendingQueries t n) :
    ∃ c, pendingChild? t id query = some c := by
  obtain ⟨c, hc, b, hb, hwaits, heq⟩ := mem_pendingQueries.1 hquery
  have hfind : (n.childIds.find? fun c =>
      (t.get? c).any fun b => b.status = .pending ∧ b.chk.query = query).isSome := by
    rw [List.find?_isSome]
    exact ⟨c, hc, by simp [hb, hwaits, heq]⟩
  obtain ⟨c, hc⟩ := Option.isSome_iff_exists.1 hfind
  refine ⟨c, ?_⟩
  unfold pendingChild?
  rw [hn]
  change (if n.status ≠ .superqueryPending then none else _) = some c
  rw [if_neg (not_not.2 hstatus), hc]

end Download

end ContentTree

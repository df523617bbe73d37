import Mathlib.Algebra.BigOperators.Group.Finset.Basic
import Mathlib.Algebra.Order.BigOperators.Group.Finset
import ContentTree.Proofs.Tree.Integrity
import ContentTree.Proofs.Tree.Remaining

/-!
# Exact progress

Between two operations the bytes of the file fall into those counted as progress and those below
pending nodes. No two pending nodes have a byte in common, so the second part is a sum over them.
-/

namespace ContentTree

/-- The bytes of the file that the node covers. -/
def Node.bytes (n : Node) : Finset Nat :=
  Finset.Ico n.position (n.position + min (coverage n.depth) (n.fileSize - n.position))

/-- Number of bytes of the file below the node if it is pending. -/
def Node.owed (n : Node) : Nat :=
  if n.status = .pending then min (coverage n.depth) (n.fileSize - n.position) else 0

def Tree.owed (t : Tree) : Nat := ∑ id ∈ Finset.range t.nodes.size, (t.get? id).elim 0 Node.owed

namespace Download

variable {env : Env} {st st' : State} {t : Tree} {id size : Nat} {n m : Node}

/-- No checksum has been found wrong. -/
def ChecksumsHold (result : Except TreeError Unit) : Prop :=
  ∀ level position cause, result = .error (.corrupted level position cause) → cause = .content

/-- The states between the operations of a download in which no checksum has been found wrong. -/
inductive Calls (env : Env) (st : State) : State → Prop
  | start (h : ChecksumsHold ((start env 0).run st).1) : Calls env st ((start env 0).run st).2
  | receive {mid : State} {id : NodeId} {handler : ReplyHandler} {query : Digest} {reply : Block}
      (h : Calls env st mid) (hsums : ChecksumsHold ((receive env id handler query reply).run mid).1) :
      Calls env st ((receive env id handler query reply).run mid).2

/-! ### The bytes below a node -/

theorem card_bytes (n : Node) : n.bytes.card = min (coverage n.depth) (n.fileSize - n.position) := by
  rw [Node.bytes, Nat.card_Ico, Nat.add_sub_cancel_left]

/-- A node covers a byte of the file just if it covers the leaf of that byte. -/
theorem mem_bytes (h : n.Shaped size) (hsize : size ≤ maxSize) {k : Nat} :
    k ∈ n.bytes ↔ k < size ∧ Covers n.depth n.position 0 (k / leafCapacity * leafCapacity) := by
  -- The coverage is limited to 64 bits, which matters only for levels that no file reaches.
  have hmin : min (coverage n.depth) (size - n.position) = min (span n.depth) (size - n.position) := by
    rcases Nat.lt_or_ge n.depth 12 with hlt | hge
    · rw [coverage_eq_span hlt]
    · have hspan : span 12 ≤ span n.depth :=
        Nat.mul_le_mul_left _ (Nat.pow_le_pow_right (by decide) hge)
      have hmax := maxSize_lt_span
      rw [coverage, if_neg (by omega)]
      omega
  obtain ⟨blocks, hblocks⟩ : leafCapacity ∣ span n.depth := Dvd.intro _ rfl
  obtain ⟨first, hfirst⟩ : leafCapacity ∣ n.position := (Dvd.intro _ hblocks.symm).trans h.place.dvd
  have hcapacity : leafCapacity = 1024 := rfl
  rw [Node.bytes, Finset.mem_Ico, h.fileSize, hmin]
  simp only [hcapacity] at hblocks hfirst ⊢
  constructor
  · rintro ⟨hle, hlt⟩
    exact ⟨by omega, Nat.zero_le _, by omega, by omega⟩
  · rintro ⟨hlt, -, hle, hbelow⟩
    omega

/-- Of two nodes that cover a common byte, one is above the other. -/
theorem Good.eq_of_mem_bytes (h : Good t) {k : Nat} (hn : t.get? id = some n)
    (hm : t.get? k = some m) (hstatus : m.status = .pending) (hle : n.depth ≤ m.depth)
    {byte : Nat} (hmem : byte ∈ n.bytes) (hmem' : byte ∈ m.bytes) : k = id := by
  have hnshape := h.sound.shaped hn
  have hmshape := h.sound.shaped hm
  have hncovers := ((mem_bytes hnshape h.sound.fileSize_le).1 hmem).2
  have hmcovers := ((mem_bytes hmshape h.sound.fileSize_le).1 hmem').2
  -- The ancestor of the lower node at the level of the other covers the byte too, so the other is
  -- above the lower node, and a pending node has none below it.
  obtain ⟨a, b, hb, hdepth, -, hbelow⟩ := h.sound.ancestor hn hle hmshape.place.level_le
  have hbcovers := hbelow _ _ hncovers
  have hbdvd := (h.sound.shaped hb).place.dvd
  rw [hdepth] at hbcovers hbdvd
  have hposition := Covers.unique hbdvd hmshape.place.dvd hbcovers hmcovers
  have habove := hbelow _ _ (covers_self n.depth n.position)
  rw [hdepth, hposition] at habove
  exact h.awaits_self hn hm (awaits_of_started (.inr hstatus) 0) habove

theorem Good.disjoint_bytes (h : Good t) {k : Nat} (hn : t.get? id = some n)
    (hm : t.get? k = some m) (hstatus : n.status = .pending) (hstatus' : m.status = .pending)
    (hne : id ≠ k) : Disjoint n.bytes m.bytes := by
  rw [Finset.disjoint_left]
  intro byte hmem hmem'
  rcases Nat.le_total n.depth m.depth with hle | hle
  · exact hne (h.eq_of_mem_bytes hn hm hstatus' hle hmem hmem').symm
  · exact hne (h.eq_of_mem_bytes hm hn hstatus hle hmem' hmem)

/-! ### The bytes below all pending nodes -/

/-- The bytes below the node `id` if it is pending. -/
def waiting (t : Tree) (id : NodeId) : Finset Nat :=
  (t.get? id).elim ∅ fun n => if n.status = .pending then n.bytes else ∅

theorem mem_waiting {byte : Nat} : byte ∈ waiting t id ↔
    ∃ n, t.get? id = some n ∧ n.status = .pending ∧ byte ∈ n.bytes := by
  unfold waiting
  cases t.get? id with
  | none => simp
  | some n => by_cases hs : n.status = .pending <;> simp [hs]

theorem card_waiting (t : Tree) (id : NodeId) :
    (waiting t id).card = (t.get? id).elim 0 Node.owed := by
  unfold waiting
  cases t.get? id with
  | none => rfl
  | some n => by_cases hs : n.status = .pending <;> simp [hs, Node.owed, card_bytes]

theorem Idle.mem_due (h : Idle t) (hsize : t.fileSize = size) {byte : Nat} :
    byte ∈ due size t ↔
      ∃ (id : Nat) (n : Node), t.get? id = some n ∧ n.status = .pending ∧ byte ∈ n.bytes := by
  subst hsize
  simp only [due, Set.mem_ofPred_eq, h.awaited_iff]
  constructor
  · rintro ⟨hlt, k, b, hb, hstatus, hcovers⟩
    exact ⟨k, b, hb, hstatus,
      (mem_bytes (h.good.sound.shaped hb) h.good.sound.fileSize_le).2 ⟨hlt, hcovers⟩⟩
  · rintro ⟨k, b, hb, hstatus, hmem⟩
    obtain ⟨hlt, hcovers⟩ := (mem_bytes (h.good.sound.shaped hb) h.good.sound.fileSize_le).1 hmem
    exact ⟨hlt, k, b, hb, hstatus, hcovers⟩

theorem Idle.owed_eq (h : Idle t) (hsize : t.fileSize = size) : t.owed = (due size t).ncard := by
  have hdue : due size t = ↑((Finset.range t.nodes.size).biUnion (waiting t)) := by
    ext byte
    simp only [h.mem_due hsize, Finset.coe_biUnion, Set.mem_iUnion, Finset.mem_coe, mem_waiting,
      Finset.mem_range, exists_prop]
    refine exists_congr fun k => ⟨fun hk => ⟨?_, hk⟩, And.right⟩
    obtain ⟨b, hb, -⟩ := hk
    exact Tree.lt_size_of_get? hb
  rw [hdue, Set.ncard_coe_finset, Finset.card_biUnion, Tree.owed]
  · exact Finset.sum_congr rfl fun k _ => (card_waiting t k).symm
  · intro j _ k _ hne
    rw [Function.onFun, Finset.disjoint_left]
    intro byte hj hk
    obtain ⟨n, hn, hstatus, hmem⟩ := mem_waiting.1 hj
    obtain ⟨m, hm, hstatus', hmem'⟩ := mem_waiting.1 hk
    exact Finset.disjoint_left.1 (h.good.disjoint_bytes hn hm hstatus hstatus' hne) hmem hmem'

/-! ### Operations -/

/-- Progress and what is due are the file together. -/
structure Balanced (size : Nat) (st : State) : Prop where
  fileSize : st.tree.fileSize = size
  progress : st.meter.stats.progress + (due size st.tree).ncard = size

theorem Good.fileSize_move {heard : Option (Nat × Block)} (h : Good st.tree)
    (hmove : Move env heard st st') : st'.tree.fileSize = st.tree.fileSize := by
  cases hmove with
  | pad hpad => exact hpad.fileSize
  | defer => rfl
  | crown => rfl
  | adopt =>
    simp only [State.said, Download.told]
    split
    · rfl
    · split <;> rfl
  | unfold hn hstatus hinner hchildren =>
    obtain ⟨i, hi⟩ := Option.isSome_iff_exists.1 hinner
    exact (h.unfolded hn hstatus hi hchildren).2.fileSize
  | settle =>
    simp only [State.said, Download.settled]
    split <;> rfl
  | prune hn => exact (h.sound.pruned hn).fileSize

theorem Balanced.move {heard : Option (Nat × Block)} (h : Balanced size st) (hgood : Good st.tree)
    (hmove : Move env heard st st') : Balanced size st' where
  fileSize := (hgood.fileSize_move hmove).trans h.fileSize
  progress := ((hgood.effect hmove).progress hgood h.fileSize).trans h.progress

theorem Balanced.moves (h : Balanced size st) (hgood : Good st.tree) (hmoves : Moves env st st') :
    Balanced size st' := by
  induction hmoves with
  | refl => exact h
  | tail hbefore hmove ih => exact ih.move (hgood.moves hbefore) hmove

theorem Rejected.not_checksumsHold {heard : Option (Nat × Block)} {e : TreeError}
    (h : Rejected env heard st e) : ¬ ChecksumsHold (.error e) := by
  intro hsums
  cases h <;> cases hsums _ _ _ rfl

theorem Halted.not_checksumsHold {heard : Option (Nat × Block)} {e : TreeError}
    (h : Halted env heard st e st') : ¬ ChecksumsHold (.error e) := by
  rcases h with ⟨hrejected, -⟩ | ⟨mid, -, last, -, hrejected, -⟩
  · exact hrejected.not_checksumsHold
  · exact hrejected.not_checksumsHold

/-- Unless a checksum is found wrong, a download starts with moves. -/
theorem ChecksumsHold.start (h : ChecksumsHold ((Download.start env 0).run st).1)
    (hunstarted : Unstarted st.tree) :
    Moves env st ((Download.start env 0).run st).2 ∧
      Idle ((Download.start env 0).run st).2.tree := by
  have hends := @ends_start env st hunstarted
  unfold Ends at hends
  rcases hrun : (Download.start env 0).run st with ⟨e | _, last⟩
  · rw [hrun] at hends h
    obtain ⟨mid, -, hrejected, -⟩ := hends
    exact absurd h hrejected.not_checksumsHold
  · rw [hrun] at hends
    exact hends

/-- Unless a checksum is found wrong, a reply changes nothing or is taken by a first move. -/
theorem ChecksumsHold.receive {handler : ReplyHandler} {query : Digest} {reply : Block}
    (h : ChecksumsHold ((Download.receive env id handler query reply).run st).1)
    (hidle : Idle st.tree) :
    Idle ((Download.receive env id handler query reply).run st).2.tree ∧
      (((Download.receive env id handler query reply).run st).2 = st ∨
        ∃ k mid, Move env (some (k, reply)) st mid ∧
          Moves env mid ((Download.receive env id handler query reply).run st).2) := by
  have hends := @ends_receive env st id handler query reply hidle
  unfold Ends at hends
  rcases hrun : (Download.receive env id handler query reply).run st with ⟨e | _, last⟩
  · rw [hrun] at hends h
    obtain ⟨k, n, -, -, -, ⟨rfl, -⟩ | hhalted⟩ := hends
    · exact ⟨hidle, .inl rfl⟩
    · exact absurd h hhalted.not_checksumsHold
  · rw [hrun] at hends
    rcases hends with ⟨rfl, -⟩ | ⟨k, n, -, -, -, ⟨mid, -, -, -, -, hmove, -, hmoves, -⟩, hnext⟩
    · exact ⟨hidle, .inl rfl⟩
    · exact ⟨hnext, .inr ⟨k, mid, hmove, hmoves⟩⟩

theorem balanced_first (f : FileIdentifier) (disk : Disk) :
    Balanced f.length.toNat (State.first f disk) where
  fileSize := rfl
  progress := by
    have hdue : due f.length.toNat (Tree.forDownload f) = ↑(Finset.range f.length.toNat) := by
      ext k
      rw [Finset.coe_range, Set.mem_Iio]
      exact and_iff_left_of_imp fun hk => awaited_forDownload f (place_leaf hk)
    change 0 + (due _ (Tree.forDownload f)).ncard = _
    rw [hdue, Set.ncard_coe_finset, Finset.card_range, Nat.zero_add]

theorem Balanced.start (h : Balanced size st) (hunstarted : Unstarted st.tree)
    (hsums : ChecksumsHold ((Download.start env 0).run st).1) :
    Idle ((Download.start env 0).run st).2.tree ∧ Balanced size ((Download.start env 0).run st).2 := by
  obtain ⟨hmoves, hidle⟩ := hsums.start hunstarted
  exact ⟨hidle, h.moves hunstarted.good hmoves⟩

theorem Balanced.receive {handler : ReplyHandler} {query : Digest} {reply : Block}
    (h : Balanced size st) (hidle : Idle st.tree)
    (hsums : ChecksumsHold ((Download.receive env id handler query reply).run st).1) :
    Idle ((Download.receive env id handler query reply).run st).2.tree ∧
      Balanced size ((Download.receive env id handler query reply).run st).2 := by
  obtain ⟨hnext, hsame | ⟨k, mid, hmove, hmoves⟩⟩ := hsums.receive hidle
  · exact ⟨hnext, hsame.symm ▸ h⟩
  · exact ⟨hnext, (h.move hidle.good hmove).moves (hidle.good.move hmove) hmoves⟩

theorem Calls.balanced {f : FileIdentifier} {disk : Disk} (h : Calls env (State.first f disk) st) :
    Idle st.tree ∧ Balanced f.length.toNat st := by
  induction h with
  | start hsums => exact (balanced_first f disk).start (unstarted_forDownload f) hsums
  | receive _ hsums ih => exact ih.2.receive ih.1 hsums

/-- Progress is the size of the file without what the pending nodes cover. It is the number of bytes
that no pending node covers, so it counts none twice, and it is complete just when no pending node
covers any. -/
theorem progress_of_calls {f : FileIdentifier} {disk : Disk}
    (h : Calls env (State.first f disk) st) :
    st.meter.stats.progress + st.tree.owed = f.length.toNat ∧
      st.meter.stats.progress ≤ f.length.toNat ∧
      (st.meter.stats.progress = f.length.toNat ↔
        ∀ (id : Nat) n, st.tree.get? id = some n → n.status = .pending → n.bytes = ∅) ∧
      st.meter.stats.progress = {k | k < f.length.toNat ∧
        ∀ (id : Nat) n, st.tree.get? id = some n → n.status = .pending → k ∉ n.bytes}.ncard := by
  obtain ⟨hidle, hsize, hprogress⟩ := h.balanced
  have howed := hidle.owed_eq hsize
  have hcovered : ∀ {k : Nat}, (∀ (id : Nat) n, st.tree.get? id = some n → n.status = .pending →
      k ∉ n.bytes) ↔ k ∉ due f.length.toNat st.tree := by
    intro k
    rw [hidle.mem_due hsize]
    push Not
    rfl
  refine ⟨howed ▸ hprogress, by omega, ?_, ?_⟩
  · have hcomplete : st.meter.stats.progress = f.length.toNat ↔ due f.length.toNat st.tree = ∅ := by
      rw [← Set.ncard_eq_zero (finite_due _ _)]
      omega
    rw [hcomplete, Set.eq_empty_iff_forall_notMem]
    simp only [← hcovered, Finset.eq_empty_iff_forall_notMem]
    exact ⟨fun hnone id n hn hs k => hnone k id n hn hs, fun hnone k id n hn hs => hnone id n hn hs k⟩
  · have hpresent : {k | k < f.length.toNat ∧ ∀ (id : Nat) n, st.tree.get? id = some n →
        n.status = .pending → k ∉ n.bytes} =
          ↑(Finset.range f.length.toNat) \ due f.length.toNat st.tree := by
      ext k
      simp only [Set.mem_ofPred_eq, hcovered, Set.mem_sdiff, Finset.coe_range, Set.mem_Iio]
    have hle : due f.length.toNat st.tree ⊆ ↑(Finset.range f.length.toNat) := by
      rintro k ⟨hk, -⟩
      simpa using hk
    rw [hpresent, Set.ncard_sdiff hle (finite_due _ _), Set.ncard_coe_finset, Finset.card_range]
    omega

theorem checksumsHold_of_isOk {result : Except TreeError Unit} (h : result.isOk) :
    ChecksumsHold result := by
  rintro level position cause rfl
  cases h

theorem calls_shelfHalf : Calls shelfEnv (State.first shelfId shelfOpen) shelfHalf := by
  obtain ⟨hwaiting, hunfolded, hhalf, -⟩ := isOk_shelf
  rw [shelfHalf]
  refine .receive ?_ (checksumsHold_of_isOk hhalf)
  rw [shelfUnfolded]
  refine .receive ?_ (checksumsHold_of_isOk hunfolded)
  rw [shelfWaiting]
  exact .start (checksumsHold_of_isOk hwaiting)

/-- One byte is still missing once the first leaf has come in. -/
theorem progress_of_shelf_calls :
    shelfHalf.tree.owed = 1 ∧ shelfHalf.meter.stats.progress + shelfHalf.tree.owed = 1025 := by
  refine ⟨by decide +kernel, ?_⟩
  rw [← toNat_length_shelfId]
  exact (progress_of_calls calls_shelfHalf).1

end Download

end ContentTree

import Mathlib.Algebra.Order.BigOperators.Group.Finset
import Mathlib.Algebra.Order.Field.Basic
import Mathlib.Data.Rat.Cast.Order
import ContentTree.Proofs.Requests.Machine
import ContentTree.Proofs.Tree.Accounting
import ContentTree.Proofs.Tree.Haste

/-!
# The endgame of a download

Ten thresholds lie on the way to the full size of a file. Progress never goes back, so it passes
each of them once at most, and a download calls the endgame just when a leaf takes progress past one
or more. All of this is worked out in words of 64 and 128 bits, which are wide enough.
-/

namespace ContentTree

namespace MachineType

def u128 : MachineType := ⟨0, 2 ^ 128 - 1⟩

theorem count?_eq {m : MachineType} {n : Nat} (h : n ≤ m.largest) : m.count? n = some n := if_pos h

theorem u128_count? {n : Nat} (h : n < 2 ^ 128) : u128.count? n = some n := by
  refine count?_eq (Int.le_sub_one_of_lt ?_)
  exact_mod_cast h

end MachineType

namespace Download

open MachineType

variable {env : Env} {first last st st' : State} {id size : Nat} {n : Node}

/-- The ten fractions of a file at which the endgame begins anew. -/
def threshold (size i : Nat) : ℚ := size * (10000 - (1024 >>> i : Nat)) / 10000

/-- Progress goes from at or below the threshold to above it. -/
def Passes (size i before after : Nat) : Prop :=
  before ≤ threshold size i ∧ threshold size i < after

/-- The test for the endgame in words of 128 bits. -/
def crossesThreshold? (before after size : Nat) : Option Bool :=
  (List.range 10).anyM fun i => do
    let share ← if 1024 >>> i ≤ 10000 then some (10000 - 1024 >>> i) else none
    let threshold ← u128.count? (size * share)
    let reached ← u128.count? (after * 10000)
    if threshold < reached then
      let passed ← u128.count? (before * 10000)
      return passed ≤ threshold
    else return false

theorem shiftRight_le_share (i : Nat) : 1024 >>> i ≤ 10000 :=
  (Nat.shiftRight_le 1024 i).trans (by decide)

theorem crossesThreshold_iff (before after size : Nat) :
    crossesThreshold before after size ↔ ∃ i < 10, Passes size i before after := by
  have hshare : ∀ i, ((10000 - 1024 >>> i : Nat) : ℚ) = 10000 - (1024 >>> i : Nat) := by
    intro i
    exact Nat.cast_sub (shiftRight_le_share i)
  simp only [crossesThreshold, List.any_eq_true, List.mem_range, decide_eq_true_eq, Passes,
    threshold]
  refine exists_congr fun i => and_congr_right fun _ => ?_
  rw [le_div_iff₀ (by norm_num), div_lt_iff₀ (by norm_num), ← hshare, and_comm]
  norm_cast

theorem anyM_eq_some {f : Nat → Option Bool} {g : Nat → Bool} {is : List Nat}
    (h : ∀ i ∈ is, f i = some (g i)) : is.anyM f = some (is.any g) := by
  induction is with
  | nil => rfl
  | cons i is ih =>
    rw [List.anyM, h i List.mem_cons_self]
    cases hi : g i with
    | true => simp [hi]
    | false => simpa [hi] using ih fun j hj => h j (List.mem_cons_of_mem i hj)

/-- Numbers of 64 bits do not run over 128 bits when scaled by the fractions. -/
theorem crossesThreshold?_eq {before after : Nat} (hbefore : before < 2 ^ 64)
    (hafter : after < 2 ^ 64) (hsize : size < 2 ^ 64) :
    crossesThreshold? before after size = some (crossesThreshold before after size) := by
  refine anyM_eq_some fun i _ => ?_
  have hscaled : size * (10000 - 1024 >>> i) < 2 ^ 128 := by
    calc size * (10000 - 1024 >>> i) ≤ size * 10000 := Nat.mul_le_mul_left _ (Nat.sub_le _ _)
      _ < 2 ^ 128 := by omega
  simp only [if_pos (shiftRight_le_share i), u128_count? hscaled,
    u128_count? (show after * 10000 < 2 ^ 128 by omega),
    u128_count? (show before * 10000 < 2 ^ 128 by omega), Option.bind_eq_bind, Option.bind_some]
  split <;> simp_all

/-! ### Progress is within the file -/

theorem Balanced.progress_le (h : Balanced size st) : st.meter.stats.progress ≤ size := by
  have hprogress := h.progress
  omega

/-- The bytes that are counted for a known block were due. -/
theorem Balanced.counted {heard : Option (Nat × Block)} (h : Balanced size st)
    (hgood : Good st.tree) (hcounted : Counted env heard st last) : last.meter.stats.progress ≤ size := by
  obtain ⟨id, n, data, disk, hn, hknown, hmeter⟩ := hcounted
  rw [hmeter, metered]
  split
  · exact h.progress_le
  · rename_i hleaf
    have hinner : n.inner? = none := by simpa [Node.isInner] using hleaf
    obtain ⟨hsubset, hlength⟩ := hgood.leaf_due hn hinner hknown.status
    calc st.meter.stats.progress + n.length
        ≤ st.meter.stats.progress + (due size st.tree).ncard := by
          rw [← hlength, ← h.fileSize]
          exact Nat.add_le_add_left (Set.ncard_le_ncard hsubset (finite_due _ _)) _
      _ = size := h.progress

theorem Stopped.progress_le {e : TreeError} (h : Stopped env st e last)
    (hbalanced : Balanced size st) (hgood : Good st.tree) : last.meter.stats.progress ≤ size := by
  obtain ⟨mid, hmoves, -, hcounted⟩ := h
  exact (hbalanced.moves hgood hmoves).counted (hgood.moves hmoves) hcounted

theorem Halted.progress_le {heard : Option (Nat × Block)} {e : TreeError}
    (h : Halted env heard st e last) (hbalanced : Balanced size st) (hgood : Good st.tree) :
    last.meter.stats.progress ≤ size := by
  rcases h with ⟨-, hcounted⟩ | ⟨mid, hmove, hstopped⟩
  · exact hbalanced.counted hgood hcounted
  · exact hstopped.progress_le (hbalanced.move hgood hmove) (hgood.move hmove)

theorem Balanced.start_le (h : Balanced size st) (hunstarted : Unstarted st.tree) :
    ((Download.start env 0).run st).2.meter.stats.progress ≤ size := by
  refine Ends.last (p := fun last : State => last.meter.stats.progress ≤ size) ?_
  refine (ends_start hunstarted).mono (fun _ _ hdone => ?_) fun _ _ hstopped => ?_
  · exact (h.moves hunstarted.good hdone.1).progress_le
  · exact hstopped.progress_le h hunstarted.good

theorem Balanced.receive_le {handler : ReplyHandler} {query : Digest} {reply : Block}
    (h : Balanced size st) (hidle : Idle st.tree) :
    ((Download.receive env id handler query reply).run st).2.meter.stats.progress ≤ size := by
  refine Ends.last (p := fun last : State => last.meter.stats.progress ≤ size) ?_
  refine (ends_receive hidle).mono (fun _ st' hdone => ?_) fun e st' hfailed => ?_
  · rcases hdone with ⟨rfl, -⟩ | ⟨k, n, -, -, -, ⟨mid, -, -, -, -, hmove, -, hmoves, -⟩, -⟩
    · exact h.progress_le
    · exact ((h.move hidle.good hmove).moves (hidle.good.move hmove) hmoves).progress_le
  · obtain ⟨k, n, -, -, -, ⟨rfl, -⟩ | hhalted⟩ := hfailed
    · exact h.progress_le
    · exact hhalted.progress_le h hidle.good

/-! ### Runs -/

/-- A reply as the scheduler routes it to a node. -/
structure Incoming where
  node : NodeId
  handler : ReplyHandler
  query : Digest
  block : Block

def Incoming.take (env : Env) (r : Incoming) (st : State) : Except TreeError Unit × State :=
  (receive env r.node r.handler r.query r.block).run st

/-- The download once it has been started and has taken the replies, each where the one before left
it. -/
def reached (env : Env) (first : State) (rs : List Incoming) : State :=
  rs.foldl (fun st r => (r.take env st).2) ((start env 0).run first).2

def progressAt (env : Env) (first : State) (rs : List Incoming) : Nat :=
  (reached env first rs).meter.stats.progress

/-- No checksum has been found wrong so far. -/
structure Clean (env : Env) (first : State) (rs : List Incoming) : Prop where
  start : ChecksumsHold ((Download.start env 0).run first).1
  take : ∀ init r, init ++ [r] <+: rs → ChecksumsHold (r.take env (reached env first init)).1

/-- Only the last call may find a checksum wrong, for that ends the download. -/
def Proceeds (env : Env) (first : State) (rs : List Incoming) : Prop :=
  ∀ init r, init ++ [r] = rs → Clean env first init

/-- Reply number `k` is for a leaf that takes progress past the threshold `i`. -/
def Triggers (env : Env) (first : State) (size : Nat) (rs : List Incoming) (k i : Nat) : Prop :=
  ∃ r, rs[k]? = some r ∧
    ForLeaf (reached env first (rs.take k)).tree r.node r.handler r.query ∧
    Passes size i (progressAt env first (rs.take k)) (progressAt env first (rs.take (k + 1)))

variable {rs : List Incoming} {r : Incoming}

theorem reached_concat (rs : List Incoming) (r : Incoming) :
    reached env first (rs ++ [r]) = (r.take env (reached env first rs)).2 := by
  rw [reached, List.foldl_append]
  rfl

theorem hastens_concat (env : Env) (first : State) (rs : List Incoming) (r : Incoming) :
    Hastens (ForLeaf (reached env first rs).tree r.node r.handler r.query) (reached env first rs)
      (reached env first (rs ++ [r])) := by
  rw [reached_concat]
  exact (hastens_receive r.node r.handler r.query r.block).run _

theorem counts_reached (env : Env) (first : State) (rs : List Incoming) :
    Counts first (reached env first rs) := by
  induction rs using List.reverseRecOn with
  | nil => exact ((quiet_start 0).run first).counts
  | append_singleton rs r ih => exact ih.trans (hastens_concat env first rs r).counts

theorem progressAt_mono {rs' : List Incoming} (h : rs' <+: rs) :
    progressAt env first rs' ≤ progressAt env first rs := by
  obtain ⟨later, rfl⟩ := h
  induction later using List.reverseRecOn with
  | nil => rw [List.append_nil]
  | append_singleton later r ih =>
    rw [← List.append_assoc]
    exact ih.trans (hastens_concat env first (rs' ++ later) r).counts.progress_le

theorem clean_concat : Clean env first (rs ++ [r]) ↔
    Clean env first rs ∧ ChecksumsHold (r.take env (reached env first rs)).1 := by
  constructor
  · intro h
    exact ⟨⟨h.start, fun init r hinit => h.take init r (hinit.trans (List.prefix_append _ _))⟩,
      h.take rs r (List.prefix_refl _)⟩
  · rintro ⟨h, hlast⟩
    refine ⟨h.start, fun init r' hinit => ?_⟩
    obtain heq | hprefix := List.prefix_concat_iff.1 hinit
    · obtain ⟨rfl, hsame⟩ := List.append_inj' heq rfl
      rw [List.singleton_inj.1 hsame]
      exact hlast
    · exact h.take init r' hprefix

theorem Clean.calls (h : Clean env first rs) : Calls env first (reached env first rs) := by
  induction rs using List.reverseRecOn with
  | nil => exact .start h.start
  | append_singleton rs r ih =>
    obtain ⟨hbefore, hlast⟩ := clean_concat.1 h
    rw [reached_concat]
    exact .receive (ih hbefore) hlast

section Known

variable {f : FileIdentifier} {disk : Disk}

theorem Proceeds.progressAt_le (h : Proceeds env (State.first f disk) rs) :
    progressAt env (State.first f disk) rs ≤ f.length.toNat := by
  rcases List.eq_nil_or_concat rs with rfl | ⟨init, r, rfl⟩
  · exact (balanced_first f disk).start_le (unstarted_forDownload f)
  · obtain ⟨hidle, hbalanced⟩ := (h init r List.concat_eq_append.symm).calls.balanced
    rw [progressAt, List.concat_eq_append, reached_concat]
    exact hbalanced.receive_le hidle

theorem fileSize_reached (rs : List Incoming) :
    (reached env (State.first f disk) rs).meter.stats.fileSize = f.length.toNat :=
  (counts_reached env _ rs).fileSize

theorem reports_reached_le {progress : Nat}
    (h : progress ∈ (reached env (State.first f disk) rs).meter.reports) :
    progress ≤ progressAt env (State.first f disk) rs := by
  exact ((counts_reached env _ rs).reports progress h).resolve_left (Array.not_mem_empty progress)

theorem not_mem_calls_start : .endgame ∉ (reached env (State.first f disk) []).calls := by
  obtain ⟨said, hcalls, hnot⟩ := ((quiet_start 0).run (State.first f disk)).unhurried
  have hsame : (reached env (State.first f disk) []).calls = said.toArray :=
    hcalls.trans Array.empty_append
  rw [hsame]
  simpa using hnot

theorem calls_reached_take {k : Nat} (hk : k < rs.length) : ∃ said : List SchedulerCall,
    (reached env (State.first f disk) (rs.take (k + 1))).calls =
      (reached env (State.first f disk) (rs.take k)).calls ++ said.toArray ∧
    said.count .endgame ≤ 1 ∧
    (.endgame ∈ said ↔ ∃ i < 10, Triggers env (State.first f disk) f.length.toNat rs k i) := by
  obtain ⟨-, said, hcalls, hcount, hmem⟩ :=
    hastens_concat env (State.first f disk) (rs.take k) rs[k]
  rw [List.take_append_getElem hk] at hcalls hmem
  refine ⟨said, hcalls, hcount, hmem.trans ?_⟩
  rw [fileSize_reached, crossesThreshold_iff]
  simp only [Triggers, List.getElem?_eq_getElem hk, Option.some.injEq, ↓existsAndEq, true_and,
    progressAt]
  tauto

end Known

/-- Progress that has passed a threshold does not pass it again. -/
theorem Triggers.not_lt {i j k : Nat} (h : Triggers env first size rs j i)
    (h' : Triggers env first size rs k i) : ¬ j < k := by
  obtain ⟨-, -, -, -, habove⟩ := h
  obtain ⟨-, -, -, hbelow, -⟩ := h'
  intro hlt
  have hmono : progressAt env first (rs.take (j + 1)) ≤ progressAt env first (rs.take k) :=
    progressAt_mono (List.take_prefix_take_left (by omega))
  have hcast : (progressAt env first (rs.take (j + 1)) : ℚ) ≤ progressAt env first (rs.take k) :=
    Nat.cast_le.2 hmono
  exact absurd ((habove.trans_le hcast).trans_le hbelow) (lt_irrefl _)

theorem Triggers.unique {i j k : Nat} (h : Triggers env first size rs j i)
    (h' : Triggers env first size rs k i) : j = k :=
  Nat.le_antisymm (Nat.le_of_not_lt (h'.not_lt h)) (Nat.le_of_not_lt (h.not_lt h'))

def passed (size progress : Nat) : Finset Nat :=
  (Finset.range 10).filter fun i => threshold size i < progress

theorem passed_subset {before after : Nat} (h : before ≤ after) :
    passed size before ⊆ passed size after := by
  intro i hi
  obtain ⟨hten, habove⟩ := Finset.mem_filter.1 hi
  exact Finset.mem_filter.2 ⟨hten, habove.trans_le (Nat.cast_le.2 h)⟩

theorem card_passed_lt {i before after : Nat} (hi : i < 10) (hle : before ≤ after)
    (h : Passes size i before after) : (passed size before).card < (passed size after).card := by
  refine Finset.card_lt_card ⟨passed_subset hle, fun hsubset => ?_⟩
  have hafter : i ∈ passed size after := Finset.mem_filter.2 ⟨Finset.mem_range.2 hi, h.2⟩
  exact absurd (Finset.mem_filter.1 (hsubset hafter)).2 (not_lt.2 h.1)

/-- Every call of the endgame is paid for by a threshold that is passed from then on. -/
theorem count_calls_le (env : Env) (f : FileIdentifier) (disk : Disk) (rs : List Incoming) :
    (reached env (State.first f disk) rs).calls.count .endgame ≤
      (passed f.length.toNat (progressAt env (State.first f disk) rs)).card := by
  induction rs using List.reverseRecOn with
  | nil =>
    rw [Array.count_eq_zero.2 not_mem_calls_start]
    exact Nat.zero_le _
  | append_singleton rs r ih =>
    obtain ⟨hcounts, said, hcalls, hone, hmem⟩ := hastens_concat env (State.first f disk) rs r
    rw [fileSize_reached, crossesThreshold_iff] at hmem
    have hcount : (reached env (State.first f disk) (rs ++ [r])).calls.count .endgame =
        (reached env (State.first f disk) rs).calls.count .endgame + said.count .endgame := by
      rw [hcalls]
      simp
    by_cases hsaid : .endgame ∈ said
    · obtain ⟨-, i, hi, hpasses⟩ := hmem.1 hsaid
      have hlt := card_passed_lt hi hcounts.progress_le hpasses
      rw [hcount]
      exact (Nat.add_le_add ih hone).trans hlt
    · rw [hcount, List.count_eq_zero_of_not_mem hsaid]
      exact ih.trans (Finset.card_le_card (passed_subset hcounts.progress_le))

/-- The endgame is called with a reply just if the reply is for a leaf that takes progress past one
of ten thresholds, once for each reply, with one reply at most for each threshold, and so ten times
at most. Progress is a word of 64 bits all along, and the test runs over nowhere. -/
theorem endgame_of_replies (env : Env) (f : FileIdentifier) (disk : Disk) (rs : List Incoming) :
    .endgame ∉ (reached env (State.first f disk) []).calls ∧
    (∀ k < rs.length, ∃ said : List SchedulerCall,
      (reached env (State.first f disk) (rs.take (k + 1))).calls =
        (reached env (State.first f disk) (rs.take k)).calls ++ said.toArray ∧
      said.count .endgame ≤ 1 ∧
      (.endgame ∈ said ↔ ∃ i < 10, Triggers env (State.first f disk) f.length.toNat rs k i)) ∧
    (∀ i j k, Triggers env (State.first f disk) f.length.toNat rs j i →
      Triggers env (State.first f disk) f.length.toNat rs k i → j = k) ∧
    (reached env (State.first f disk) rs).calls.count .endgame ≤ 10 ∧
    (Proceeds env (State.first f disk) rs →
      (∀ progress ∈ (reached env (State.first f disk) rs).meter.reports,
        u64.count? progress = some progress) ∧
      ∀ k < rs.length, crossesThreshold? (progressAt env (State.first f disk) (rs.take k))
          (progressAt env (State.first f disk) (rs.take (k + 1))) f.length.toNat =
        some (crossesThreshold (progressAt env (State.first f disk) (rs.take k))
          (progressAt env (State.first f disk) (rs.take (k + 1))) f.length.toNat)) := by
  refine ⟨not_mem_calls_start, fun k hk => calls_reached_take hk, fun i j k h h' => h.unique h',
    ?_, ?_⟩
  · calc (reached env (State.first f disk) rs).calls.count .endgame
        ≤ (passed f.length.toNat (progressAt env (State.first f disk) rs)).card :=
          count_calls_le env f disk rs
      _ ≤ (Finset.range 10).card := Finset.card_filter_le _ _
      _ = 10 := Finset.card_range 10
  · intro hproceeds
    have hword : f.length.toNat < 2 ^ 64 := f.length.toNat_lt
    have hle := hproceeds.progressAt_le
    have hinit : ∀ k, progressAt env (State.first f disk) (rs.take k) < 2 ^ 64 := fun k =>
      ((progressAt_mono (List.take_prefix k rs)).trans hle).trans_lt hword
    refine ⟨fun progress hprogress => ?_, fun k _ => ?_⟩
    · refine count?_eq (Int.le_sub_one_of_lt ?_)
      exact_mod_cast ((reports_reached_le hprogress).trans hle).trans_lt hword
    · exact crossesThreshold?_eq (hinit k) (hinit (k + 1)) hword

def rootReply : Incoming := ⟨0, .own, zeroDigest, shelfSource.cipher stripSuite 1 0⟩

def leafReply (position : Nat) : Incoming :=
  ⟨0, .children, (shelfSource.chk stripSuite 0 position).query,
    shelfSource.cipher stripSuite 0 position⟩

theorem reached_shelfWaiting :
    reached shelfEnv (State.first shelfId shelfOpen) [] = shelfWaiting := by
  rw [reached, List.foldl_nil, shelfWaiting]

theorem reached_shelfUnfolded :
    reached shelfEnv (State.first shelfId shelfOpen) [rootReply] = shelfUnfolded := by
  rw [← List.nil_append [rootReply], reached_concat, reached_shelfWaiting, Incoming.take, rootReply,
    shelfUnfolded]

theorem proceeds_shelf : Proceeds shelfEnv (State.first shelfId shelfOpen)
    [rootReply, leafReply 0, leafReply 1024] := by
  intro init r heq
  have hsplit : init ++ [r] = [rootReply, leafReply 0] ++ [leafReply 1024] := heq
  obtain ⟨rfl, -⟩ := List.append_inj' hsplit rfl
  obtain ⟨hwaiting, hunfolded, hhalf, -⟩ := isOk_shelf
  have hnone : Clean shelfEnv (State.first shelfId shelfOpen) [] :=
    ⟨checksumsHold_of_isOk hwaiting, fun _ _ hprefix => by simp at hprefix⟩
  have hroot : Clean shelfEnv (State.first shelfId shelfOpen) ([] ++ [rootReply]) := by
    refine clean_concat.2 ⟨hnone, ?_⟩
    rw [reached_shelfWaiting, Incoming.take]
    exact checksumsHold_of_isOk hunfolded
  have hfirst : Clean shelfEnv (State.first shelfId shelfOpen) ([rootReply] ++ [leafReply 0]) := by
    refine clean_concat.2 ⟨hroot, ?_⟩
    rw [reached_shelfUnfolded, Incoming.take]
    exact checksumsHold_of_isOk hhalf
  exact hfirst

/-- Each leaf takes progress past some of the thresholds. -/
theorem endgame_of_shelf_replies :
    let rs := [rootReply, leafReply 0, leafReply 1024]
    Proceeds shelfEnv (State.first shelfId shelfOpen) rs ∧
      (reached shelfEnv (State.first shelfId shelfOpen) rs).calls.count .endgame = 2 ∧
      ∀ progress ∈ (reached shelfEnv (State.first shelfId shelfOpen) rs).meter.reports,
        u64.count? progress = some progress := by
  refine ⟨proceeds_shelf, by decide +kernel, ?_⟩
  obtain ⟨-, -, -, -, hcounted⟩ := endgame_of_replies shelfEnv shelfId shelfOpen
    [rootReply, leafReply 0, leafReply 1024]
  exact (hcounted proceeds_shelf).1

end Download

end ContentTree

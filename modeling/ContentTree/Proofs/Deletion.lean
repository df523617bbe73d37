import ContentTree.Proofs.Files
import ContentTree.Proofs.MemoryDaemon
import ContentTree.Proofs.Opening

/-!
# Deleting what was inserted

An insertion into an empty store succeeds, and what it leaves there can be taken out again unless two
blocks of the file go by one hash. Then the second of the two is refused when it is deleted, and the
deletion stops.
-/

namespace ContentTree

open MemoryDaemon (Item)

/-! ### The places of a subtree -/

namespace Source

variable {src : Source} {level position below start : Nat}

/-- The places below a place and the place itself, each after its children. -/
def places (src : Source) : Nat → Nat → List (Nat × Nat)
  | 0, position => [(0, position)]
  | level + 1, position =>
    (src.starts level position).flatMap (places src level) ++ [(level + 1, position)]

theorem mem_starts (hsize : src.size ≤ maxSize) (hplace : Place src.size (level + 1) position) :
    start ∈ src.starts level position ↔
      ∃ i < childCount src.size position (level + 1), position + i * span level = start := by
  simp only [starts, List.mem_map, List.mem_range, coverage_eq_span (hplace.level_lt hsize)]

theorem place_of_mem_starts (hsize : src.size ≤ maxSize)
    (hplace : Place src.size (level + 1) position) (hstart : start ∈ src.starts level position) :
    Place src.size level start := by
  obtain ⟨i, hi, rfl⟩ := (mem_starts hsize hplace).1 hstart
  exact hplace.child hsize hi

theorem mem_places (hsize : src.size ≤ maxSize) (hplace : Place src.size level position) :
    (below, start) ∈ src.places level position ↔
      Place src.size below start ∧ Covers level position below start := by
  induction level generalizing position with
  | zero =>
    rw [places, List.mem_singleton, Prod.mk.injEq]
    constructor
    · rintro ⟨rfl, rfl⟩
      exact ⟨hplace, covers_self 0 start⟩
    · rintro ⟨hstart, hcovers⟩
      obtain rfl : below = 0 := Nat.le_zero.1 hcovers.below_le
      exact ⟨rfl, (hcovers.eq_of_level hplace.dvd hstart.dvd).symm⟩
  | succ level ih =>
    rw [places, List.mem_append, List.mem_flatMap, List.mem_singleton, Prod.mk.injEq]
    constructor
    · rintro (⟨child, hchild, hmem⟩ | ⟨rfl, rfl⟩)
      · obtain ⟨hstart, hcovers⟩ := (ih (place_of_mem_starts hsize hplace hchild)).1 hmem
        obtain ⟨i, hi, rfl⟩ := (mem_starts hsize hplace).1 hchild
        exact ⟨hstart, hcovers.of_child ((lt_childCount_iff hsize (hplace.level_lt hsize)).1 hi).1⟩
      · exact ⟨hplace, covers_self _ _⟩
    · rintro ⟨hstart, hcovers⟩
      -- What is covered is the place itself, or lies at or below one of its children.
      rcases Nat.lt_or_ge level below with hlt | hle
      · obtain rfl : below = level + 1 := Nat.le_antisymm hcovers.below_le hlt
        exact .inr ⟨rfl, (hcovers.eq_of_level hplace.dvd hstart.dvd).symm⟩
      · obtain ⟨i, hi, hchild⟩ := hcovers.child hsize hplace hstart hle
        exact .inl ⟨_, (mem_starts hsize hplace).2 ⟨i, hi, rfl⟩,
          (ih (hplace.child hsize hi)).2 ⟨hstart, hchild⟩⟩

theorem nodup_places (hsize : src.size ≤ maxSize) (hplace : Place src.size level position) :
    (src.places level position).Nodup := by
  induction level generalizing position with
  | zero => exact List.nodup_singleton _
  | succ level ih =>
    have hpos := span_pos level
    have hstarts : (src.starts level position).Nodup := by
      refine (List.nodup_map_iff_inj_on List.nodup_range).2 fun i _ j _ heq => ?_
      rw [coverage_eq_span (hplace.level_lt hsize)] at heq
      exact Nat.eq_of_mul_eq_mul_right hpos (Nat.add_left_cancel heq)
    have hchild : ∀ start ∈ src.starts level position, Place src.size level start :=
      fun start => place_of_mem_starts hsize hplace
    refine List.Nodup.append ?_ (List.nodup_singleton _) ?_
    -- No place is below two children, since only one place of their level covers it.
    · refine List.nodup_flatMap.2 ⟨fun start hstart => ih (hchild start hstart), ?_⟩
      refine hstarts.imp_of_mem fun hstart hother hne => ?_
      rintro ⟨below, leaf⟩ hmem hmem'
      have hcovers := ((mem_places hsize (hchild _ hstart)).1 hmem).2
      have hcovers' := ((mem_places hsize (hchild _ hother)).1 hmem').2
      exact hne (hcovers.unique (hchild _ hstart).dvd (hchild _ hother).dvd hcovers')
    · rw [List.disjoint_singleton]
      intro hmem
      obtain ⟨start, hstart, hmem⟩ := List.mem_flatMap.1 hmem
      have hle := ((mem_places hsize (hchild start hstart)).1 hmem).2.below_le
      omega

end Source

/-! ### What is sent for a place -/

namespace Upload

variable {σ : Type} (env : Env σ) (src : Source)

def ownMessages : Nat → Nat → List ClientMessage
  | 0, position => [leafMessage env src position]
  | level + 1, position =>
    (if env.index ≠ 0 then
      [env.direction.superMessage env.priority (src.table env.suite level position).superHash]
    else []) ++
    [env.direction.blockMessage env.priority (src.cipher env.suite (level + 1) position)]

theorem messages_eq_flatMap (level position : Nat) : messages env src level position =
    (src.places level position).flatMap fun place => ownMessages env src place.1 place.2 := by
  induction level generalizing position with
  | zero => rfl
  | succ level ih =>
    have hchildren := funext ih
    rw [messages, Source.places, List.flatMap_append, List.flatMap_assoc, List.flatMap_singleton,
      hchildren]
    rfl

end Upload

/-! ### What a daemon has of a file -/

namespace Source

variable {s : Suite} {src : Source} {index : UInt16} {level position : Nat}

/-- What a daemon gets for a place besides super hashes: its block, or where the leaves are indexed
the entry of a leaf. -/
def item (s : Suite) (src : Source) (index : UInt16) (level position : Nat) : Item :=
  if level = 0 ∧ index ≠ 0 then .entry (src.chk s level position).query
  else .block (src.chk s level position).query

def items (s : Suite) (src : Source) (index : UInt16) : Nat → Nat → List Item
  | 0, position => [src.item s index 0 position]
  | level + 1, position =>
    (if index ≠ 0 then [.superHash (src.table s level position).superHash] else []) ++
      [src.item s index (level + 1) position]

/-- No two blocks that a daemon gets of the file have the same hash, and no two entries. -/
def Distinct (s : Suite) (src : Source) (index : UInt16) : Prop :=
  ∀ level position other start, Place src.size level position → Place src.size other start →
    (index ≠ 0 → (level = 0 ↔ other = 0)) →
    (src.chk s level position).query = (src.chk s other start).query →
      level = other ∧ position = start

theorem Distinct.congr {src' : Source} (hsame : src'.size = src.size)
    (hblock : ∀ level position, Place src.size level position →
      src'.block s level position = src.block s level position) :
    src'.Distinct s index ↔ src.Distinct s index := by
  have hchk : ∀ {level position}, Place src.size level position →
      src'.chk s level position = src.chk s level position := by
    intro level position hplace
    rw [chk, chk, hsame, hblock level position hplace]
  unfold Distinct
  rw [hsame]
  constructor <;> intro h level position other start hplace hstart hkind hquery
  · rw [← hchk hplace, ← hchk hstart] at hquery
    exact h level position other start hplace hstart hkind hquery
  · rw [hchk hplace, hchk hstart] at hquery
    exact h level position other start hplace hstart hkind hquery

theorem isSuper_item : (src.item s index level position).isSuper = false := by
  unfold item
  split <;> rfl

theorem filter_items :
    (src.items s index level position).filter (!·.isSuper) = [src.item s index level position] := by
  cases level with
  | zero => simp [items, isSuper_item]
  | succ level =>
    have hsuper : ∀ key, (Item.superHash key).isSuper = true := fun _ => rfl
    by_cases hindex : index = 0 <;> simp [items, hindex, isSuper_item, hsuper]

theorem item_eq_iff {other start : Nat} :
    src.item s index level position = src.item s index other start ↔
      (index ≠ 0 → (level = 0 ↔ other = 0)) ∧
        (src.chk s level position).query = (src.chk s other start).query := by
  unfold item
  split <;> split <;> simp <;> tauto

/-- A daemon gets nothing twice, super hashes apart, just if the blocks are distinct. -/
theorem nodup_items_iff (hsize : src.size ≤ maxSize) :
    (((src.places (treeDepth src.size) 0).flatMap
      fun place => src.items s index place.1 place.2).filter (!·.isSuper)).Nodup ↔
        src.Distinct s index := by
  have hplace := place_root src.size
  have hmem : ∀ {below start}, (below, start) ∈ src.places (treeDepth src.size) 0 ↔
      Place src.size below start := fun {below start} =>
    (mem_places hsize hplace).trans (and_iff_left_of_imp covers_root)
  rw [List.filter_flatMap]
  simp only [filter_items]
  rw [← List.map_eq_flatMap, List.nodup_map_iff_inj_on (nodup_places hsize hplace)]
  simp only [Prod.forall, hmem, item_eq_iff, Prod.mk.injEq]
  constructor
  · intro hinjective level position other start hplace hstart hkind hquery
    exact hinjective level position hplace other start hstart ⟨hkind, hquery⟩
  · rintro hdistinct level position hplace other start hstart ⟨hkind, hquery⟩
    exact hdistinct level position other start hplace hstart hkind hquery

theorem leaf_replicate (n : Nat) (b : UInt8) (position : Nat) :
    (ofFile (List.replicate n b)).leaf position =
      List.replicate (min leafCapacity (n - position)) b := by
  simp [ofFile]

end Source

/-! ### Walks over a file -/

namespace Upload

variable {σ : Type} {env : Env σ} {src : Source}

/-- What a message of a walk moves. -/
def item? : Upload → Suite → ClientMessage → Option Item
  | insert => MemoryDaemon.put?
  | delete => MemoryDaemon.taken?

theorem item_messages (env : Env σ) (src : Source) (level position : Nat) :
    (messages env src level position).map (env.direction.item? env.suite) =
      ((src.places level position).flatMap fun place =>
        src.items env.suite env.index place.1 place.2).map some := by
  have hown : ∀ place : Nat × Nat, (ownMessages env src place.1 place.2).map
      (env.direction.item? env.suite) =
        (src.items env.suite env.index place.1 place.2).map some := by
    rintro ⟨level, position⟩
    cases hdirection : env.direction <;> cases level <;> by_cases hindex : env.index = 0 <;>
      simp [ownMessages, Source.items, Source.item, leafMessage, hdirection, hindex, item?,
        MemoryDaemon.put?, MemoryDaemon.taken?, blockMessage, indexMessage, superMessage,
        Source.query_chk]
  rw [messages_eq_flatMap, List.map_flatMap, List.map_flatMap]
  simp only [hown]

end Upload

namespace Files

variable {σ : Type} {s : Suite} {d : Disk} {path : String} {opts : InsertOptions}

theorem hasLeaf_of_content {storage : Storage} {object start : Nat} {writable : Bool}
    (hobject : storage.levels[0]? = some (some (.file object writable)))
    (hsize : (d.content object).size ≤ Handle.offsetLimit)
    (hstart : Place (d.content object).size 0 start) :
    storage.HasLeaf d (d.content object).size start := by
  have hoffset : levelOffset 0 start < Handle.offsetLimit := by
    rw [levelOffset_zero]
    rcases hstart.start with hlt | rfl
    · exact hlt.trans_le hsize
    · decide
  refine ⟨_, Storage.read_of_file hobject hoffset _, ?_⟩
  rw [FileContent.length_readAt, levelOffset_zero]
  exact Nat.min_eq_left (Nat.min_le_left _ _)

section Open

variable {storage : Storage} {size : Nat} (hsize : size ≤ maxSize)
  (hopen : ∀ {σ : Type} (direction : Upload) (sink : Sink σ) (x : σ),
    openWalk s d path opts direction sink x =
      .ok (walkEnv s d opts size storage direction sink, ⟨Tree.new size, Meter.new size, x⟩))
  (hheld : ∀ start, Place size 0 start → storage.HasLeaf d size start)

include hsize hopen hheld

theorem insert_of_accepted {sink : Sink σ} {x : σ}
    (h : Upload.Accepted (walkEnv s d opts size storage .insert sink) x
      (Upload.messages (walkEnv s d opts size storage .insert sink) (storage.source d size)
        (treeDepth size) 0)) :
    ∃ f, insert s d path opts sink x = (.ok f,
      Upload.delivered (walkEnv s d opts size storage .insert sink) x
        (Upload.messages (walkEnv s d opts size storage .insert sink) (storage.source d size)
          (treeDepth size) 0)) := by
  obtain ⟨n, after, hwalk⟩ := @walkAll_ok σ (walkEnv s d opts size storage .insert sink)
    (storage.source d size) hsize rfl (Meter.new size) x (fun start hstart _ => hheld start hstart) h
  obtain ⟨-, hsink, -⟩ := @walkAll_eq_ok _ _ (storage.source d size) _ _ _ _ hsize rfl hwalk
  have hwalk : walkAll (walkEnv s d opts size storage .insert sink)
      ⟨Tree.new size, Meter.new size, x⟩ = (.ok n, after) := hwalk
  unfold insert
  rw [hopen]
  simp only [hwalk, hsink]
  exact ⟨_, rfl⟩

theorem delete_iff_accepted {sink : Sink σ} {x : σ} :
    ((delete s d path opts none sink x).1 = .ok () ↔
      Upload.Accepted (walkEnv s d opts size storage .delete sink) x
        (Upload.messages (walkEnv s d opts size storage .delete sink) (storage.source d size)
          (treeDepth size) 0)) ∧
    ((delete s d path opts none sink x).1 = .ok () → (delete s d path opts none sink x).2 =
      Upload.delivered (walkEnv s d opts size storage .delete sink) x
        (Upload.messages (walkEnv s d opts size storage .delete sink) (storage.source d size)
          (treeDepth size) 0)) := by
  unfold delete
  simp only [hopen]
  rcases hwalk : walkAll (walkEnv s d opts size storage .delete sink)
    ⟨Tree.new size, Meter.new size, x⟩ with ⟨e | n, after⟩
  · refine ⟨iff_of_false (by simp [Except.map, Except.mapError]) fun haccepted => ?_,
      by simp [Except.map, Except.mapError]⟩
    obtain ⟨n, after', hok⟩ := @walkAll_ok σ (walkEnv s d opts size storage .delete sink)
      (storage.source d size) hsize rfl (Meter.new size) x (fun start hstart _ => hheld start hstart)
      haccepted
    cases hwalk.symm.trans hok
  · obtain ⟨-, hsink, -, haccepted⟩ :=
      @walkAll_eq_ok _ _ (storage.source d size) _ _ _ _ hsize rfl hwalk
    exact ⟨iff_of_true rfl haccepted, fun _ => hsink⟩

end Open

theorem delete_expected {f : FileIdentifier} (h : identify s d path opts = .ok f) (sink : Sink σ)
    (x : σ) : delete s d path opts (some f) sink x = delete s d path opts none sink x := by
  unfold delete
  rw [h]
  simp only [if_true]

/-- The identifier of a file does not depend on who receives its messages. -/
theorem identify_of_insert {c : FileContent} {sink : Sink σ} {x x' : σ} {f : FileIdentifier}
    (hc : d.contentAt path = .ok c) (hsize : c.size ≤ Handle.offsetLimit)
    (h : insert s d path opts sink x = (.ok f, x')) : identify s d path opts = .ok f := by
  have hmax : c.size ≤ maxSize := hsize.trans (by decide)
  obtain ⟨rfl, -⟩ := insert_eq_ok hc hmax h
  obtain ⟨storage, object, rfl, hobject, -, hopen⟩ := openWalk_eq s opts hc
  obtain ⟨f, hdiscard⟩ := @insert_of_accepted Unit s d path opts storage _ hmax hopen
    (fun start hstart => hasLeaf_of_content hobject hsize hstart) Sink.discard ()
    (Upload.accepted_discard rfl () _)
  obtain ⟨rfl, -⟩ := insert_eq_ok hc hmax hdiscard
  unfold identify
  rw [hdiscard]

/-- An insertion into an empty store succeeds. What it has put in can be taken out again just if the
blocks are distinct, and then nothing is left. -/
theorem delete_after_insert {c : FileContent} (s : Suite) (opts : InsertOptions)
    (hc : d.contentAt path = .ok c) (hsize : c.size ≤ Handle.offsetLimit) {daemon : MemoryDaemon}
    (hlistens : daemon.closed = false) (hempty : daemon.Empty) :
    ∃ f after, insert s d path opts (MemoryDaemon.sink s) daemon = (.ok f, after) ∧
      ((delete s d path opts none (MemoryDaemon.sink s) after).1 = .ok () ↔
        (Source.ofFile c.toBytes).Distinct s (if c.size ≤ leafCapacity then 0 else opts.index)) ∧
      ((delete s d path opts none (MemoryDaemon.sink s) after).1 = .ok () →
        (delete s d path opts none (MemoryDaemon.sink s) after).2.Empty) := by
  have hmax : c.size ≤ maxSize := hsize.trans (by decide)
  obtain ⟨storage, object, rfl, hobject, -, hopen⟩ := openWalk_eq s opts hc
  have hheld : ∀ start, Place (d.content object).size 0 start →
      storage.HasLeaf d (d.content object).size start :=
    fun start hstart => hasLeaf_of_content hobject hsize hstart
  have hserving : daemon.Serving := ⟨hlistens, by rw [hempty.2.2]; exact List.nodup_nil⟩
  let index := if (d.content object).size ≤ leafCapacity then 0 else opts.index
  let src := storage.source d (d.content object).size
  let items := (src.places (treeDepth (d.content object).size) 0).flatMap
    fun place => src.items s index place.1 place.2
  let put := walkEnv s d opts (d.content object).size storage .insert (MemoryDaemon.sink s)
  let taken := walkEnv s d opts (d.content object).size storage .delete (MemoryDaemon.sink s)
  -- Both walks go over the same items in the same order.
  obtain ⟨haccepted, hserving', hhas⟩ := @MemoryDaemon.accepted_puts s daemon put _ items hserving
    rfl (Upload.item_messages put src (treeDepth (d.content object).size) 0)
  obtain ⟨f, hinsert⟩ := insert_of_accepted hmax hopen hheld haccepted
  obtain ⟨htaken, hleft⟩ := @MemoryDaemon.accepted_taken s _ taken _ items hserving' rfl
    (Upload.item_messages taken src (treeDepth (d.content object).size) 0)
  have hdelete := @delete_iff_accepted _ s d path opts storage _ hmax hopen hheld
    (MemoryDaemon.sink s) (Upload.delivered put daemon
      (Upload.messages put src (treeDepth (d.content object).size) 0))
  have hnothing := MemoryDaemon.empty_iff.1 hempty
  -- An item is there to be taken unless it has been taken before under the same hash.
  have hdistinct : (items.filter (!·.isSuper)).Nodup ↔
      (Source.ofFile (d.content object).toBytes).Distinct s index :=
    (Source.nodup_items_iff hmax).trans <|
      (Source.Distinct.congr (FileContent.length_toBytes _) fun level position hplace =>
        (block_eq hobject hmax hheld hplace).symm).symm
  refine ⟨f, _, hinsert, hdelete.1.trans (htaken.trans ?_), fun hok => ?_⟩
  · rw [and_iff_left fun x hx _ => (hhas x).2 (.inl hx)]
    exact hdistinct
  · rw [hdelete.2 hok, MemoryDaemon.empty_iff]
    intro x hx
    obtain ⟨hgone, hthere⟩ := (hleft x).1 hx
    exact ((hhas x).1 hthere).elim hgone (hnothing x)

/-- Deleting undoes inserting just if the blocks of the file are distinct. -/
theorem deleted_iff_distinct {c : FileContent} (s : Suite) (opts : InsertOptions)
    (hc : d.contentAt path = .ok c) (hsize : c.size ≤ Handle.offsetLimit) {daemon : MemoryDaemon}
    (hlistens : daemon.closed = false) (hempty : daemon.Empty) :
    ∃ f after, insert s d path opts (MemoryDaemon.sink s) daemon = (.ok f, after) ∧
      ∀ expected, expected = none ∨ expected = some f →
        ((delete s d path opts expected (MemoryDaemon.sink s) after).1 = .ok () ↔
          (Source.ofFile c.toBytes).Distinct s (if c.size ≤ leafCapacity then 0 else opts.index)) ∧
        ((delete s d path opts expected (MemoryDaemon.sink s) after).1 = .ok () →
          (delete s d path opts expected (MemoryDaemon.sink s) after).2.Empty) := by
  obtain ⟨f, after, hinsert, hdelete⟩ := delete_after_insert s opts hc hsize hlistens hempty
  refine ⟨f, after, hinsert, ?_⟩
  rintro expected (rfl | rfl)
  · exact hdelete
  · rwa [delete_expected (identify_of_insert hc hsize hinsert)]

def lone (c : FileContent) : Disk := (Disk.empty.created 0 "f").setContent 0 c

theorem contentAt_lone (c : FileContent) : (lone c).contentAt "f" = .ok c := by
  have hopen : (Disk.empty.created 0 "f").open? "f" = .ok (.file 0) := by decide +kernel
  have hbound : 0 < (Disk.empty.created 0 "f").objects.size := by decide
  exact Disk.contentAt_eq_ok.2 ⟨0, (Disk.extends_setContent _ 0 c).open? hopen,
    Disk.content_setContent_self hbound c⟩

theorem deleted_of_strip :
    ∃ f after, insert stripSuite (lone (strip 9)) "f" ⟨0, 1⟩ (MemoryDaemon.sink stripSuite)
        (.new ⟨false, false, false⟩) = (.ok f, after) ∧
      (delete stripSuite (lone (strip 9)) "f" ⟨0, 1⟩ (some f) (MemoryDaemon.sink stripSuite)
        after).1 = .ok () := by
  obtain ⟨f, after, hinsert, hdelete⟩ := deleted_iff_distinct stripSuite ⟨0, 1⟩
    (contentAt_lone (strip 9)) (by decide)
    (show (MemoryDaemon.new ⟨false, false, false⟩).closed = false from rfl) ⟨rfl, rfl, rfl⟩
  refine ⟨f, after, hinsert, (hdelete (some f) (.inr rfl)).1.2 ?_⟩
  rw [toBytes_strip]
  exact (Source.nodup_items_iff (by decide +kernel)).1 (by decide +kernel)

/-- A file of two equal leaves is inserted and cannot be deleted. -/
theorem not_deleted_of_equal_leaves :
    ∃ f after, insert Suite.standard (lone ⟨2048, []⟩) "f" ⟨0, 0⟩
        (MemoryDaemon.sink Suite.standard) (.new ⟨false, false, false⟩) = (.ok f, after) ∧
      (delete Suite.standard (lone ⟨2048, []⟩) "f" ⟨0, 0⟩ none (MemoryDaemon.sink Suite.standard)
        after).1 ≠ .ok () := by
  obtain ⟨f, after, hinsert, hdelete, -⟩ := delete_after_insert Suite.standard ⟨0, 0⟩
    (contentAt_lone ⟨2048, []⟩) (by decide)
    (show (MemoryDaemon.new ⟨false, false, false⟩).closed = false from rfl) ⟨rfl, rfl, rfl⟩
  refine ⟨f, after, hinsert, fun hok => ?_⟩
  have hdistinct := hdelete.1 hok
  have hbytes : FileContent.toBytes ⟨2048, []⟩ = List.replicate 2048 0 := by
    rw [FileContent.toBytes, FileContent.readAt_eq]
    simp [FileContent.byteAt, List.map_const']
  rw [hbytes] at hdistinct
  have hsize : (Source.ofFile (List.replicate 2048 0)).size = 2048 := List.length_replicate
  have hleaf : (Source.ofFile (List.replicate 2048 0)).chk Suite.standard 0 0 =
      (Source.ofFile (List.replicate 2048 0)).chk Suite.standard 0 1024 := by
    have hlength : nodeLength 2048 0 0 = nodeLength 2048 0 1024 := by decide
    have hblock : (Source.ofFile (List.replicate 2048 0)).leaf 0 =
        (Source.ofFile (List.replicate 2048 0)).leaf 1024 := by
      have hcount : min leafCapacity (2048 - 0) = min leafCapacity (2048 - 1024) := by decide
      rw [Source.leaf_replicate, Source.leaf_replicate, hcount]
    rw [Source.chk, Source.chk, hsize, hlength, Source.block_zero, Source.block_zero, hblock]
  have hsame := hdistinct 0 0 0 1024
    ⟨Nat.zero_le _, dvd_zero _, .inr rfl⟩
    ⟨Nat.zero_le _, ⟨1, rfl⟩, .inl (by rw [hsize]; decide)⟩ (fun _ => Iff.rfl)
    (congrArg Chk.query hleaf)
  exact absurd hsame.2 (by decide)

end Files

end ContentTree

import Mathlib.Data.List.Nodup
import ContentTree.MemoryDaemon
import ContentTree.Proofs.Tree.Upload

/-!
# What a daemon in memory holds

Messages put items into the store and take them out again, each under its hash. Whatever is put in
is accepted. Of the messages that take items out a walk survives just those that find them, and all
that concern super hashes.
-/

namespace ContentTree

namespace MemoryDaemon

/-- Something in a store, by what it is and its hash. -/
inductive Item
  | block (key : Digest)
  | entry (key : Digest)
  | superHash (key : Digest)
  deriving DecidableEq

def Item.isSuper : Item → Bool
  | .superHash _ => true
  | _ => false

def Has (d : MemoryDaemon) : Item → Prop
  | .block key => key ∈ d.blocks.map Prod.fst
  | .entry key => key ∈ d.indexed.map Prod.fst
  | .superHash key => key ∈ d.supers

def Empty (d : MemoryDaemon) : Prop := d.blocks = [] ∧ d.indexed = [] ∧ d.supers = []

theorem empty_iff {d : MemoryDaemon} : d.Empty ↔ ∀ x, ¬ d.Has x := by
  constructor
  · rintro ⟨hblocks, hindexed, hsupers⟩ (key | key | key) <;> simp [Has, hblocks, hindexed, hsupers]
  · intro h
    refine ⟨?_, ?_, ?_⟩
    · exact List.map_eq_nil_iff.1 (List.eq_nil_iff_forall_not_mem.2 fun key => h (.block key))
    · exact List.map_eq_nil_iff.1 (List.eq_nil_iff_forall_not_mem.2 fun key => h (.entry key))
    · exact List.eq_nil_iff_forall_not_mem.2 fun key => h (.superHash key)

def put? (s : Suite) : ClientMessage → Option Item
  | .insert _ b => some (.block (s.hash b.toList))
  | .index e => some (.entry e.hash)
  | .indexSuper _ h => some (.superHash h)
  | _ => none

def taken? (s : Suite) : ClientMessage → Option Item
  | .delete _ b => some (.block (s.hash b.toList))
  | .unindex e => some (.entry e.hash)
  | .unindexSuper _ h => some (.superHash h)
  | _ => none

/-! ### Tables -/

section Table

variable {α : Type} {key other : Digest} {value : α} {es : List (Digest × α)}

theorem mem_keys_put : other ∈ (put key value es).map Prod.fst ↔
    other = key ∨ other ∈ es.map Prod.fst := by
  induction es with
  | nil => simp [put]
  | cons e es ih =>
    unfold put
    split
    · rename_i hkey
      simp [hkey]
    · rw [List.map_cons, List.mem_cons, ih, List.map_cons, List.mem_cons]
      tauto

theorem mem_keys_erase : other ∈ (erase key es).map Prod.fst ↔
    other ≠ key ∧ other ∈ es.map Prod.fst := by
  simp only [erase, List.mem_map, List.mem_filter, decide_eq_true_eq]
  constructor
  · rintro ⟨e, ⟨he, hne⟩, rfl⟩
    exact ⟨hne, e, he, rfl⟩
  · rintro ⟨hne, e, he, rfl⟩
    exact ⟨e, ⟨he, hne⟩, rfl⟩

theorem isSome_lookup : (es.lookup key).isSome ↔ key ∈ es.map Prod.fst := by
  simp

end Table

/-! ### Messages -/

variable {s : Suite} {d : MemoryDaemon} {m : ClientMessage} {x : Item}

theorem closed_apply (s : Suite) (d : MemoryDaemon) (m : ClientMessage) :
    (apply s d m).2.closed = d.closed := by
  cases m <;> simp only [apply]
  split <;> rfl

theorem nodup_apply (h : d.supers.Nodup) (s : Suite) (m : ClientMessage) :
    (apply s d m).2.supers.Nodup := by
  cases m <;> simp only [apply]
  case indexSuper =>
    split
    · exact h
    · rename_i hnew
      exact List.Nodup.append h (List.nodup_singleton _) (by simpa using hnew)
  case unindexSuper => exact h.erase _
  all_goals exact h

theorem apply_put (h : put? s m = some x) :
    (apply s d m).1 ∧ ∀ y, (apply s d m).2.Has y ↔ y = x ∨ d.Has y := by
  cases m <;> simp only [put?, Option.some.injEq, reduceCtorEq] at h <;> subst h
  case insert =>
    refine ⟨rfl, ?_⟩
    rintro (key | key | key) <;> simp [apply, Has, mem_keys_put]
  case index =>
    refine ⟨rfl, ?_⟩
    rintro (key | key | key) <;> simp [apply, Has, mem_keys_put]
  case indexSuper =>
    refine ⟨rfl, ?_⟩
    rintro (key | key | key) <;> simp only [apply] <;> split <;> simp [Has]
    · rename_i hmem
      rintro rfl
      exact hmem
    · tauto

theorem apply_taken (hnodup : d.supers.Nodup) (h : taken? s m = some x) :
    ((apply s d m).1 ↔ d.Has x) ∧ ∀ y, (apply s d m).2.Has y ↔ y ≠ x ∧ d.Has y := by
  cases m <;> simp only [taken?, Option.some.injEq, reduceCtorEq] at h <;> subst h
  case delete =>
    refine ⟨isSome_lookup, ?_⟩
    rintro (key | key | key) <;> simp [apply, Has, mem_keys_erase]
  case unindex =>
    refine ⟨isSome_lookup, ?_⟩
    rintro (key | key | key) <;> simp [apply, Has, mem_keys_erase]
  case unindexSuper =>
    refine ⟨decide_eq_true_iff, ?_⟩
    rintro (key | key | key) <;> simp [apply, Has, hnodup.mem_erase_iff]

theorem isSuper_of_taken (h : taken? s m = some x) :
    (∃ priority hash, m = .unindexSuper priority hash) ↔ x.isSuper := by
  cases m <;> simp only [taken?, Option.some.injEq, reduceCtorEq] at h <;> subst h <;>
    simp [Item.isSuper]

/-- A daemon that takes messages, and lists no super hash twice. -/
structure Serving (d : MemoryDaemon) : Prop where
  listens : d.closed = false
  nodup : d.supers.Nodup

theorem Serving.submit (h : d.Serving) (s : Suite) (m : ClientMessage) :
    MemoryDaemon.submit s m d =
      (if (apply s d m).1 then .ok () else .error .refused, (apply s d m).2) := by
  unfold MemoryDaemon.submit
  rw [h.listens]
  rfl

theorem Serving.apply (h : d.Serving) (s : Suite) (m : ClientMessage) :
    (MemoryDaemon.apply s d m).2.Serving :=
  ⟨(closed_apply s d m).trans h.listens, nodup_apply h.nodup s m⟩

/-! ### Walks -/

open Upload

section Walks

variable {env : Upload.Env MemoryDaemon} {ms : List ClientMessage} {xs : List Item}

theorem accepted_puts (h : d.Serving) (hsink : env.sink = sink s)
    (hputs : ms.map (put? s) = xs.map some) :
    Accepted env d ms ∧ (delivered env d ms).Serving ∧
      ∀ y, (delivered env d ms).Has y ↔ y ∈ xs ∨ d.Has y := by
  induction ms generalizing d xs with
  | nil =>
    obtain rfl : xs = [] := by simpa using hputs.symm
    exact ⟨trivial, h, by simp [delivered]⟩
  | cons m ms ih =>
    obtain ⟨x, xs, rfl, hx, hrest⟩ := List.map_eq_cons_iff.1 hputs.symm
    obtain ⟨haccepted, hhas⟩ := @apply_put s d m x hx.symm
    have hstep : env.sink.submit m d = (.ok (), (MemoryDaemon.apply s d m).2) := by
      rw [hsink]
      change MemoryDaemon.submit s m d = _
      rw [h.submit, if_pos haccepted]
    obtain ⟨hothers, hserving, hlast⟩ := ih (h.apply s m) hrest.symm
    simp only [Accepted, delivered, List.foldl_cons, hstep]
    refine ⟨⟨.inl rfl, hothers⟩, hserving, fun y => (hlast y).trans ?_⟩
    rw [hhas, List.mem_cons]
    tauto

/-- What is taken out is gone. It is accepted if everything but super hashes is there, and asked for
once only. -/
theorem accepted_taken (h : d.Serving) (hsink : env.sink = sink s)
    (htaken : ms.map (taken? s) = xs.map some) :
    (Accepted env d ms ↔ (xs.filter (!·.isSuper)).Nodup ∧
        ∀ x ∈ xs, x.isSuper = false → d.Has x) ∧
      ∀ y, (delivered env d ms).Has y ↔ y ∉ xs ∧ d.Has y := by
  induction ms generalizing d xs with
  | nil =>
    obtain rfl : xs = [] := by simpa using htaken.symm
    exact ⟨by simp [Accepted], by simp [delivered]⟩
  | cons m ms ih =>
    obtain ⟨x, xs, rfl, hx, hrest⟩ := List.map_eq_cons_iff.1 htaken.symm
    obtain ⟨hfound, hhas⟩ := apply_taken h.nodup hx.symm
    have hstep : env.sink.submit m d = (if (MemoryDaemon.apply s d m).1 then .ok ()
        else .error .refused, (MemoryDaemon.apply s d m).2) := by
      rw [hsink]
      exact h.submit s m
    obtain ⟨hothers, hlast⟩ := ih (h.apply s m) hrest.symm
    have hpasses : Passes m (env.sink.submit m d).1 ↔ x.isSuper ∨ d.Has x := by
      rw [hstep, Passes, isSuper_of_taken hx.symm, ← hfound]
      cases (MemoryDaemon.apply s d m).1 <;> simp
    simp only [Accepted, delivered, List.foldl_cons]
    rw [hpasses, hstep, hothers]
    refine ⟨?_, fun y => (hlast y).trans ?_⟩
    · simp only [hhas, List.forall_mem_cons]
      cases hsuper : x.isSuper with
      | true =>
        -- Whether the super hash was there does not matter, and no other item goes with it.
        have hne : ∀ y, y.isSuper = false → y ≠ x := by
          rintro y hy rfl
          rw [hy] at hsuper
          cases hsuper
        rw [List.filter_cons_of_neg (by simp [hsuper])]
        simp +contextual [hne]
      | false =>
        -- The item was there and is gone now, so the rest must not ask for it again.
        rw [List.filter_cons_of_pos (by simp [hsuper]), List.nodup_cons, List.mem_filter]
        have hapart : x ∉ xs ↔ ∀ y ∈ xs, y.isSuper = false → y ≠ x :=
          ⟨fun hx y hy _ heq => hx (heq ▸ hy), fun hall hx => hall x hx hsuper rfl⟩
        simp only [hsuper, Bool.not_false, and_true, hapart, Bool.false_eq_true, false_or,
          forall_const, imp_and, forall_and]
        tauto
    · rw [hhas, List.mem_cons]
      tauto

end Walks

end MemoryDaemon

end ContentTree

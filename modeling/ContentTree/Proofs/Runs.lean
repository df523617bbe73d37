import Mathlib.Order.Defs.Unbundled

/-!
# Runs of operations with a state and errors

An operation keeps its state when it fails. `Ends` says how a run ends either way, and has one
equation for each way in which operations are put together. `Carries` is for what an operation
keeps however it ends.
-/

namespace ContentTree

variable {ε σ α β : Type}

/-- Started in `st`, the operation gives a value and a state as in `ok`, or an error and a state as
in `fail`. -/
def Ends (x : ExceptT ε (StateM σ) α) (st : σ) (ok : α → σ → Prop) (fail : ε → σ → Prop) : Prop :=
  match x.run st with
  | (.ok a, st') => ok a st'
  | (.error e, st') => fail e st'

section

variable {ok : β → σ → Prop} {fail : ε → σ → Prop}

theorem ends_bind (x : ExceptT ε (StateM σ) α) (f : α → ExceptT ε (StateM σ) β) (st : σ) :
    Ends (x >>= f) st ok fail ↔ Ends x st (fun a st' => Ends (f a) st' ok fail) fail := by
  have hrun : (x >>= f).run st = match x.run st with
      | (.ok a, st') => (f a).run st'
      | (.error e, st') => (.error e, st') := by
    change (ExceptT.bindCont f (x.run st).1).run (x.run st).2 = _
    rcases x.run st with ⟨_ | a, st'⟩ <;> rfl
  unfold Ends
  rw [hrun]
  rcases x.run st with ⟨_ | a, st'⟩ <;> rfl

theorem ends_pure (b : β) (st : σ) :
    Ends (pure b : ExceptT ε (StateM σ) β) st ok fail ↔ ok b st := Iff.rfl

theorem ends_throw (e : ε) (st : σ) :
    Ends (throw e : ExceptT ε (StateM σ) β) st ok fail ↔ fail e st := Iff.rfl

theorem Ends.mono {x : ExceptT ε (StateM σ) β} {st : σ} {ok' : β → σ → Prop}
    {fail' : ε → σ → Prop} (h : Ends x st ok fail) (hok : ∀ b st', ok b st' → ok' b st')
    (hfail : ∀ e st', fail e st' → fail' e st') : Ends x st ok' fail' := by
  unfold Ends at h ⊢
  split at h
  · exact hok _ _ h
  · exact hfail _ _ h

theorem Ends.and {x : ExceptT ε (StateM σ) β} {st : σ} {ok' : β → σ → Prop}
    {fail' : ε → σ → Prop} (h : Ends x st ok fail) (h' : Ends x st ok' fail') :
    Ends x st (fun b st' => ok b st' ∧ ok' b st') (fun e st' => fail e st' ∧ fail' e st') := by
  unfold Ends at h h' ⊢
  rcases hrun : x.run st with ⟨_ | b, st'⟩
  · rw [hrun] at h h'
    exact ⟨h, h'⟩
  · rw [hrun] at h h'
    exact ⟨h, h'⟩

theorem ends_of_forall {x : ExceptT ε (StateM σ) β} {st : σ} (hok : ∀ b st', ok b st')
    (hfail : ∀ e st', fail e st') : Ends x st ok fail := by
  unfold Ends
  split
  · exact hok _ _
  · exact hfail _ _

theorem Ends.exists_ok {x : ExceptT ε (StateM σ) β} {st : σ} (h : Ends x st ok fail)
    (hfail : ∀ e st', ¬ fail e st') : ∃ b st', x.run st = (.ok b, st') ∧ ok b st' := by
  unfold Ends at h
  rcases hrun : x.run st with ⟨e | b, st'⟩
  · rw [hrun] at h
    exact absurd h (hfail e st')
  · rw [hrun] at h
    exact ⟨b, st', rfl, h⟩

end

variable {fail : ε → σ → Prop}

theorem ends_get {ok : σ → σ → Prop} (st : σ) :
    Ends (get : ExceptT ε (StateM σ) σ) st ok fail ↔ ok st st := Iff.rfl

theorem ends_modify {ok : PUnit → σ → Prop} (f : σ → σ) (st : σ) :
    Ends (modify f : ExceptT ε (StateM σ) PUnit) st ok fail ↔ ok ⟨⟩ (f st) := Iff.rfl

theorem ends_modifyGet {ok : β → σ → Prop} (f : σ → β × σ) (st : σ) :
    Ends (modifyGet f : ExceptT ε (StateM σ) β) st ok fail ↔ ok (f st).1 (f st).2 := Iff.rfl

theorem ends_liftM {ok : β → σ → Prop} (x : Except ε β) (st : σ) :
    Ends (liftM x : ExceptT ε (StateM σ) β) st ok fail ↔
      (∀ b, x = .ok b → ok b st) ∧ ∀ e, x = .error e → fail e st := by
  cases x with
  | ok b =>
    change ok b st ↔ _
    simp
  | error e =>
    change fail e st ↔ _
    simp

theorem Ends.of_ok {x : ExceptT ε (StateM σ) β} {st st' : σ} {b : β} {ok : β → σ → Prop}
    (h : Ends x st ok fail) (hrun : x.run st = (.ok b, st')) : ok b st' := by
  unfold Ends at h
  rwa [hrun] at h

theorem Ends.of_error {x : ExceptT ε (StateM σ) β} {st st' : σ} {e : ε} {ok : β → σ → Prop}
    (h : Ends x st ok fail) (hrun : x.run st = (.error e, st')) : fail e st' := by
  unfold Ends at h
  rwa [hrun] at h

theorem Ends.last {x : ExceptT ε (StateM σ) β} {st : σ} {p : σ → Prop}
    (h : Ends x st (fun _ => p) (fun _ => p)) : p (x.run st).2 := by
  unfold Ends at h
  split at h <;> rename_i hrun <;> rwa [hrun]

/-! ### What is kept either way -/

/-- However the operation ends, its end is related to its start. -/
def Carries (R : σ → σ → Prop) (x : ExceptT ε (StateM σ) α) : Prop :=
  ∀ st, Ends x st (fun _ => R st) (fun _ => R st)

section Carries

variable {R : σ → σ → Prop} [IsPreorder σ R]

theorem Carries.after {x : ExceptT ε (StateM σ) α} (h : Carries R x) {st st' : σ} (hR : R st st') :
    Ends x st' (fun _ => R st) (fun _ => R st) :=
  (h st').mono (fun _ _ h' => trans_of R hR h') fun _ _ h' => trans_of R hR h'

omit [IsPreorder σ R] in
theorem Carries.run {x : ExceptT ε (StateM σ) α} (h : Carries R x) (st : σ) : R st (x.run st).2 :=
  (h st).last

theorem carries_pure (a : α) : Carries R (pure a : ExceptT ε (StateM σ) α) := fun st => refl_of R st

theorem carries_throw (e : ε) : Carries R (throw e : ExceptT ε (StateM σ) α) :=
  fun st => refl_of R st

theorem Carries.bind {x : ExceptT ε (StateM σ) α} {f : α → ExceptT ε (StateM σ) β}
    (h : Carries R x) (hf : ∀ a, Carries R (f a)) : Carries R (x >>= f) := by
  intro st
  rw [ends_bind]
  exact (h st).mono (fun a _ hR => (hf a).after hR) fun _ _ hR => hR

omit [IsPreorder σ R] in
theorem carries_get {f : σ → ExceptT ε (StateM σ) β}
    (hf : ∀ st, Ends (f st) st (fun _ => R st) (fun _ => R st)) :
    Carries R (get >>= f) := by
  intro st
  rw [ends_bind, ends_get]
  exact hf st

omit [IsPreorder σ R] in
theorem carries_modify {f : σ → σ} (hf : ∀ st, R st (f st)) :
    Carries R (modify f : ExceptT ε (StateM σ) PUnit) := fun st => hf st

omit [IsPreorder σ R] in
theorem carries_modifyGet {f : σ → α × σ} (hf : ∀ st, R st (f st).2) :
    Carries R (modifyGet f : ExceptT ε (StateM σ) α) := fun st => hf st

theorem carries_forM {f : β → ExceptT ε (StateM σ) PUnit} (hf : ∀ b, Carries R (f b))
    (bs : List β) : Carries R (bs.forM f) := by
  induction bs with
  | nil => exact carries_pure _
  | cons b bs ih => exact (hf b).bind fun _ => ih

end Carries

end ContentTree

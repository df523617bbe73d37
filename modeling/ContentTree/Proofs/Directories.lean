import ContentTree.Proofs.Opening

/-!
# Making directories

Making directories creates no file and writes to none, and what a path led to before, it leads to
afterwards.
-/

namespace ContentTree

namespace Disk

variable {d d' : Disk} {path name : String} {parent object : Nat}

/-- The second disk has more directories, and otherwise what could be found on the first one. -/
structure Grows (d d' : Disk) : Prop where
  objects : d'.objects = d.objects
  current : d'.current = d.current
  size : d.directories.size ≤ d'.directories.size
  parent : ∀ number < d.directories.size, (d'.directory number).parent = (d.directory number).parent
  find : ∀ {parent name entry}, d.find? parent name = .ok (some entry) →
    d'.find? parent name = .ok (some entry)

theorem Grows.refl (d : Disk) : Grows d d := ⟨rfl, rfl, Nat.le_refl _, fun _ _ => rfl, id⟩

theorem Grows.trans {d'' : Disk} (h : Grows d d') (h' : Grows d' d'') : Grows d d'' where
  objects := h'.objects.trans h.objects
  current := h'.current.trans h.current
  size := Nat.le_trans h.size h'.size
  parent number hnumber :=
    (h'.parent number (Nat.lt_of_lt_of_le hnumber h.size)).trans (h.parent number hnumber)
  find hfind := h'.find (h.find hfind)

theorem Grows.walk (h : Grows d d') (hsound : d.Sound) {closed : Bool} {start : Nat}
    {parts : List String} {t : Target} (hstart : start < d.directories.size)
    (hwalk : d.walk closed start parts = .ok t) : d'.walk closed start parts = .ok t :=
  walk_of_known (· < d.directories.size) hsound.up hsound.down h.parent h.find hstart hwalk

theorem Grows.open? (h : Grows d d') (hsound : d.Sound)
    (hopen : d.open? path = .ok (.file object)) : d'.open? path = .ok (.file object) := by
  obtain ⟨parent, name, htarget, hfind⟩ := open?_eq_file.1 hopen
  refine open?_eq_file.2 ⟨parent, name, ?_, h.find hfind⟩
  rw [target_eq_ok] at htarget ⊢
  rw [h.current]
  refine ⟨htarget.1, htarget.2.1, h.walk hsound ?_ htarget.2.2⟩
  split
  · exact Nat.zero_lt_of_lt hsound.current
  · exact hsound.current

theorem Grows.contentAt (h : Grows d d') (hsound : d.Sound) {c : FileContent}
    (hcontent : d.contentAt path = .ok c) : d'.contentAt path = .ok c := by
  obtain ⟨object, hopen, rfl⟩ := contentAt_eq_ok.1 hcontent
  refine contentAt_eq_ok.2 ⟨object, h.open? hsound hopen, ?_⟩
  rw [content, content, h.objects]

/-- The disk with an empty directory of this name. -/
def widened (d : Disk) (parent : Nat) (name : String) : Disk :=
  let made := d.modifyEntries parent ((name, .directory d.directories.size) :: ·)
  { made with directories := made.directories.push ⟨parent, []⟩ }

theorem makeDirectory_eq_ok (h : d.makeDirectory path = .ok d') :
    ∃ parent name closed, d.target path = .ok (.named parent name closed) ∧
      d.find? parent name = .ok none ∧ d' = d.widened parent name := by
  unfold makeDirectory at h
  rcases htarget : d.target path with kind | number | ⟨parent, name, closed⟩
  · simp [bind, Except.bind, htarget] at h
  · simp [bind, Except.bind, htarget] at h
  · rcases hfind : d.find? parent name with kind | _ | entry
    · simp [bind, Except.bind, htarget, hfind] at h
    · simp [bind, Except.bind, pure, Except.pure, htarget, hfind] at h
      exact ⟨parent, name, closed, rfl, hfind, h.symm⟩
    · simp [bind, Except.bind, htarget, hfind] at h

section Widened

theorem directory_widened (hparent : parent < d.directories.size) (other : Nat) :
    (d.widened parent name).directory other =
      if other = parent then
        ⟨(d.directory parent).parent,
          (name, .directory d.directories.size) :: (d.directory parent).entries⟩
      else if other = d.directories.size then ⟨parent, []⟩
      else d.directory other := by
  unfold widened modifyEntries directory
  dsimp only
  rw [Array.getElem?_push, Array.size_modify, Array.getElem?_modify]
  by_cases hother : other = parent
  · subst hother
    simp [hparent, Nat.ne_of_lt hparent]
  · rw [if_neg hother, if_neg (Ne.symm hother)]
    split <;> rfl

theorem find?_widened (hparent : parent < d.directories.size)
    (hnone : d.find? parent name = .ok none) (other : Nat) (name' : String) :
    (d.widened parent name).find? other name' =
      if other = parent ∧ name' = name then .ok (some (.directory d.directories.size))
      else d.find? other name' := by
  refine find?_of_added hnone (fun number => ?_) other name'
  rw [directory_widened hparent]
  split
  · rfl
  · split
    · -- The new directory is empty, as one that does not exist counts as.
      rename_i hnew
      simp [hnew, directory]
    · rfl

theorem grows_widened (hparent : parent < d.directories.size)
    (hnone : d.find? parent name = .ok none) : Grows d (d.widened parent name) where
  objects := rfl
  current := rfl
  size := by
    simp [widened, modifyEntries]
  parent number hnumber := by
    rw [directory_widened hparent, if_neg (Nat.ne_of_lt hnumber)]
    split
    · rename_i heq
      rw [heq]
    · rfl
  find hfound := find?_of_find?_eq_some hnone (find?_widened hparent hnone _ _) hfound

theorem Sound.widened (h : d.Sound) (hparent : parent < d.directories.size)
    (hnone : d.find? parent name = .ok none) : (d.widened parent name).Sound := by
  have hgrows := grows_widened hparent hnone
  have hsize : (d.widened parent name).directories.size = d.directories.size + 1 := by
    simp [Disk.widened, modifyEntries]
  have hfile : ∀ {other name' found},
      (d.widened parent name).find? other name' = .ok (some (.file found)) →
      d.find? other name' = .ok (some (.file found)) := by
    intro other name' found hfound
    rw [find?_widened hparent hnone] at hfound
    split at hfound
    · simp at hfound
    · exact hfound
  constructor
  case current =>
    rw [hgrows.current]
    exact Nat.lt_of_lt_of_le h.current hgrows.size
  case up =>
    intro number hnumber
    rw [hsize] at hnumber ⊢
    rcases Nat.lt_succ_iff_lt_or_eq.1 hnumber with hold | rfl
    · rw [hgrows.parent number hold]
      exact Nat.lt_succ_of_lt (h.up number hold)
    · rw [directory_widened hparent, if_neg (Nat.ne_of_gt hparent), if_pos rfl]
      exact Nat.lt_succ_of_lt hparent
  case down =>
    intro other name' number hfound
    rw [hsize]
    rw [find?_widened hparent hnone] at hfound
    split at hfound
    · simp only [Except.ok.injEq, Option.some.injEq, Entry.directory.injEq] at hfound
      omega
    · exact Nat.lt_succ_of_lt (h.down hfound)
  case bound => exact fun hfound => h.bound (hfile hfound)
  case unique => exact fun hfound hfound' => h.unique (hfile hfound) (hfile hfound')

end Widened

theorem Sound.ensureDirectory (h : d.Sound) (hmake : d.ensureDirectory path = .ok d') :
    d'.Sound ∧ Grows d d' := by
  unfold Disk.ensureDirectory at hmake
  split at hmake
  · rename_i made hmade
    obtain rfl := Except.ok.inj hmake
    obtain ⟨parent, name, closed, htarget, hnone, rfl⟩ := makeDirectory_eq_ok hmade
    have hparent := h.target htarget
    exact ⟨h.widened hparent hnone, grows_widened hparent hnone⟩
  · split at hmake
    · obtain rfl := Except.ok.inj hmake
      exact ⟨h, .refl d⟩
    · cases hmake

/-- Also where it fails, making directories leaves alone what there was. -/
theorem Sound.makeDirectories (h : d.Sound) (paths : List String) :
    (d.makeDirectories paths).2.Sound ∧ Grows d (d.makeDirectories paths).2 := by
  induction paths generalizing d with
  | nil => exact ⟨h, .refl d⟩
  | cons path outer ih =>
    rw [Disk.makeDirectories]
    split
    · exact h.ensureDirectory ‹_›
    · rcases houter : d.makeDirectories outer with ⟨kind | done, made⟩
      · have hmade := ih h
        rw [houter] at hmade
        exact hmade
      · obtain ⟨hsound, hgrows⟩ := ih h
        rw [houter] at hsound hgrows
        dsimp only
        split
        · obtain ⟨hsound', hgrows'⟩ := hsound.ensureDirectory ‹_›
          exact ⟨hsound', hgrows.trans hgrows'⟩
        · exact ⟨hsound, hgrows⟩
    · exact ⟨h, .refl d⟩

end Disk

end ContentTree

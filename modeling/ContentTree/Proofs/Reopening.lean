import ContentTree.Proofs.Opening

/-!
# Opening the files of a download again

As long as their names stay, the files of a storage are found again when it is opened anew, and what
it reads from them is the same as before.
-/

namespace ContentTree

namespace Disk

variable {d : Disk} {path : String} {object : Nat}

theorem openOrCreate_of_open? (h : d.open? path = .ok (.file object)) :
    d.openOrCreate path = .ok (object, d) := by
  obtain ⟨parent, name, htarget, hfind⟩ := open?_eq_file.1 h
  simp [openOrCreate, htarget, hfind, bind, Except.bind, pure, Except.pure]

/-- A content that reads the same takes the place of another unnoticed. -/
theorem readAt_content_setContent {c : FileContent}
    (h : ∀ offset n, c.readAt offset n = (d.content object).readAt offset n) (other offset n : Nat) :
    ((d.setContent object c).content other).readAt offset n =
      (d.content other).readAt offset n := by
  by_cases hother : other = object
  · subst hother
    by_cases hbound : other < d.objects.size
    · rw [content_setContent_self hbound, h]
    · have hsame : d.setContent other c = d := by
        unfold setContent
        rw [Array.setIfInBounds, dif_neg hbound]
      rw [hsame]
  · rw [content_setContent_of_ne hother]

end Disk

namespace Storage

variable {s : Storage} {d d' : Disk} {path : String} {object : Nat}

theorem openLevels_of_open? {handles : List (Option Handle)} {level : Nat}
    (h : ∀ i < handles.length, ∃ object, handles[i]? = some (some (.file object true)) ∧
      d.open? (levelPath path (level + i)) = .ok (.file object)) :
    openLevels path d level handles.length = (.ok handles, d) := by
  induction handles generalizing level with
  | nil => rfl
  | cons first rest ih =>
    obtain ⟨object, hfirst, hopen⟩ := h 0 (Nat.zero_lt_succ _)
    have hrest := @ih (level + 1) fun i hi => by
      obtain ⟨found, hget, hfound⟩ := h (i + 1) (Nat.succ_lt_succ hi)
      exact ⟨found, hget, by rwa [Nat.add_right_comm, Nat.add_assoc]⟩
    rw [Nat.add_zero] at hopen
    rw [List.length_cons, openLevels, Disk.openOrCreate_of_open? hopen]
    simp only [hrest, Except.map]
    rw [Option.some.inj hfirst]

/-- The disk when the storage is open again: its file, the object of level 0, is cut once more. -/
def reopened (s : Storage) (d : Disk) (object : Nat) : Disk :=
  d.setContent object ((d.content object).truncate s.size)

theorem Named.openWritable (h : s.Named d) (hobject : s.IsLevel 0 object) :
    Storage.openWritable d s.size s.path = (.ok s, s.reopened d object) := by
  have hopen : d.open? s.path = .ok (.file object) := (h.open? hobject).2
  obtain ⟨path, size, depth, levels⟩ := s
  obtain ⟨hdepth, hlength, hlevel⟩ := h
  dsimp only at hdepth hlength hlevel hopen ⊢
  subst hdepth
  cases levels with
  | nil => cases hlength
  | cons first rest =>
    obtain rfl : first = some (.file object true) := Option.some.inj hobject
    have hcount : rest.length = treeDepth size := Nat.succ.inj hlength
    have hrest : openLevels path (d.setContent object ((d.content object).truncate size)) 1
        rest.length = (.ok rest, d.setContent object ((d.content object).truncate size)) := by
      refine openLevels_of_open? fun i hi => ?_
      obtain ⟨found, hfound, hname⟩ := hlevel (i + 1) (by omega)
      exact ⟨found, hfound, (Disk.extends_setContent _ _ _).open? (by rwa [Nat.add_comm])⟩
    rw [hcount] at hrest
    rw [Storage.openWritable, Disk.openOrCreate_of_open? hopen]
    simp only [hrest, Except.map]
    rfl

/-- To the storage the two disks are the same. -/
def Alike (s : Storage) (d d' : Disk) : Prop :=
  ∀ level position n, s.read d' level position n = s.read d level position n

theorem alike_setContent {c : FileContent}
    (h : ∀ offset n, c.readAt offset n = (d.content object).readAt offset n) :
    s.Alike d (d.setContent object c) := by
  intro level position n
  unfold read
  cases hhandle : s.handle level with
  | error e => rfl
  | ok handle =>
    change (handle.read (d.setContent object c) _ _).mapError _ = (handle.read d _ _).mapError _
    congr 1
    unfold Handle.read
    cases handle with
    | directory => rfl
    | file other writable =>
      dsimp only
      rw [Disk.readAt_content_setContent h]

theorem alike_reopened (h : (d.content object).size ≤ s.size) : s.Alike d (s.reopened d object) :=
  alike_setContent (FileContent.readAt_truncate h)

end Storage

end ContentTree

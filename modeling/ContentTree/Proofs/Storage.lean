import ContentTree.Proofs.FileContent
import ContentTree.Proofs.Places
import ContentTree.Storage

/-!
# Blocks on disk

Once the levels of a tree are open for writing, each level has a file of its own. A block that was
written is read back, and a write leaves every other block alone that can be read in full.
-/

namespace ContentTree

namespace Disk

@[simp]
theorem size_objects_setContent (d : Disk) (object : Nat) (c : FileContent) :
    (d.setContent object c).objects.size = d.objects.size := by
  simp [setContent]

theorem content_setContent_self {d : Disk} {object : Nat} (h : object < d.objects.size)
    (c : FileContent) : (d.setContent object c).content object = c := by
  simp [content, setContent, h]

theorem content_setContent_of_ne {d : Disk} {object other : Nat} (h : other ≠ object)
    (c : FileContent) : (d.setContent object c).content other = d.content other := by
  simp [content, setContent, Array.getElem?_setIfInBounds_ne (Ne.symm h)]

theorem contentAt_eq_ok {d : Disk} {path : String} {c : FileContent} :
    d.contentAt path = .ok c ↔
      ∃ object, d.open? path = .ok (.file object) ∧ d.content object = c := by
  unfold contentAt
  rcases hopen : d.open? path with kind | found | number <;>
    simp [bind, Except.bind, pure, Except.pure]

end Disk

namespace Storage

variable {s : Storage} {d d' : Disk}

/-- The file of a level, open for writing. -/
def IsLevel (s : Storage) (level object : Nat) : Prop :=
  s.levels[level]? = some (some (.file object true))

theorem IsLevel.unique {level object other : Nat} (h : s.IsLevel level object)
    (h' : s.IsLevel level other) : object = other := by
  have heq : Handle.file object true = Handle.file other true :=
    Option.some.inj (Option.some.inj (h.symm.trans h'))
  injection heq

/-- Every level of the tree has a file of its own. -/
structure Opened (s : Storage) (d : Disk) : Prop where
  level : ∀ level ≤ treeDepth s.size, ∃ object, s.IsLevel level object ∧ object < d.objects.size
  apart : ∀ level other object, s.IsLevel level object → s.IsLevel other object → level = other

theorem read_of_file {level position object : Nat} {writable : Bool}
    (h : s.levels[level]? = some (some (.file object writable)))
    (hoffset : levelOffset level position < Handle.offsetLimit) (n : Nat) :
    s.read d level position n = .ok ((d.content object).readAt (levelOffset level position) n) := by
  have hhandle : s.handle level = .ok (.file object writable) := by
    simp [handle, h]
  have hread : (Handle.file object writable).read d (levelOffset level position) n =
      .ok ((d.content object).readAt (levelOffset level position) n) := by
    unfold Handle.read
    rw [if_neg (by omega)]
    split
    · rename_i hzero
      subst hzero
      simp [FileContent.readAt_eq]
    · rfl
  unfold read
  rw [hhandle]
  simp [bind, Except.bind, Except.mapError, hread]

theorem read_of_isLevel {level position object : Nat} (h : s.IsLevel level object)
    (hoffset : levelOffset level position < Handle.offsetLimit) (n : Nat) :
    s.read d level position n = .ok ((d.content object).readAt (levelOffset level position) n) :=
  read_of_file h hoffset n

theorem write_of_isLevel {level position object : Nat} (h : s.IsLevel level object)
    (hoffset : levelOffset level position < Handle.offsetLimit) (bs : Bytes) :
    s.write d level position bs = .ok (d.setContent object
      ((d.content object).writeAt (levelOffset level position) bs)) := by
  have hhandle : s.handle level = .ok (.file object true) := by
    unfold IsLevel at h
    simp [handle, h]
  unfold write
  rw [hhandle]
  simp [bind, Except.bind, Except.mapError, Handle.write, Nat.not_le.2 hoffset]

/-- Reading and writing reach no further than file positions do. -/
theorem levelOffset_lt_of_read {level position n : Nat} {bs : Bytes}
    (h : s.read d level position n = .ok bs) : levelOffset level position < Handle.offsetLimit := by
  by_contra hle
  unfold read at h
  cases hhandle : s.handle level with
  | error e => simp [hhandle, bind, Except.bind] at h
  | ok handle =>
    simp [hhandle, bind, Except.bind, Handle.read, Nat.not_lt.1 hle, Except.mapError] at h

theorem length_le_of_read {level position n : Nat} {bs : Bytes}
    (h : s.read d level position n = .ok bs) : bs.length ≤ n := by
  unfold read at h
  cases hhandle : s.handle level with
  | error e => simp [hhandle, bind, Except.bind] at h
  | ok handle =>
    simp only [hhandle, bind, Except.bind, Handle.read, Except.mapError] at h
    split at h
    · cases h
    · rename_i hread
      obtain rfl := Except.ok.inj h
      split at hread
      · cases hread
      · split at hread
        · obtain rfl := Except.ok.inj hread
          exact Nat.zero_le n
        · cases handle with
          | file object writable =>
            obtain rfl := Except.ok.inj hread
            rw [FileContent.length_readAt]
            exact Nat.min_le_left _ _
          | directory => cases hread

theorem write_eq_ok (hopen : s.Opened d) {level position : Nat} {bs : Bytes}
    (hlevel : level ≤ treeDepth s.size) (h : s.write d level position bs = .ok d') :
    ∃ object, s.IsLevel level object ∧ object < d.objects.size ∧
      levelOffset level position < Handle.offsetLimit ∧
      d' = d.setContent object ((d.content object).writeAt (levelOffset level position) bs) := by
  obtain ⟨object, hobject, hbound⟩ := hopen.level level hlevel
  by_cases hoffset : levelOffset level position < Handle.offsetLimit
  · rw [write_of_isLevel hobject hoffset] at h
    exact ⟨object, hobject, hbound, hoffset, (Except.ok.inj h).symm⟩
  · have hhandle : s.handle level = .ok (.file object true) := by
      unfold IsLevel at hobject
      simp [handle, hobject]
    unfold write at h
    simp [hhandle, bind, Except.bind, Handle.write, Nat.not_lt.1 hoffset, Except.mapError] at h

theorem Opened.write (hopen : s.Opened d) {level position : Nat} {bs : Bytes}
    (hlevel : level ≤ treeDepth s.size) (h : s.write d level position bs = .ok d') :
    s.Opened d' := by
  obtain ⟨object, -, -, -, rfl⟩ := write_eq_ok hopen hlevel h
  exact ⟨by simpa using hopen.level, hopen.apart⟩

theorem read_write_self (hopen : s.Opened d) {level position : Nat} {bs : Bytes}
    (hlevel : level ≤ treeDepth s.size) (h : s.write d level position bs = .ok d') :
    s.read d' level position bs.length = .ok bs := by
  obtain ⟨object, hobject, hbound, hoffset, rfl⟩ := write_eq_ok hopen hlevel h
  rw [read_of_isLevel hobject hoffset, Disk.content_setContent_self hbound,
    FileContent.readAt_writeAt_self]

theorem read_write_of_ne (hopen : s.Opened d) {level position other start n : Nat} {bs x : Bytes}
    (hlevel : level ≤ treeDepth s.size) (h : s.write d level position bs = .ok d')
    (hbs : bs.length ≤ leafCapacity) (hn : n ≤ leafCapacity)
    (hposition : span level ∣ position) (hstart : span other ∣ start)
    (hother : other ≤ treeDepth s.size) (hne : ¬ (other = level ∧ start = position))
    (hread : s.read d other start n = .ok x) (hfull : x.length = n) :
    s.read d' other start n = .ok x := by
  obtain ⟨object, hobject, hbound, -, rfl⟩ := write_eq_ok hopen hlevel h
  obtain ⟨file, hfile, -⟩ := hopen.level other hother
  have hoffset := levelOffset_lt_of_read hread
  rw [read_of_isLevel hfile hoffset] at hread ⊢
  have hx : (d.content file).readAt (levelOffset other start) n = x := Except.ok.inj hread
  by_cases hsame : other = level
  · subst hsame
    have hobjects : file = object := hfile.unique hobject
    subst hobjects
    have hpositions : start ≠ position := fun heq => hne ⟨rfl, heq⟩
    have hapart := levelOffset_apart hstart hposition hpositions
    rw [Disk.content_setContent_self hbound, FileContent.readAt_writeAt_of_apart]
    · rw [hx]
    · rw [hx, hfull]
    · omega
  · have hobjects : file ≠ object := by
      rintro rfl
      exact hsame (hopen.apart _ _ _ hfile hobject)
    rw [Disk.content_setContent_of_ne hobjects, hx]

/-- The bytes that could be read of another block stay, also where the file ends within the block. -/
theorem prefix_read_write (hopen : s.Opened d) {level position other start n : Nat} {bs x : Bytes}
    (hlevel : level ≤ treeDepth s.size) (h : s.write d level position bs = .ok d')
    (hbs : bs.length ≤ leafCapacity) (hn : n ≤ leafCapacity)
    (hposition : span level ∣ position) (hstart : span other ∣ start)
    (hother : other ≤ treeDepth s.size) (hne : ¬ (other = level ∧ start = position))
    (hread : s.read d other start n = .ok x) : ∃ y, s.read d' other start n = .ok y ∧ x <+: y := by
  have hoffset := levelOffset_lt_of_read hread
  obtain ⟨file, hfile, -⟩ := hopen.level other hother
  rw [read_of_isLevel hfile hoffset] at hread
  obtain rfl := Except.ok.inj hread
  have hle : ((d.content file).readAt (levelOffset other start) n).length ≤ n := by
    rw [FileContent.length_readAt]
    exact Nat.min_le_left _ _
  -- What was there can be read in full, and a write leaves that alone.
  have hthere := read_of_isLevel (d := d) hfile hoffset
    ((d.content file).readAt (levelOffset other start) n).length
  rw [FileContent.readAt_length_readAt] at hthere
  have hkept := read_write_of_ne hopen hlevel h hbs (hle.trans hn) hposition hstart hother hne hthere rfl
  rw [read_of_isLevel hfile hoffset] at hkept
  refine ⟨_, read_of_isLevel hfile hoffset n, ?_⟩
  rw [← Except.ok.inj hkept]
  exact (d'.content file).prefix_readAt _ hle

theorem size_write_le (hopen : s.Opened d) {level position object size : Nat} {bs : Bytes}
    (hlevel : level ≤ treeDepth s.size) (h : s.write d level position bs = .ok d')
    (hobject : s.IsLevel 0 object) (hsize : (d.content object).size ≤ size)
    (hwithin : level = 0 → position + bs.length ≤ size) :
    (d'.content object).size ≤ size := by
  obtain ⟨file, hfile, hbound, -, rfl⟩ := write_eq_ok hopen hlevel h
  by_cases hsame : object = file
  · subst hsame
    have hzero : level = 0 := hopen.apart _ _ _ hfile hobject
    subst hzero
    have hend := hwithin rfl
    rw [Disk.content_setContent_self hbound, FileContent.size_writeAt, levelOffset_zero]
    split
    · exact hsize
    · omega
  · rwa [Disk.content_setContent_of_ne hsame]

end Storage

end ContentTree

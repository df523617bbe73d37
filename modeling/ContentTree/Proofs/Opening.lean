import ContentTree.Proofs.Storage

/-!
# Opening the files of a download

On a disk whose names lead to objects of their own, each level gets a file of its own, since the
files of the levels differ in the last part of their paths. A name keeps leading to its object as
long as files are only created and written.
-/

namespace ContentTree

/-! ### The last part of a path -/

namespace Path

theorem split_of_not_mem {cs : List Char} (h : '/' ∉ cs) : split cs = (cs, []) := by
  induction cs with
  | nil => rfl
  | cons c cs ih =>
    rw [List.mem_cons, not_or] at h
    rw [split, ih h.2]
    exact if_neg (Ne.symm h.1)

/-- What is put after a path belongs to the last part. -/
theorem split_append (cs : List Char) {ds : List Char} (h : '/' ∉ ds) :
    ∃ init last, (split cs).1 :: (split cs).2 = init ++ [last] ∧
      (split (cs ++ ds)).1 :: (split (cs ++ ds)).2 = init ++ [last ++ ds] := by
  induction cs with
  | nil => exact ⟨[], [], rfl, by rw [List.nil_append, split_of_not_mem h]; rfl⟩
  | cons c cs ih =>
    obtain ⟨init, last, hold, hnew⟩ := ih
    rw [List.cons_append, split, split]
    by_cases hc : c = '/'
    · refine ⟨[] :: init, last, ?_, ?_⟩
      · simpa [hc] using hold
      · simpa [hc] using hnew
    · simp only [hc, if_false]
      cases init with
      | nil =>
        obtain ⟨hfirst, hrest⟩ := List.cons.inj hold
        obtain ⟨hfirst', hrest'⟩ := List.cons.inj hnew
        exact ⟨[], c :: last, by simp [hfirst, hrest], by simp [hfirst', hrest']⟩
      | cons x init =>
        obtain ⟨hfirst, hrest⟩ := List.cons.inj hold
        obtain ⟨hfirst', hrest'⟩ := List.cons.inj hnew
        exact ⟨(c :: x) :: init, last, by simp [hfirst, hrest], by simp [hfirst', hrest']⟩

theorem parts_append (base : String) {ext : String} (h : '/' ∉ ext.toList) :
    ∃ init last, parts base = init ++ [last] ∧ parts (base ++ ext) = init ++ [last ++ ext] := by
  obtain ⟨init, last, hold, hnew⟩ := split_append base.toList h
  refine ⟨init.map String.ofList, String.ofList last, ?_, ?_⟩
  · change ((split base.toList).1 :: (split base.toList).2).map String.ofList = _
    rw [hold, List.map_append, List.map_singleton]
  · change ((split (base ++ ext).toList).1 :: (split (base ++ ext).toList).2).map String.ofList = _
    rw [String.toList_append, hnew, List.map_append, List.map_singleton, String.ofList_append,
      String.ofList_toList]

theorem openParts_of_not_isClosed {path : String} (h : isClosed path = false) :
    openParts path = parts path := by
  have hlast : (parts path).getLast? ≠ some "" := by simpa [isClosed] using h
  unfold openParts
  cases hreverse : (parts path).reverse with
  | nil => simp [List.reverse_eq_nil_iff.1 hreverse]
  | cons x rest =>
    have hparts : parts path = rest.reverse ++ [x] := by
      rw [← List.reverse_reverse (parts path), hreverse, List.reverse_cons]
    have hx : x ≠ "" := by simpa [hparts] using hlast
    rw [List.dropWhile_cons_of_neg (by simpa using hx), ← hreverse, List.reverse_reverse]

end Path

/-! ### Names on a disk -/

namespace Disk

variable {d d' : Disk} {path : String} {object : Nat}

/-- Numbers stay within the disk, and no two names lead to one object. -/
structure Sound (d : Disk) : Prop where
  current : d.current < d.directories.size
  up : ∀ number < d.directories.size, (d.directory number).parent < d.directories.size
  down : ∀ {parent name number}, d.find? parent name = .ok (some (.directory number)) →
    number < d.directories.size
  bound : ∀ {parent name object}, d.find? parent name = .ok (some (.file object)) →
    object < d.objects.size
  unique : ∀ {parent name other name' object}, d.find? parent name = .ok (some (.file object)) →
    d.find? other name' = .ok (some (.file object)) → parent = other ∧ name = name'

/-- What can be found on the first disk is where it was on the second. -/
structure Extends (d d' : Disk) : Prop where
  current : d'.current = d.current
  size : d'.directories.size = d.directories.size
  parent : ∀ number, (d'.directory number).parent = (d.directory number).parent
  find : ∀ {parent name entry}, d.find? parent name = .ok (some entry) →
    d'.find? parent name = .ok (some entry)

theorem Extends.trans {d'' : Disk} (h : Extends d d') (h' : Extends d' d'') : Extends d d'' where
  current := h'.current.trans h.current
  size := h'.size.trans h.size
  parent number := (h'.parent number).trans (h.parent number)
  find hfind := h'.find (h.find hfind)

theorem extends_setContent (d : Disk) (object : Nat) (c : FileContent) :
    Extends d (d.setContent object c) :=
  ⟨rfl, rfl, fun _ => rfl, fun hfind => hfind⟩

theorem Sound.setContent (h : d.Sound) (object : Nat) (c : FileContent) :
    (d.setContent object c).Sound :=
  ⟨h.current, h.up, h.down, fun hfind => by simpa using h.bound hfind, h.unique⟩

theorem sound_empty : empty.Sound := by
  have hnone : ∀ parent name entry, empty.find? parent name ≠ .ok (some entry) := by
    intro parent name entry
    have hentries : (empty.directory parent).entries = [] := by
      cases parent <;> rfl
    unfold find?
    rw [hentries]
    split <;> simp
  refine ⟨Nat.one_pos, ?_, ?_, ?_, ?_⟩
  · intro number hnumber
    obtain rfl : number = 0 := Nat.lt_one_iff.1 hnumber
    exact hnumber
  · exact fun hfind => absurd hfind (hnone _ _ _)
  · exact fun hfind => absurd hfind (hnone _ _ _)
  · exact fun hfind => absurd hfind (hnone _ _ _)

theorem walk_cons_eq_ok {closed : Bool} {start : Nat} {part : String} {rest : List String}
    {t : Target} : d.walk closed start (part :: rest) = .ok t ↔
      Step.ofPart part = .stay ∧ d.walk closed start rest = .ok t ∨
      Step.ofPart part = .up ∧ d.walk closed (d.directory start).parent rest = .ok t ∨
      Step.ofPart part = .enter part ∧ rest = [] ∧ t = .named start part closed ∨
      Step.ofPart part = .enter part ∧ rest ≠ [] ∧ ∃ number,
        d.find? start part = .ok (some (.directory number)) ∧
          d.walk closed number rest = .ok t := by
  cases hstep : Step.ofPart part with
  | stay => simp [walk, hstep]
  | up => simp [walk, hstep]
  | enter name =>
    obtain rfl : part = name := by
      unfold Step.ofPart at hstep
      split at hstep
      · cases hstep
      · split at hstep
        · cases hstep
        · exact Step.enter.inj hstep
    by_cases hrest : rest = []
    · simp [walk, hstep, hrest, eq_comm]
    · rcases hfind : d.find? start part with kind | _ | object | number <;>
        simp [walk, hstep, hrest, hfind]

/-- A walk on one disk leads to the same on another that has what is found on the first, and the
parents of the directories that the walk may come to. -/
theorem walk_of_known (known : Nat → Prop)
    (hup : ∀ number, known number → known (d.directory number).parent)
    (hdown : ∀ {parent name number}, d.find? parent name = .ok (some (.directory number)) →
      known number)
    (hparent : ∀ number, known number → (d'.directory number).parent = (d.directory number).parent)
    (hfind : ∀ {parent name entry}, d.find? parent name = .ok (some entry) →
      d'.find? parent name = .ok (some entry))
    {closed : Bool} {start : Nat} {parts : List String} {t : Target} (hstart : known start)
    (hwalk : d.walk closed start parts = .ok t) : d'.walk closed start parts = .ok t := by
  induction parts generalizing start with
  | nil => exact hwalk
  | cons part rest ih =>
    rw [walk_cons_eq_ok] at hwalk ⊢
    rcases hwalk with ⟨hstep, hwalk⟩ | ⟨hstep, hwalk⟩ | hlast | ⟨hstep, hrest, number, hentry, hwalk⟩
    · exact .inl ⟨hstep, ih hstart hwalk⟩
    · rw [hparent start hstart]
      exact .inr (.inl ⟨hstep, ih (hup start hstart) hwalk⟩)
    · exact .inr (.inr (.inl hlast))
    · exact .inr (.inr (.inr ⟨hstep, hrest, number, hfind hentry, ih (hdown hentry) hwalk⟩))

theorem Extends.walk (h : Extends d d') {closed : Bool} {start : Nat} {parts : List String}
    {t : Target} (hwalk : d.walk closed start parts = .ok t) :
    d'.walk closed start parts = .ok t :=
  walk_of_known (fun _ => True) (fun _ _ => trivial) (fun _ => trivial)
    (fun number _ => h.parent number) h.find trivial hwalk

theorem walk_eq_named {closed shut : Bool} {start parent : Nat} {name : String}
    {parts : List String} (h : d.walk closed start parts = .ok (.named parent name shut)) :
    shut = closed ∧ ∃ init, parts = init ++ [name] := by
  induction parts generalizing start with
  | nil => cases h
  | cons part rest ih =>
    have hlater : ∀ {next}, d.walk closed next rest = .ok (.named parent name shut) →
        shut = closed ∧ ∃ init, part :: rest = init ++ [name] := by
      intro next hnext
      obtain ⟨hshut, init, rfl⟩ := ih hnext
      exact ⟨hshut, part :: init, rfl⟩
    rcases walk_cons_eq_ok.1 h with ⟨-, h⟩ | ⟨-, h⟩ | ⟨-, rfl, heq⟩ | ⟨-, -, number, -, h⟩
    · exact hlater h
    · exact hlater h
    · injection heq with _ hname hshut
      exact ⟨hshut, [], by rw [hname]; rfl⟩
    · exact hlater h

theorem Sound.walk (h : d.Sound) {closed shut : Bool} {start parent : Nat} {name : String}
    {parts : List String} (hstart : start < d.directories.size)
    (hwalk : d.walk closed start parts = .ok (.named parent name shut)) :
    parent < d.directories.size := by
  induction parts generalizing start with
  | nil => cases hwalk
  | cons part rest ih =>
    rcases walk_cons_eq_ok.1 hwalk with
      ⟨-, hnext⟩ | ⟨-, hnext⟩ | ⟨-, -, hlast⟩ | ⟨-, -, number, hfind, hnext⟩
    · exact ih hstart hnext
    · exact ih (h.up _ hstart) hnext
    · injection hlast with hparent
      exact hparent ▸ hstart
    · exact ih (h.down hfind) hnext

theorem target_eq_ok {t : Target} : d.target path = .ok t ↔
    path.toList.contains '\x00' = false ∧ path.utf8ByteSize ≤ maxPath ∧
      d.walk (Path.isClosed path) (if Path.isAbsolute path then 0 else d.current)
        (Path.openParts path) = .ok t := by
  unfold target
  split
  · rename_i hzero
    simp only [hzero, reduceCtorEq, false_and]
  · rename_i hzero
    rw [Bool.not_eq_true] at hzero
    split
    · rename_i hlong
      simp [Nat.not_le.2 hlong]
    · rename_i hlong
      simp only [hzero, Nat.not_lt.1 hlong, true_and]

theorem Extends.target (h : Extends d d') {t : Target} (htarget : d.target path = .ok t) :
    d'.target path = .ok t := by
  rw [target_eq_ok] at htarget ⊢
  rw [h.current]
  exact ⟨htarget.1, htarget.2.1, h.walk htarget.2.2⟩

theorem parts_of_target {parent : Nat} {name : String}
    (h : d.target path = .ok (.named parent name false)) :
    ∃ init, Path.parts path = init ++ [name] := by
  obtain ⟨-, -, hwalk⟩ := target_eq_ok.1 h
  obtain ⟨hclosed, hlast⟩ := walk_eq_named hwalk
  rwa [Path.openParts_of_not_isClosed hclosed.symm] at hlast

theorem Sound.target (h : d.Sound) {parent : Nat} {name : String} {closed : Bool}
    (htarget : d.target path = .ok (.named parent name closed)) : parent < d.directories.size := by
  obtain ⟨-, -, hwalk⟩ := target_eq_ok.1 htarget
  refine h.walk ?_ hwalk
  split
  · exact Nat.zero_lt_of_lt h.current
  · exact h.current

theorem open?_eq_file :
    d.open? path = .ok (.file object) ↔ ∃ parent name,
      d.target path = .ok (.named parent name false) ∧
        d.find? parent name = .ok (some (.file object)) := by
  unfold open?
  rcases htarget : d.target path with kind | number | ⟨parent, name, closed⟩
  · simp [bind, Except.bind]
  · simp [bind, Except.bind, pure, Except.pure]
  · rcases hfind : d.find? parent name with kind | _ | other | number
    · simp [bind, Except.bind, hfind]
    · simp [bind, Except.bind, hfind]
    · cases closed <;> simp [bind, Except.bind, pure, Except.pure, hfind]
    · simp [bind, Except.bind, pure, Except.pure, hfind]

theorem Extends.open? (h : Extends d d') (hopen : d.open? path = .ok (.file object)) :
    d'.open? path = .ok (.file object) := by
  obtain ⟨parent, name, htarget, hfind⟩ := open?_eq_file.1 hopen
  exact open?_eq_file.2 ⟨parent, name, h.target htarget, h.find hfind⟩

/-- What is found once a name that was free stands for `entry`. -/
theorem find?_of_added {parent : Nat} {name : String} {entry : Entry}
    (hnone : d.find? parent name = .ok none)
    (hentries : ∀ number, (d'.directory number).entries =
      if number = parent then (name, entry) :: (d.directory parent).entries
      else (d.directory number).entries) (other : Nat) (name' : String) :
    d'.find? other name' =
      if other = parent ∧ name' = name then .ok (some entry) else d.find? other name' := by
  have hshort : ¬ maxName < name.utf8ByteSize := by
    intro hlong
    simp [find?, hlong] at hnone
  unfold find?
  rw [hentries]
  by_cases hother : other = parent
  · subst hother
    by_cases hname : name' = name
    · subst hname
      simp [hshort]
    · have hlookup : (name' == name) = false := by simpa using hname
      simp [hname, List.lookup_cons, hlookup]
  · simp [hother]

theorem find?_of_find?_eq_some {parent other : Nat} {name name' : String} {entry found : Entry}
    (hnone : d.find? parent name = .ok none)
    (hadded : d'.find? other name' =
      if other = parent ∧ name' = name then .ok (some entry) else d.find? other name')
    (hfound : d.find? other name' = .ok (some found)) : d'.find? other name' = .ok (some found) := by
  rw [hadded]
  split
  · rename_i heq
    rw [heq.1, heq.2, hnone] at hfound
    cases hfound
  · exact hfound

/-- The disk with an empty file of this name. -/
def created (d : Disk) (parent : Nat) (name : String) : Disk :=
  { d.modifyEntries parent ((name, .file d.objects.size) :: ·) with
    objects := d.objects.push .empty }

theorem openOrCreate_eq_ok (h : d.openOrCreate path = .ok (object, d')) :
    ∃ parent name, d.target path = .ok (.named parent name false) ∧
      (d.find? parent name = .ok (some (.file object)) ∧ d' = d ∨
        d.find? parent name = .ok none ∧ object = d.objects.size ∧ d' = d.created parent name) := by
  unfold openOrCreate at h
  rcases htarget : d.target path with kind | number | ⟨parent, name, closed⟩
  · simp [bind, Except.bind, htarget] at h
  · simp [bind, Except.bind, htarget] at h
  · cases closed
    · refine ⟨parent, name, rfl, ?_⟩
      rcases hfind : d.find? parent name with kind | _ | other | number
      · simp [bind, Except.bind, htarget, hfind] at h
      · simp [bind, Except.bind, pure, Except.pure, htarget, hfind] at h
        exact .inr ⟨rfl, h.1.symm, h.2.symm⟩
      · simp [bind, Except.bind, pure, Except.pure, htarget, hfind] at h
        exact .inl ⟨by rw [h.1], h.2.symm⟩
      · simp [bind, Except.bind, htarget, hfind] at h
    · simp [bind, Except.bind, htarget] at h

section Created

variable {parent : Nat} {name : String}

theorem directory_created (hparent : parent < d.directories.size) (other : Nat) :
    (d.created parent name).directory other =
      if other = parent then
        ⟨(d.directory parent).parent, (name, .file d.objects.size) :: (d.directory parent).entries⟩
      else d.directory other := by
  unfold created modifyEntries directory
  dsimp only
  rw [Array.getElem?_modify]
  by_cases hother : parent = other
  · subst hother
    simp [hparent]
  · rw [if_neg hother, if_neg (Ne.symm hother)]

theorem find?_created (hparent : parent < d.directories.size)
    (hnone : d.find? parent name = .ok none) (other : Nat) (name' : String) :
    (d.created parent name).find? other name' =
      if other = parent ∧ name' = name then .ok (some (.file d.objects.size))
      else d.find? other name' := by
  refine find?_of_added hnone (fun number => ?_) other name'
  rw [directory_created hparent]
  split <;> rfl

theorem extends_created (hparent : parent < d.directories.size)
    (hnone : d.find? parent name = .ok none) : Extends d (d.created parent name) where
  current := rfl
  size := Array.size_modify ..
  parent number := by
    rw [directory_created hparent]
    split
    · rename_i heq
      rw [heq]
    · rfl
  find hfound := find?_of_find?_eq_some hnone (find?_created hparent hnone _ _) hfound

theorem content_created {other : Nat} (hother : other < d.objects.size) :
    (d.created parent name).content other = d.content other := by
  unfold content created
  rw [Array.getElem?_push_lt hother, Array.getElem?_eq_getElem hother]

theorem Sound.created (h : d.Sound) (hparent : parent < d.directories.size)
    (hnone : d.find? parent name = .ok none) : (d.created parent name).Sound := by
  have hextends := extends_created hparent hnone
  have hobjects : (d.created parent name).objects.size = d.objects.size + 1 := Array.size_push ..
  have hfile : ∀ {other name' found},
      (d.created parent name).find? other name' = .ok (some (.file found)) →
      (other = parent ∧ name' = name ∧ found = d.objects.size) ∨
        d.find? other name' = .ok (some (.file found)) ∧ found < d.objects.size := by
    intro other name' found hfound
    rw [find?_created hparent hnone] at hfound
    split at hfound
    · rename_i heq
      injection hfound with hfound
      injection hfound with hfound
      injection hfound with hfound
      exact .inl ⟨heq.1, heq.2, hfound.symm⟩
    · exact .inr ⟨hfound, h.bound hfound⟩
  constructor
  case current =>
    rw [hextends.current, hextends.size]
    exact h.current
  case up =>
    intro number hnumber
    rw [hextends.size] at hnumber ⊢
    rw [hextends.parent]
    exact h.up number hnumber
  case down =>
    intro other name' number hfound
    rw [find?_created hparent hnone] at hfound
    rw [hextends.size]
    split at hfound
    · simp at hfound
    · exact h.down hfound
  case bound =>
    intro other name' found hfound
    rcases hfile hfound with ⟨-, -, rfl⟩ | ⟨-, hlt⟩
    · exact hobjects ▸ Nat.lt_succ_self _
    · exact hobjects ▸ Nat.lt_succ_of_lt hlt
  case unique =>
    intro other name' other' name'' found hfound hfound'
    rcases hfile hfound with ⟨rfl, rfl, rfl⟩ | ⟨hold, hlt⟩ <;>
      rcases hfile hfound' with ⟨rfl, rfl, heq⟩ | ⟨hold', hlt'⟩
    · exact ⟨rfl, rfl⟩
    · exact absurd hlt' (Nat.lt_irrefl _)
    · exact absurd hlt (heq ▸ Nat.lt_irrefl _)
    · exact h.unique hold hold'

end Created

/-- Opening or making a file leaves alone what the disk holds. -/
theorem Sound.openOrCreate (h : d.Sound) (hopen : d.openOrCreate path = .ok (object, d')) :
    d'.Sound ∧ Extends d d' ∧ d'.open? path = .ok (.file object) ∧
      ∀ other < d.objects.size, other < d'.objects.size ∧ d'.content other = d.content other := by
  obtain ⟨parent, name, htarget, ⟨hfind, rfl⟩ | ⟨hnone, rfl, rfl⟩⟩ := openOrCreate_eq_ok hopen
  · exact ⟨h, ⟨rfl, rfl, fun _ => rfl, id⟩, open?_eq_file.2 ⟨parent, name, htarget, hfind⟩,
      fun other hother => ⟨hother, rfl⟩⟩
  · have hparent := h.target htarget
    have hextends := extends_created hparent hnone
    refine ⟨h.created hparent hnone, hextends, ?_, ?_⟩
    · refine open?_eq_file.2 ⟨parent, name, hextends.target htarget, ?_⟩
      rw [find?_created hparent hnone, if_pos ⟨rfl, rfl⟩]
    · intro other hother
      have hsize : (d.created parent name).objects.size = d.objects.size + 1 := Array.size_push ..
      exact ⟨by omega, content_created hother⟩

end Disk

/-! ### Levels -/

namespace Storage

variable {d d' : Disk} {path : String} {size : Nat} {s : Storage}

theorem levelLetter_inj : ∀ level < 13, ∀ other < 13,
    levelLetter level = levelLetter other → level = other := by
  decide

theorem levelLetter_ne_slash : ∀ level < 13, levelLetter level ≠ '/' := by
  decide

/-- What the path of a level adds to that of the file. -/
def levelSuffix (level : Nat) : String :=
  if level = 0 then "" else "." ++ String.singleton (levelLetter level)

theorem levelPath_eq (base : String) (level : Nat) :
    levelPath base level = base ++ levelSuffix level := by
  unfold levelPath levelSuffix
  split
  · rw [String.append_empty]
  · rw [String.append_assoc]

theorem toList_levelSuffix (level : Nat) :
    (levelSuffix level).toList = if level = 0 then [] else ['.', levelLetter level] := by
  unfold levelSuffix
  split
  · rfl
  · rw [String.toList_append]
    simp

theorem levelSuffix_inj {level other : Nat} (hlevel : level < 13) (hother : other < 13)
    (h : levelSuffix level = levelSuffix other) : level = other := by
  have hlist := congrArg String.toList h
  rw [toList_levelSuffix, toList_levelSuffix] at hlist
  split at hlist <;> split at hlist
  · omega
  · cases hlist
  · cases hlist
  · apply levelLetter_inj _ hlevel _ hother
    simpa using hlist

/-- The files of two levels have different names. -/
theorem level_eq_of_open? (h : d.Sound) {level other object : Nat} (hlevel : level < 13)
    (hother : other < 13) (hopen : d.open? (levelPath path level) = .ok (.file object))
    (hopen' : d.open? (levelPath path other) = .ok (.file object)) : level = other := by
  have hslash : ∀ k < 13, '/' ∉ (levelSuffix k).toList := by
    intro k hk
    rw [toList_levelSuffix]
    split
    · exact List.not_mem_nil
    · have hne := levelLetter_ne_slash k hk
      simp [Ne.symm hne]
  obtain ⟨parent, name, htarget, hfind⟩ := Disk.open?_eq_file.1 hopen
  obtain ⟨parent', name', htarget', hfind'⟩ := Disk.open?_eq_file.1 hopen'
  obtain ⟨rfl, rfl⟩ := h.unique hfind hfind'
  rw [levelPath_eq] at htarget htarget'
  obtain ⟨init, hparts⟩ := Disk.parts_of_target htarget
  obtain ⟨init', hparts'⟩ := Disk.parts_of_target htarget'
  obtain ⟨first, last, hbase, hlast⟩ := Path.parts_append path (hslash level hlevel)
  obtain ⟨first', last', hbase', hlast'⟩ := Path.parts_append path (hslash other hother)
  have hends : ∀ {xs ys : List String} {x y : String}, xs ++ [x] = ys ++ [y] → x = y := by
    intro xs ys x y heq
    exact List.singleton_inj.1 (List.append_inj' heq rfl).2
  obtain rfl := hends (hbase.symm.trans hbase')
  have hname : last ++ levelSuffix level = last ++ levelSuffix other :=
    (hends (hlast.symm.trans hparts)).trans (hends (hlast'.symm.trans hparts')).symm
  apply levelSuffix_inj hlevel hother
  have hlists := congrArg String.toList hname
  rw [String.toList_append, String.toList_append, List.append_cancel_left_eq] at hlists
  exact String.toList_inj.1 hlists

theorem openLevels_eq_ok {handles : List (Option Handle)} {level n : Nat} (h : d.Sound)
    (hopen : openLevels path d level n = (.ok handles, d')) :
    handles.length = n ∧ d'.Sound ∧ Disk.Extends d d' ∧
      (∀ other < d.objects.size, other < d'.objects.size ∧ d'.content other = d.content other) ∧
      ∀ i < n, ∃ object, handles[i]? = some (some (.file object true)) ∧
        d'.open? (levelPath path (level + i)) = .ok (.file object) := by
  induction n generalizing d level handles with
  | zero =>
    obtain ⟨rfl, rfl⟩ : [] = handles ∧ d = d' := by simpa [openLevels] using hopen
    exact ⟨rfl, h, ⟨rfl, rfl, fun _ => rfl, id⟩, fun _ hother => ⟨hother, rfl⟩,
      fun i hi => absurd hi (Nat.not_lt_zero i)⟩
  | succ n ih =>
    unfold openLevels at hopen
    rcases hfirst : d.openOrCreate (levelPath path level) with kind | ⟨object, mid⟩
    · simp [hfirst] at hopen
    · obtain ⟨hsound, hextends, hfile, hcontent⟩ := h.openOrCreate hfirst
      rw [hfirst] at hopen
      rcases hrest : openLevels path mid (level + 1) n with ⟨kind | rest, after⟩
      · simp [hrest, Except.map] at hopen
      · simp only [hrest, Except.map, Prod.mk.injEq, Except.ok.injEq] at hopen
        obtain ⟨rfl, rfl⟩ := hopen
        obtain ⟨hlength, hsound', hextends', hcontent', hfiles⟩ := ih hsound hrest
        refine ⟨congrArg Nat.succ hlength, hsound', hextends.trans hextends', ?_, ?_⟩
        · intro other hother
          obtain ⟨hlt, hsame⟩ := hcontent other hother
          obtain ⟨hlt', hsame'⟩ := hcontent' other hlt
          exact ⟨hlt', hsame'.trans hsame⟩
        · intro i hi
          cases i with
          | zero => exact ⟨object, rfl, hextends'.open? hfile⟩
          | succ i =>
            obtain ⟨found, hget, hlevel⟩ := hfiles i (by omega)
            exact ⟨found, hget, by rwa [Nat.add_assoc, Nat.add_comm 1] at hlevel⟩

/-- The files of a storage are those to which the paths of its levels lead. -/
structure Named (s : Storage) (d : Disk) : Prop where
  depth : s.depth = treeDepth s.size
  length : s.levels.length = s.depth + 1
  level : ∀ level ≤ s.depth, ∃ object, s.IsLevel level object ∧
    d.open? (levelPath s.path level) = .ok (.file object)

theorem Named.open? (h : s.Named d) {level object : Nat} (hlevel : s.IsLevel level object) :
    level ≤ s.depth ∧ d.open? (levelPath s.path level) = .ok (.file object) := by
  have hlt : level < s.levels.length := (List.getElem?_eq_some_iff.1 hlevel).1
  have hle : level ≤ s.depth := by
    rw [h.length] at hlt
    omega
  obtain ⟨found, hfound, hopen⟩ := h.level level hle
  exact ⟨hle, hlevel.unique hfound ▸ hopen⟩

theorem Named.opened (h : s.Named d) (hsound : d.Sound) (hsize : s.size ≤ maxSize) : s.Opened d where
  level level hlevel := by
    obtain ⟨object, hobject, hopen⟩ := h.level level (h.depth ▸ hlevel)
    obtain ⟨parent, name, -, hfind⟩ := Disk.open?_eq_file.1 hopen
    exact ⟨object, hobject, hsound.bound hfind⟩
  apart level other object hlevel hother := by
    have hdepth := treeDepth_le_twelve hsize
    obtain ⟨hle, hopen⟩ := h.open? hlevel
    obtain ⟨hle', hopen'⟩ := h.open? hother
    rw [h.depth] at hle hle'
    exact level_eq_of_open? hsound (by omega) (by omega) hopen hopen'

/-- Once a download has opened its target every level has a named file, and the target is cut to the
size of the file. -/
theorem openWritable_eq_ok (h : d.Sound) (hopen : openWritable d size path = (.ok s, d')) :
    s.path = path ∧ s.size = size ∧ d'.Sound ∧ s.Named d' ∧ ∃ object mid, s.IsLevel 0 object ∧
      d.openOrCreate path = .ok (object, mid) ∧
      d'.content object = (mid.content object).truncate size := by
  unfold openWritable at hopen
  rcases hfirst : d.openOrCreate path with kind | ⟨object, mid⟩
  · simp [hfirst] at hopen
  · obtain ⟨hsound, -, hfile, -⟩ := h.openOrCreate hfirst
    rw [hfirst] at hopen
    dsimp only at hopen
    have hcut := hsound.setContent object ((mid.content object).truncate size)
    rcases hrest : openLevels path (mid.setContent object ((mid.content object).truncate size)) 1
        (treeDepth size) with ⟨kind | rest, after⟩
    · simp [hrest, Except.map] at hopen
    · simp only [hrest, Except.map, Prod.mk.injEq, Except.ok.injEq] at hopen
      obtain ⟨rfl, rfl⟩ := hopen
      obtain ⟨hlength, hsound', hextends', hcontent, hfiles⟩ :=
        openLevels_eq_ok hcut hrest
      have hbase := hextends'.open? ((Disk.extends_setContent mid object _).open? hfile)
      obtain ⟨parent, name, -, hfind⟩ := Disk.open?_eq_file.1 hfile
      have hbound := hsound.bound hfind
      refine ⟨rfl, rfl, hsound', ⟨rfl, congrArg Nat.succ hlength, ?_⟩, object, mid, rfl, rfl, ?_⟩
      · intro level hlevel
        cases level with
        | zero => exact ⟨object, rfl, hbase⟩
        | succ level =>
          obtain ⟨found, hget, hfound⟩ := hfiles level hlevel
          exact ⟨found, hget, by rwa [Nat.add_comm] at hfound⟩
      · rw [(hcontent object (by simpa using hbound)).2, Disk.content_setContent_self hbound]

end Storage

end ContentTree

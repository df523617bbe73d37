import ContentTree.Disk
import ContentTree.Shape

/-!
Block storage by tree level. Level 0 is the file itself; each level above has a file of its own that
holds the inner blocks of that level, so that an interrupted download can resume.
-/

namespace ContentTree

inductive StorageError
  | io (kind : IoKind)
  | openFailed (path : String) (kind : IoKind)
  | levelUnavailable (level : Nat)
  deriving DecidableEq, Repr

structure Storage where
  path : String
  size : Nat
  depth : Nat
  /-- One handle per level from 0 up, missing where the file could not be opened. -/
  levels : List (Option Handle)
  deriving DecidableEq

namespace Storage

/-- The letter of a level's file: `A` for level 1, and on through the first 256 characters. -/
def levelLetter (level : Nat) : Char := Char.ofNat ((64 + level) % 256)

/-- The name of a level's file. -/
def levelPath (base : String) (level : Nat) : String :=
  if level = 0 then base else base ++ "." ++ String.singleton (levelLetter level)

def entryHandle : Entry → Handle
  | .file object => .file object false
  | .directory _ => .directory

/-- Opens the levels that exist, for reading. -/
def openReadable (d : Disk) (size : Nat) (path : String) : Except StorageError Storage :=
  match d.open? path with
  | .error kind => .error (.openFailed path kind)
  | .ok base =>
    let level (i : Nat) : Option Handle :=
      (d.open? (levelPath path (i + 1))).toOption.map entryHandle
    .ok ⟨path, size, treeDepth size,
      some (entryHandle base) :: (List.range (treeDepth size)).map level⟩

/-- Opens or creates the files of the `n` levels from `level` on. -/
def openLevels (path : String) (d : Disk) (level : Nat) :
    Nat → Except StorageError (List (Option Handle)) × Disk
  | 0 => (.ok [], d)
  | n + 1 =>
    match d.openOrCreate (levelPath path level) with
    | .error kind => (.error (.openFailed (levelPath path level) kind), d)
    | .ok (object, d) =>
      let (rest, d) := openLevels path d (level + 1) n
      (rest.map (some (.file object true) :: ·), d)

/-- Opens or creates every level, and cuts the file itself to `size`. Levels made before a failure
stay. -/
def openWritable (d : Disk) (size : Nat) (path : String) : Except StorageError Storage × Disk :=
  match d.openOrCreate path with
  | .error kind => (.error (.openFailed path kind), d)
  | .ok (object, d) =>
    let d := d.setContent object ((d.content object).truncate size)
    let (levels, d) := openLevels path d 1 (treeDepth size)
    (levels.map fun hs => ⟨path, size, treeDepth size, some (.file object true) :: hs⟩, d)

def handle (s : Storage) (level : Nat) : Except StorageError Handle :=
  match s.levels[level]? with
  | some (some h) => .ok h
  | _ => .error (.levelUnavailable level)

/-- At most `n` bytes of the block at `position` on `level`; fewer at the end of the file. -/
def read (s : Storage) (d : Disk) (level position n : Nat) : Except StorageError Bytes := do
  let h ← s.handle level
  (h.read d (levelOffset level position) n).mapError .io

def write (s : Storage) (d : Disk) (level position : Nat) (bs : Bytes) :
    Except StorageError Disk := do
  let h ← s.handle level
  (h.write d (levelOffset level position) bs).mapError .io

/-- Removes the files of the levels above 0. -/
def unlink (s : Storage) (d : Disk) : Disk :=
  (List.range s.depth).foldl
    (fun d i => (d.removeFile (levelPath s.path (i + 1))).toOption.getD d) d

end Storage

end ContentTree

import ContentTree.FileContent
import ContentTree.Path

/-!
A disk of files in directories. A file is an object apart from its name, so a handle keeps seeing
the object it opened when the name is removed. Absolute paths start at the root, whose parent is
itself, and all others at the current directory.
-/

namespace ContentTree

inductive IoKind
  | notFound
  | isADirectory
  | notADirectory
  | invalidInput
  | other
  deriving DecidableEq, Repr

/-- What has a name: a file or a directory, by its number among those of the disk. -/
inductive Entry
  | file (object : Nat)
  | directory (number : Nat)
  deriving DecidableEq

structure Directory where
  parent : Nat
  entries : List (String × Entry)
  deriving DecidableEq

structure Disk where
  objects : Array FileContent
  /-- The directories, the root first. -/
  directories : Array Directory
  /-- The current directory. -/
  current : Nat
  deriving DecidableEq

/-- Where a path leads: to a directory that it spells with dots, or to a name in a directory, which
slashes may follow. Nothing need have that name. -/
inductive Target
  | directory (number : Nat)
  | named (parent : Nat) (name : String) (closed : Bool)
  deriving DecidableEq

namespace Disk

/-- Nothing but the root, which is current. -/
def empty : Disk := ⟨#[], #[⟨0, []⟩], 0⟩

/-- An empty current directory below the root, where it has no name. -/
def inner : Disk := ⟨#[], #[⟨0, []⟩, ⟨0, []⟩], 1⟩

def directory (d : Disk) (number : Nat) : Directory := d.directories[number]?.getD ⟨0, []⟩

/-- Changes the entries of a directory. -/
def modifyEntries (d : Disk) (number : Nat)
    (f : List (String × Entry) → List (String × Entry)) : Disk :=
  { d with directories := d.directories.modify number fun x => { x with entries := f x.entries } }

/-- Bytes that a name may have. -/
def maxName : Nat := 255

/-- Bytes that a path may have. -/
def maxPath : Nat := 4095

/-- What has a name in a directory. -/
def find? (d : Disk) (parent : Nat) (name : String) : Except IoKind (Option Entry) :=
  if maxName < name.utf8ByteSize then .error .other
  else .ok ((d.directory parent).entries.lookup name)

/-- Follows the parts of a path from a directory. All names but the last must be directories. -/
def walk (d : Disk) (closed : Bool) (start : Nat) : List String → Except IoKind Target
  | [] => .ok (.directory start)
  | part :: rest =>
    match Step.ofPart part with
    | .stay => d.walk closed start rest
    | .up => d.walk closed (d.directory start).parent rest
    | .enter name =>
      if rest.isEmpty then .ok (.named start name closed)
      else
        match d.find? start name with
        | .error kind => .error kind
        | .ok none => .error .notFound
        | .ok (some (.file _)) => .error .notADirectory
        | .ok (some (.directory number)) => d.walk closed number rest

def target (d : Disk) (path : String) : Except IoKind Target :=
  if path.toList.contains '\x00' then .error .invalidInput
  else if maxPath < path.utf8ByteSize then .error .other
  else
    let start := if Path.isAbsolute path then 0 else d.current
    d.walk (Path.isClosed path) start (Path.openParts path)

def content (d : Disk) (object : Nat) : FileContent := d.objects[object]?.getD .empty

def setContent (d : Disk) (object : Nat) (c : FileContent) : Disk :=
  { d with objects := d.objects.setIfInBounds object c }

/-- What a path names. Slashes follow directories only. -/
def open? (d : Disk) (path : String) : Except IoKind Entry := do
  match ← d.target path with
  | .directory number => return .directory number
  | .named parent name closed =>
    match ← d.find? parent name with
    | none => throw .notFound
    | some (.file object) => if closed then throw .notADirectory else return .file object
    | some (.directory number) => return .directory number

def isDirectory (d : Disk) (path : String) : Bool :=
  match d.open? path with
  | .ok (.directory _) => true
  | _ => false

/-- The object named by a path, made empty if there is none. -/
def openOrCreate (d : Disk) (path : String) : Except IoKind (Nat × Disk) := do
  match ← d.target path with
  | .directory _ => throw .isADirectory
  | .named parent name closed =>
    if closed then throw .isADirectory
    match ← d.find? parent name with
    | some (.file object) => return (object, d)
    | some (.directory _) => throw .isADirectory
    | none =>
      let made := d.modifyEntries parent ((name, .file d.objects.size) :: ·)
      return (d.objects.size, { made with objects := d.objects.push .empty })

def writeFile (d : Disk) (path : String) (bs : ByteArray) : Except IoKind Disk := do
  let (object, d) ← d.openOrCreate path
  return d.setContent object (.ofByteArray bs)

def contentAt (d : Disk) (path : String) : Except IoKind FileContent := do
  match ← d.open? path with
  | .file object => return d.content object
  | .directory _ => throw .isADirectory

/-- Overwrites bytes in place. Where a file ends before `offset` it is extended to there, even if no
bytes follow. -/
def patchFile (d : Disk) (path : String) (offset : Nat) (bs : Bytes) : Except IoKind Disk := do
  let (object, d) ← d.openOrCreate path
  return d.setContent object (((d.content object).extend offset).writeAt offset bs)

def removeFile (d : Disk) (path : String) : Except IoKind Disk := do
  match ← d.target path with
  | .directory _ => throw .isADirectory
  | .named parent name closed =>
    match ← d.find? parent name with
    | none => throw .notFound
    | some (.directory _) => throw .isADirectory
    | some (.file _) =>
      if closed then throw .notADirectory
      return d.modifyEntries parent (·.filter (·.1 ≠ name))

def makeDirectory (d : Disk) (path : String) : Except IoKind Disk := do
  match ← d.target path with
  | .directory _ => throw .other
  | .named parent name _ =>
    match ← d.find? parent name with
    | some _ => throw .other
    | none =>
      let made := d.modifyEntries parent ((name, .directory d.directories.size) :: ·)
      return { made with directories := made.directories.push ⟨parent, []⟩ }

/-- Makes a directory unless it is there. -/
def ensureDirectory (d : Disk) (path : String) : Except IoKind Disk :=
  match d.makeDirectory path with
  | .ok d => .ok d
  | .error kind => if d.isDirectory path then .ok d else .error kind

/-- Makes the first of `paths`, each of which lies in the next one, and as many of the others as it
takes. Directories made before a failure stay. -/
def makeDirectories (d : Disk) : List String → Except IoKind Unit × Disk
  | [] => (.ok (), d)
  | path :: outer =>
    match d.ensureDirectory path with
    | .ok d => (.ok (), d)
    | .error .notFound =>
      match d.makeDirectories outer with
      | (.error kind, d) => (.error kind, d)
      | (.ok (), d) =>
        match d.ensureDirectory path with
        | .ok d => (.ok (), d)
        | .error kind => (.error kind, d)
    | .error kind => (.error kind, d)

/-- Writes a file, and makes the directories that it is in first. -/
def writeDeep (d : Disk) (path : String) (bs : ByteArray) : Except IoKind Unit × Disk :=
  match d.makeDirectories (Path.parents path) with
  | (.error kind, d) => (.error kind, d)
  | (.ok (), d) =>
    match d.writeFile path bs with
    | .ok d => (.ok (), d)
    | .error kind => (.error kind, d)

/-- Length of a file. A directory has one too, which is not zero. -/
def length (d : Disk) (path : String) : Except IoKind Nat := do
  match ← d.open? path with
  | .file object => return (d.content object).size
  | .directory _ => return 4096

end Disk

/-- An open file or directory. Directories open for reading only. -/
inductive Handle
  | file (object : Nat) (writable : Bool)
  | directory
  deriving DecidableEq

namespace Handle

/-- The first offset beyond what a file position can express. -/
def offsetLimit : Nat := Nat.pow 2 63

def read (h : Handle) (d : Disk) (offset n : Nat) : Except IoKind Bytes :=
  if offsetLimit ≤ offset then .error .invalidInput
  else if n = 0 then .ok []
  else
    match h with
    | file object _ => .ok ((d.content object).readAt offset n)
    | directory => .error .isADirectory

def write (h : Handle) (d : Disk) (offset : Nat) (bs : Bytes) : Except IoKind Disk :=
  if offsetLimit ≤ offset then .error .invalidInput
  else
    match h with
    | file object true => .ok (d.setContent object ((d.content object).writeAt offset bs))
    | _ => .error .other

end Handle

end ContentTree

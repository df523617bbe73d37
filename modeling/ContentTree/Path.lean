/-!
Paths as they are spelled: parts between slashes. An empty part and a single dot stay in a
directory, two dots go up from it, and every other part is a name in it.
-/

namespace ContentTree

inductive Step
  | stay
  | up
  | enter (name : String)
  deriving DecidableEq

def Step.ofPart (part : String) : Step :=
  if part = "" ∨ part = "." then .stay else if part = ".." then .up else .enter part

namespace Path

/-- The part before the first slash, and the parts after it. -/
def split : List Char → List Char × List (List Char)
  | [] => ([], [])
  | c :: cs =>
    let (part, parts) := split cs
    if c = '/' then ([], part :: parts) else (c :: part, parts)

def parts (path : String) : List String :=
  let (part, parts) := split path.toList
  (part :: parts).map String.ofList

/-- Whether slashes end a path. -/
def isClosed (path : String) : Bool := (parts path).getLast? = some ""

/-- The parts of a path without the slashes that end it. -/
def openParts (path : String) : List String := ((parts path).reverse.dropWhile (· = "")).reverse

/-- Whether a path starts at the root. -/
def isAbsolute (path : String) : Bool := path.startsWith "/"

/-- The path of `name` in a directory. An absolute name stands for itself. -/
def join (directory name : String) : String :=
  if isAbsolute name then name
  else if directory.isEmpty ∨ directory.endsWith "/" then directory ++ name
  else directory ++ "/" ++ name

/-- The paths that end in a part other than a single dot, from the longest on, when `parts` are the
parts of a path from the last one on. -/
def ends : List String → List String
  | [] => []
  | part :: outer =>
    if Step.ofPart part = .stay then ends outer
    else "/".intercalate (part :: outer).reverse :: ends outer

/-- The directories that lead to what a path names, from the innermost on. -/
def parents (path : String) : List String := (ends (parts path).reverse).drop 1

/-- The name that a path ends in, dots that stay there aside. A path that ends upwards has none. -/
def lastName? (path : String) : Option String :=
  ((parts path).reverse.map Step.ofPart).find? (· ≠ .stay) >>= fun step =>
    match step with
    | .enter name => some name
    | _ => none

end Path

end ContentTree

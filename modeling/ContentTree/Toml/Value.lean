/-!
TOML values and tables. A table remembers how it came to be, because that decides what later
statements may add to it.
-/

namespace ContentTree.Toml

/-- How a table came to be. -/
inductive Origin
  /-- Written in braces: it is complete. -/
  | braces
  /-- Named by a header. -/
  | header
  /-- Passed through by a longer header. -/
  | implied
  /-- Passed through by a dotted key. -/
  | dotted
  deriving DecidableEq, Repr

/-- Tables that no header of their own has named. -/
def Origin.isImplicit : Origin → Bool
  | .implied | .dotted => true
  | .braces | .header => false

mutual

inductive Value
  | string (s : String)
  | integer (i : Int)
  /-- A floating-point number, as written. -/
  | float (literal : String)
  | boolean (b : Bool)
  /-- A date, a time or both, as written. -/
  | datetime (literal : String)
  | array (items : List Value)
  | table (t : Table)
  /-- The tables of repeated double headers. -/
  | tables (ts : List Table)

inductive Table
  | mk (origin : Origin) (entries : List (String × Value))

end

namespace Table

def origin : Table → Origin
  | mk origin _ => origin

def entries : Table → List (String × Value)
  | mk _ entries => entries

def empty (origin : Origin) : Table := mk origin []

def get? (t : Table) (key : String) : Option Value := t.entries.lookup key

def putEntry (key : String) (v : Value) : List (String × Value) → List (String × Value)
  | [] => [(key, v)]
  | e :: es => if e.1 = key then (key, v) :: es else e :: putEntry key v es

/-- Binds `key` in place of what it was bound to. -/
def put (t : Table) (key : String) (v : Value) : Table := mk t.origin (putEntry key v t.entries)

/-- Changes the table at `path`. What is missing on the way is created, and of repeated tables the
last is meant. A path of dotted keys stays clear of tables that have a header, and every path stays
clear of tables in braces. -/
def alter (dotted : Bool) (f : Table → Option Table) : List String → Table → Option Table
  | [], t => f t
  | key :: path, t =>
    match t.get? key with
    | none => do
      let child ← alter dotted f path (empty (if dotted then .dotted else .implied))
      return t.put key (.table child)
    | some (.table child) =>
      if child.origin = .braces ∨ (dotted ∧ ¬ child.origin.isImplicit) then none
      else do
        let child ← alter dotted f path child
        return t.put key (.table child)
    | some (.tables ts) => do
      let last ← alter dotted f path (← ts.getLast?)
      return t.put key (.tables (ts.dropLast ++ [last]))
    | some _ => none

/-- Binds the last part of a dotted key, given the parts before it. A table made by dotted keys is
extended by such keys alone, and they extend no other table. -/
def bind (path : List String) (key : String) (v : Value) : Table → Option Table :=
  alter true (fun t =>
    if path.isEmpty = (t.origin = .dotted) ∨ (t.get? key).isSome then none
    else some (t.put key v)) path

/-- Opens the table of a header, given the parts of its key. -/
def openHeader (path : List String) (key : String) : Table → Option Table :=
  alter false (fun t =>
    match t.get? key with
    | none => some (t.put key (.table (empty .header)))
    | some (.table child) =>
      if child.origin = .implied then some (t.put key (.table (mk .header child.entries))) else none
    | some _ => none) path

/-- Adds a table under a double header. -/
def openElement (path : List String) (key : String) : Table → Option Table :=
  alter false (fun t =>
    match t.get? key with
    | none => some (t.put key (.tables [empty .header]))
    | some (.tables ts) => some (t.put key (.tables (ts ++ [empty .header])))
    | some _ => none) path

end Table

/-- A key is its parts before the last, and the last. -/
abbrev Key := List String × String

/-- The table in braces with the given bindings. -/
def Table.ofPairs (pairs : List (Key × Value)) : Option Table :=
  pairs.foldlM (fun t (key, v) => t.bind key.1 key.2 v) (empty .braces)

end ContentTree.Toml

import ContentTree.Toml.Statement

/-!
A TOML text as the table that its statements build up, and the text of a table that consists of
sections of strings, integers and booleans. Reader and writer stand for those of the format library
that settings go through: they follow the grammar of TOML 1.0, with the limits of that library on
nesting and on numbers and its choice among the forms of a string.
-/

namespace ContentTree.Toml

/-- The table built so far, and the key of the header that bindings go under. -/
structure Draft where
  root : Table
  here : List String

namespace Draft

def empty : Draft := ⟨.empty .header, []⟩

def add (d : Draft) : Statement → Option Draft
  | .header (path, key) => do return ⟨← d.root.openHeader path key, path ++ [key]⟩
  | .element (path, key) => do return ⟨← d.root.openElement path key, path ++ [key]⟩
  | .binding (path, key) v => do
    return { d with root := ← d.root.alter false (Table.bind path key v) d.here }

end Draft

/-- The table that a text describes. -/
def parse? (text : String) : Option Table := do
  let statements ← Statement.readAll text.toList
  let d ← statements.foldlM Draft.add .empty
  return d.root

/-- The written form of a string, an integer of 64 bits or a boolean. -/
def Value.render? : Value → Option String
  | string s => some (String.ofList (Quoted.render s.toList))
  | integer i => if inRange i then some (toString i) else none
  | boolean b => some (if b then "true" else "false")
  | _ => none

/-- A header and the bindings under it. -/
structure Section where
  name : String
  bindings : List (String × Value)

def renderBinding? (b : String × Value) : Option String :=
  b.2.render?.map fun text => s!"{b.1} = {text}\n"

/-- The lines of a section. -/
def Section.render? (s : Section) : Option String := do
  let lines ← s.bindings.mapM renderBinding?
  return s!"[{s.name}]\n" ++ String.join lines

/-- Sections with an empty line between them. -/
def render? (sections : List Section) : Option String := do
  let texts ← sections.mapM Section.render?
  return "\n".intercalate texts

end ContentTree.Toml

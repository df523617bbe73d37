import ContentTree.Toml.Number
import ContentTree.Toml.Quoted
import ContentTree.Toml.Value

/-!
The statements of a TOML text: headers and bindings of keys to values. Keys have fewer than 80
parts, and values nest less than 80 deep.
-/

namespace ContentTree.Toml

inductive Statement
  | header (key : Key)
  | element (key : Key)
  | binding (key : Key) (v : Value)

/-- The most parts that a key has, and the most values that stand in one another. -/
abbrev depthLimit : Nat := 79

/-- One part of a key: in quotes, or bare. -/
def keyPart (cs : List Char) : Option (String × List Char) :=
  match Quoted.readLine cs with
  | some (part, rest) => some (String.ofList part, rest)
  | none =>
    let bare := cs.takeWhile isBare
    if bare.isEmpty then none else some (String.ofList bare, cs.dropWhile isBare)

/-- A key of at most `n` parts with dots between them. -/
def keyUpTo : Nat → Reader Key
  | 0, _ => none
  | n + 1, cs => do
    let (part, cs) ← keyPart (skipBlanks cs)
    match skipBlanks cs with
    | '.' :: cs => do
      let (key, cs) ← keyUpTo n cs
      return ((part :: key.1, key.2), cs)
    | cs => return (([], part), cs)

def key (cs : List Char) : Option (Key × List Char) := keyUpTo depthLimit cs

/-- A key, an equals sign and a value. -/
def binding (value : Reader Value) (cs : List Char) : Option ((Key × Value) × List Char) := do
  let (k, cs) ← key cs
  let cs ← expect '=' cs
  let (v, cs) ← value (skipBlanks cs)
  return ((k, v), cs)

/-- The rest of an array with its closing bracket. A comma may follow the last item. -/
def items (value : Reader Value) : List Char → Reader (List Value)
  | [], _ => none
  | _ :: bound, cs =>
    match skipSpace cs with
    | ']' :: cs => some ([], cs)
    | cs => do
      let (v, cs) ← value cs
      match skipSpace cs with
      | ',' :: cs => do
        let (vs, cs) ← items value bound cs
        return (v :: vs, cs)
      | cs => do
        let cs ← expect ']' cs
        return ([v], cs)

/-- The rest of a table in braces that is not empty, with its closing brace. -/
def pairs (value : Reader Value) : List Char → Reader (List (Key × Value))
  | [], _ => none
  | _ :: bound, cs => do
    let (pair, cs) ← binding value cs
    match skipBlanks cs with
    | ',' :: cs => do
      let (rest, cs) ← pairs value bound cs
      return (pair :: rest, cs)
    | cs => do
      let cs ← expect '\x7d' cs
      return ([pair], cs)

/-- The rest of a table in braces. -/
def braces (value : Reader Value) (cs : List Char) : Option (Value × List Char) := do
  let (ps, cs) ← match skipBlanks cs with
    | '\x7d' :: cs => some ([], cs)
    | _ => pairs value cs cs
  return (.table (← Table.ofPairs ps), cs)

/-- Characters of numbers, dates and times. -/
def isLiteral (c : Char) : Bool := isBare c ∨ c = '+' ∨ c = '.' ∨ c = ':' ∨ c = ' '

/-- What a reader of literals takes off a text, given what it leaves. -/
def taken (cs rest : List Char) : String :=
  let run := cs.takeWhile isLiteral
  String.ofList (run.take (run.length - (rest.takeWhile isLiteral).length))

/-- A number, a date or a time. -/
def number (cs : List Char) : Option (Value × List Char) :=
  match datetime cs, float cs with
  | some rest, _ => some (.datetime (taken cs rest), rest)
  | none, some rest => some (.float (taken cs rest), rest)
  | none, none => (integer cs).map fun (i, rest) => (.integer i, rest)

/-- A value in which at most `n` others stand in one another. -/
def valueUpTo : Nat → Reader Value
  | 0, cs => scalar cs
  | n + 1, cs =>
    match cs with
    | '[' :: cs => do
      let (vs, cs) ← items (valueUpTo n) cs cs
      return (.array vs, cs)
    | '\x7b' :: cs => braces (valueUpTo n) cs
    | cs => scalar cs
where
  scalar (cs : List Char) : Option (Value × List Char) :=
    match Quoted.read cs, expectWord ['t', 'r', 'u', 'e'] cs,
      expectWord ['f', 'a', 'l', 's', 'e'] cs with
    | some (s, rest), _, _ => some (.string (String.ofList s), rest)
    | none, some rest, _ => some (.boolean true, rest)
    | none, none, some rest => some (.boolean false, rest)
    | none, none, none => number cs

def value (cs : List Char) : Option (Value × List Char) := valueUpTo depthLimit cs

/-- The statement at the front, up to the end of its line. -/
def Statement.read (cs : List Char) : Option (Statement × List Char) :=
  match expectWord ['[', '['] cs, expect '[' cs with
  | some cs, _ => do
    let (k, cs) ← key cs
    return (.element k, ← lineEnd? (← expectWord [']', ']'] cs))
  | none, some cs => do
    let (k, cs) ← key cs
    return (.header k, ← lineEnd? (← expect ']' cs))
  | none, none => do
    let ((k, v), cs) ← Toml.binding value cs
    return (.binding k v, ← lineEnd? cs)

/-- All statements of a text of at most `n` lines. -/
def Statement.readLines : Nat → List Char → Option (List Statement)
  | 0, _ => none
  | n + 1, cs =>
    match skipBlanks cs with
    | [] => some []
    | cs =>
      match lineEnd? cs with
      | some cs => readLines n cs
      | none => do
        let (s, cs) ← Statement.read cs
        return s :: (← readLines n cs)

/-- All statements of a text. A byte order mark in front is left out. -/
def Statement.readAll (cs : List Char) : Option (List Statement) :=
  Statement.readLines (cs.length + 1) ((expect '\ufeff' cs).getD cs)

end ContentTree.Toml

import ContentTree.Toml.Characters

/-!
Strings in quotes. A basic string stands in double quotes and has escapes, a literal string stands
in single quotes and has none; three quotes in place of one let either run over several lines. The
writer takes the first form in this order that needs no escape, and the basic one if each does.
-/

namespace ContentTree.Toml.Quoted

/-- A character by its code in `n` hexadecimal digits. -/
def code? (n : Nat) (cs : List Char) : Option (Char × List Char) :=
  let digits := cs.take n
  let value := ofDigits 16 digits
  if digits.length = n ∧ digits.all (isDigitOf 16) ∧ value.isValidChar then
    some (Char.ofNat value, cs.drop n)
  else none

/-- What an escape stands for, from the character after the backslash on. -/
def escape? : Reader Char
  | [] => none
  | c :: cs =>
    if c = 'b' then some ('\x08', cs)
    else if c = 't' then some ('\t', cs)
    else if c = 'n' then some ('\n', cs)
    else if c = 'f' then some ('\x0c', cs)
    else if c = 'r' then some ('\r', cs)
    else if c = '"' then some ('"', cs)
    else if c = '\\' then some ('\\', cs)
    else if c = 'u' then code? 4 cs
    else if c = 'U' then code? 8 cs
    else none

/-- The rest of a basic string on one line. -/
def readBasic : List Char → Reader (List Char)
  | [], _ => none
  | _ :: _, [] => none
  | _ :: bound, c :: cs =>
    if c = '"' then some ([], cs)
    else if c = '\\' then do
      let (d, cs) ← escape? cs
      let (ds, cs) ← readBasic bound cs
      return (d :: ds, cs)
    else if isText c then do
      let (ds, cs) ← readBasic bound cs
      return (c :: ds, cs)
    else none

/-- The rest of a literal string on one line. -/
def readLiteral : Reader (List Char)
  | [] => none
  | c :: cs =>
    if c = '\'' then some ([], cs)
    else if isText c then do
      let (ds, cs) ← readLiteral cs
      return (c :: ds, cs)
    else none

/-- Skips blanks and line breaks. -/
def skipFold : List Char → List Char
  | '\r' :: '\n' :: cs => skipFold cs
  | c :: cs => if c = '\n' ∨ isBlank c then skipFold cs else c :: cs
  | [] => []

/-- What follows a fold: a line break after a backslash, with all blank space around it. -/
def fold? (cs : List Char) : Option (List Char) := (lineBreak? (skipBlanks cs)).map skipFold

/-- Number of quotes at the front. -/
def runLength (quote : Char) (cs : List Char) : Nat := (cs.takeWhile (· = quote)).length

/-- The rest of a string in triple quotes. Up to two quotes may stand before the closing three. -/
def readLines (quote : Char) (escapes : Bool) : List Char → Reader (List Char)
  | [], _ => none
  | _ :: _, [] => none
  | _ :: bound, c :: cs =>
    let run := runLength quote (c :: cs)
    if 3 ≤ run then
      let inner := min (run - 3) 2
      some (List.replicate inner quote, (c :: cs).drop (inner + 3))
    else if c = '\\' ∧ escapes then
      match fold? cs with
      | some cs => readLines quote escapes bound cs
      | none => do
        let (d, cs) ← escape? cs
        let (ds, cs) ← readLines quote escapes bound cs
        return (d :: ds, cs)
    else
      match lineBreak? (c :: cs) with
      | some cs => do
        let (ds, cs) ← readLines quote escapes bound cs
        return ('\n' :: ds, cs)
      | none =>
        if isText c then do
          let (ds, cs) ← readLines quote escapes bound cs
          return (c :: ds, cs)
        else none

/-- A line break right after the opening quotes is left out. -/
def readTriple (quote : Char) (escapes : Bool) (cs : List Char) : Option (List Char × List Char) :=
  readLines quote escapes cs ((lineBreak? cs).getD cs)

/-- A string on one line, as keys are. -/
def readLine : Reader (List Char)
  | '"' :: cs => readBasic cs cs
  | '\'' :: cs => readLiteral cs
  | _ => none

/-- A string in any of the four forms. -/
def read (cs : List Char) : Option (List Char × List Char) :=
  match expectWord ['"', '"', '"'] cs, expectWord ['\'', '\'', '\''] cs with
  | some cs, _ => readTriple '"' true cs
  | none, some cs => readTriple '\'' false cs
  | none, none => readLine cs

/-- The longest run of `quote`, when `run` of them stand before the text. -/
def longestRun (quote : Char) : Nat → List Char → Nat
  | run, [] => run
  | run, c :: cs =>
    if c = quote then longestRun quote (run + 1) cs else max run (longestRun quote 0 cs)

/-- Controls that can only be written by escapes. -/
def needsCode (c : Char) : Bool := ¬ (isText c ∨ c = '\n')

def hexDigit (n : Nat) : Char := if n < 10 then Char.ofNat (48 + n) else Char.ofNat (55 + n)

/-- A character of a basic string, double quotes apart. -/
def escapeChar (triple : Bool) (c : Char) : List Char :=
  if c = '\x08' then ['\\', 'b']
  else if c = '\t' then ['\\', 't']
  else if c = '\n' then if triple then ['\n'] else ['\\', 'n']
  else if c = '\x0c' then ['\\', 'f']
  else if c = '\r' then ['\\', 'r']
  else if c = '\\' then ['\\', '\\']
  else if needsCode c then ['\\', 'u', '0', '0', hexDigit (c.toNat / 16), hexDigit (c.toNat % 16)]
  else [c]

/-- The inside of a basic string, when `run` double quotes stand before it. Between triple quotes,
up to two in a row stay as they are. -/
def escapeText (triple : Bool) : Nat → List Char → List Char
  | _, [] => []
  | run, c :: cs =>
    if c = '"' then
      if triple ∧ run < 2 then '"' :: escapeText triple (run + 1) cs
      else '\\' :: '"' :: escapeText triple 0 cs
    else escapeChar triple c ++ escapeText triple 0 cs

def basic (cs : List Char) : List Char := '"' :: escapeText false 0 cs ++ ['"']

def literal (cs : List Char) : List Char := '\'' :: cs ++ ['\'']

/-- Text in triple quotes. A text of several lines starts on a line of its own. -/
def triple (quote : Char) (lines : Bool) (inside : List Char) : List Char :=
  let quotes := List.replicate 3 quote
  quotes ++ (if lines then ['\n'] else []) ++ inside ++ quotes

/-- The written form of a string. -/
def render (cs : List Char) : List Char :=
  let lines := cs.contains '\n'
  let coded := cs.any needsCode
  let slashes := cs.contains '\\'
  let doubles := longestRun '"' 0 cs
  let singles := longestRun '\'' 0 cs
  if ¬ coded ∧ ¬ slashes ∧ doubles = 0 ∧ ¬ lines then basic cs
  else if ¬ coded ∧ singles = 0 ∧ ¬ lines then literal cs
  else if ¬ coded ∧ ¬ slashes ∧ doubles ≤ 2 then triple '"' lines (escapeText true 0 cs)
  else if ¬ coded ∧ singles ≤ 2 then triple '\'' lines cs
  else if lines then triple '"' true (escapeText true 0 cs)
  else basic cs

end ContentTree.Toml.Quoted

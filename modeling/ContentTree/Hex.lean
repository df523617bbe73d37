import ContentTree.Bytes

/-!
Hexadecimal text of byte strings. Either case is read; lower case is written.
-/

namespace ContentTree

inductive HexError
  | oddLength
  | invalidCharacter (byte : UInt8) (position : Nat)
  | invalidLength
  deriving DecidableEq, Repr

namespace Hex

def digit (n : Nat) : Char :=
  if n < 10 then Char.ofNat (48 + n) else Char.ofNat (87 + n)

def chars (bs : Bytes) : List Char :=
  bs.flatMap fun b => [digit (b.toNat / 16), digit (b.toNat % 16)]

def encode (bs : Bytes) : String := String.ofList (chars bs)

/-- The value of an ASCII hex digit. -/
def value? (b : UInt8) : Option Nat :=
  let n := b.toNat
  if 48 ≤ n ∧ n ≤ 57 then some (n - 48)
  else if 97 ≤ n ∧ n ≤ 102 then some (n - 87)
  else if 65 ≤ n ∧ n ≤ 70 then some (n - 55)
  else none

/-- Reads digits in pairs; `i` is the position of the first one. -/
def pairs : Nat → Bytes → Except HexError Bytes
  | _, [] => .ok []
  | _, [_] => .error .oddLength
  | i, a :: b :: rest =>
    match value? a, value? b with
    | none, _ => .error (.invalidCharacter a i)
    | _, none => .error (.invalidCharacter b (i + 1))
    | some x, some y => (pairs (i + 2) rest).map (UInt8.ofNat (16 * x + y) :: ·)

/-- The byte string spelled by ASCII digits. An odd number of digits is reported before any bad
digit. -/
def decode (text : Bytes) : Except HexError Bytes :=
  if text.length % 2 = 1 then .error .oddLength else pairs 0 text

/-- A byte as a quoted character of the first 256 code points, with controls, blanks other than the
space and the soft hyphen escaped. -/
def quoted (b : UInt8) : String :=
  let n := b.toNat
  let body :=
    if n = 0 then "\\0"
    else if n = 9 then "\\t"
    else if n = 10 then "\\n"
    else if n = 13 then "\\r"
    else if n = 39 then "\\'"
    else if n = 92 then "\\\\"
    else if n < 32 ∨ (127 ≤ n ∧ n ≤ 160) ∨ n = 173 then
      "\\u\x7b" ++ String.ofList (Nat.toDigits 16 n) ++ "\x7d"
    else String.singleton (Char.ofNat n)
  "'" ++ body ++ "'"

end Hex

def HexError.message : HexError → String
  | .oddLength => "Odd number of digits"
  | .invalidCharacter b i => s!"Invalid character {Hex.quoted b} at position {i}"
  | .invalidLength => "Invalid string length"

def Digest.toHex (d : Digest) : String := Hex.encode d.toList

/-- A digest from text of exactly forty digits. -/
def Digest.ofHex (text : String) : Except HexError Digest := do
  let bs ← Hex.decode text.toUTF8.toList
  if bs.length = digestSize then return fit 20 bs else throw .invalidLength

end ContentTree

import ContentTree.Bytes

/-!
Contents of files. Writing past the end fills the gap with zeros that take no room: a content is
kept as the pieces that were written, and what no piece covers is zero.
-/

namespace ContentTree

/-- Bytes written at an offset. -/
structure Piece where
  offset : Nat
  bytes : ByteArray

namespace Piece

instance : DecidableEq Piece
  | ⟨o, ⟨bs⟩⟩, ⟨o', ⟨bs'⟩⟩ => decidable_of_iff (o = o' ∧ bs = bs') (by simp)

/-- The first offset after the piece. -/
def stop (p : Piece) : Nat := p.offset + p.bytes.size

/-- Puts the piece over a window on the content that starts at `start`. -/
def layOver (start : Nat) (p : Piece) (window : ByteArray) : ByteArray :=
  let low := max p.offset start
  let high := min p.stop (start + window.size)
  if low < high then p.bytes.copySlice (low - p.offset) window (low - start) (high - low)
  else window

/-- The part of the piece before `size`. -/
def cut (size : Nat) (p : Piece) : Piece := { p with bytes := p.bytes.extract 0 (size - p.offset) }

end Piece

structure FileContent where
  size : Nat
  /-- The pieces, the latest first. -/
  pieces : List Piece
  deriving DecidableEq

namespace FileContent

def empty : FileContent := ⟨0, []⟩

def ofByteArray (bs : ByteArray) : FileContent := ⟨bs.size, [⟨0, bs⟩]⟩

/-- At most `n` bytes from `offset` on; fewer at the end of the file. -/
def window (c : FileContent) (offset n : Nat) : ByteArray :=
  c.pieces.foldr (Piece.layOver offset) ⟨Array.replicate (min n (c.size - offset)) 0⟩

def toByteArray (c : FileContent) : ByteArray := c.window 0 c.size

def readAt (c : FileContent) (offset n : Nat) : Bytes := (c.window offset n).data.toList

/-- Fills up with zeros to `size` bytes, unless there are that many. -/
def extend (c : FileContent) (size : Nat) : FileContent := { c with size := max c.size size }

/-- Writing nothing changes nothing. Pieces that are covered as a whole are dropped. -/
def writeAt (c : FileContent) (offset : Nat) (bs : Bytes) : FileContent :=
  if bs.isEmpty then c
  else
    let p : Piece := ⟨offset, bs.toByteArray⟩
    { size := max c.size p.stop
      pieces := p :: c.pieces.filter fun q => q.offset < p.offset ∨ p.stop < q.stop }

/-- Drops what lies beyond `size`. -/
def truncate (c : FileContent) (size : Nat) : FileContent :=
  ⟨min c.size size, c.pieces.map (Piece.cut size)⟩

end FileContent

end ContentTree

/-!
The shape of the tree over a file. Leaves hold up to 1024 bytes of the file and inner nodes up to
25 children; a file needs the least depth whose coverage reaches its size. Sizes and positions are
64-bit quantities, and a coverage beyond the largest of them stands for that largest one.
-/

namespace ContentTree

abbrev leafCapacity : Nat := 1024

abbrev fanout : Nat := 25

/-- The largest file size. -/
def maxSize : Nat := UInt64.size - 1

/-- Inner levels needed over nodes that cover `covered` bytes each. -/
def levelsAbove (size : Nat) : Nat → Nat → Nat
  | 0, _ => 0
  | n + 1, covered =>
    if covered < size then levelsAbove size n (fanout * covered) + 1 else 0

/-- Depth of the tree over a file. -/
def treeDepth (size : Nat) : Nat := levelsAbove size size leafCapacity

/-- Bytes covered by a node at `depth`. From depth 12 on it is every size there is. -/
def coverage (depth : Nat) : Nat :=
  if depth < 12 then leafCapacity * Nat.pow fanout depth else maxSize

/-- Bytes of the file in the leaf at `position`. -/
def leafLength (size position : Nat) : Nat := min (size - position) leafCapacity

/-- Children of the inner node at `position` and `depth`. -/
def childCount (size position depth : Nat) : Nat :=
  let child := coverage (depth - 1)
  (min (size - position) (min (fanout * child) maxSize) + child - 1) / child

/-- Bytes before the table of an inner block. -/
abbrev innerHeaderSize : Nat := 24

/-- Meaningful bytes of an inner block. -/
def innerLength (children : Nat) : Nat := innerHeaderSize + 40 * children

/-- Where the block at `position` starts in the file of its level. -/
def levelOffset (level position : Nat) : Nat := position / Nat.pow fanout level

end ContentTree

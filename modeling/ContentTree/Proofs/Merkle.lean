import ContentTree.Node
import ContentTree.Proofs.Blocks
import ContentTree.Proofs.Suite

/-!
# The blocks over a file

What the tree over a file holds at each place is a function of the bytes of its leaves. The key of
a place binds the leaves that it covers: two sets of leaves under which a place has one key are the
same, unless two payloads of one place collide.
-/

namespace ContentTree

/-- The pair of a block with `length` meaningful bytes. -/
def Suite.pair (s : Suite) (length : Nat) (data : Block) : Chk :=
  let key := s.hash (data.toList.take length)
  ⟨key, s.hash (s.encrypt key data).toList⟩

theorem Node.sealed_eq (s : Suite) (n : Node) (data : Block) (h : n.data = some data) :
    n.sealed s = ({ n with chk := s.pair n.length data },
      s.encrypt (s.pair n.length data).key data) := by
  cases n
  subst h
  rfl

/-- The bytes of each leaf of a file. -/
structure Source where
  size : Nat
  leaf : Nat → Bytes

namespace Source

def ofFile (file : Bytes) : Source :=
  ⟨file.length, fun position => (file.drop position).take leafCapacity⟩

/-- Each leaf has the bytes that the size leaves to it. -/
def Exact (src : Source) : Prop :=
  ∀ position, (src.leaf position).length = leafLength src.size position

theorem exact_ofFile (file : Bytes) : (ofFile file).Exact := fun position => by
  simp [ofFile, leafLength, Nat.min_comm]

variable (s : Suite) (src : Source)

/-- The plaintext at a place. -/
def block : Nat → Nat → Block
  | 0, position => fit 1024 (src.leaf position)
  | level + 1, position =>
    let children := (List.range (childCount src.size position (level + 1))).map fun i =>
      let start := position + i * coverage level
      let data := block level start
      let length := nodeLength src.size level start
      (s.checksum (data.toList.take length), s.pair length data)
    (InnerBlock.ofChildren s (children.map Prod.snd) (s.chain (children.map Prod.fst))).encode

/-- The meaningful bytes at a place. -/
def payload (level position : Nat) : Bytes :=
  (src.block s level position).toList.take (nodeLength src.size level position)

def chk (level position : Nat) : Chk :=
  s.pair (nodeLength src.size level position) (src.block s level position)

/-- What is stored on the network for a place. -/
def cipher (level position : Nat) : Block :=
  s.encrypt (src.chk s level position).key (src.block s level position)

def checksum (level position : Nat) : UInt32 := s.checksum (src.payload s level position)

/-- Where the children of a place one level up start. -/
def starts (level position : Nat) : List Nat :=
  (List.range (childCount src.size position (level + 1))).map fun i => position + i * coverage level

/-- What the block above the children at `level` says of them. -/
def table (level position : Nat) : InnerBlock :=
  InnerBlock.ofChildren s ((src.starts level position).map (src.chk s level))
    (s.chain ((src.starts level position).map (src.checksum s level)))

theorem block_zero (position : Nat) : src.block s 0 position = fit 1024 (src.leaf position) := rfl

theorem block_succ (level position : Nat) :
    src.block s (level + 1) position = (src.table s level position).encode := by
  simp only [block, table, starts, List.map_map]
  rfl

theorem key_chk (level position : Nat) :
    (src.chk s level position).key = s.hash (src.payload s level position) := rfl

theorem query_chk (level position : Nat) :
    (src.chk s level position).query = s.hash (src.cipher s level position).toList := rfl

variable {s src}

@[simp]
theorem length_starts (level position : Nat) :
    (src.starts level position).length = childCount src.size position (level + 1) := by
  simp [starts]

theorem getElem?_starts {level position i : Nat}
    (h : i < childCount src.size position (level + 1)) :
    (src.starts level position)[i]? = some (position + i * coverage level) := by
  simp [starts, h]

theorem length_payload {level position : Nat} (hsize : src.size ≤ maxSize)
    (h : Place src.size level position) :
    (src.payload s level position).length = nodeLength src.size level position := by
  have hle : nodeLength src.size level position ≤ 1024 := nodeLength_le hsize h
  simp only [payload, List.length_take, Vector.length_toList]
  omega

theorem payload_zero {position : Nat}
    (h : (src.leaf position).length = leafLength src.size position) :
    src.payload s 0 position = src.leaf position := by
  have hle : leafLength src.size position ≤ 1024 := Nat.min_le_right _ _
  have hlength : nodeLength src.size 0 position = leafLength src.size position := rfl
  rw [payload, block_zero, hlength, ← h, take_toList_fit (h ▸ hle)]

theorem decode_block {level position : Nat} (hsize : src.size ≤ maxSize)
    (h : Place src.size (level + 1) position) :
    InnerBlock.decode (src.block s (level + 1) position) (childCount src.size position (level + 1)) =
      src.table s level position := by
  have hcount : (src.table s level position).chks.length =
      childCount src.size position (level + 1) := by
    simp [table, InnerBlock.ofChildren]
  have hle := @childCount_le src.size position level hsize (h.level_lt hsize)
  rw [block_succ, ← hcount, InnerBlock.decode_encode _ (by omega)]

/-- A block that agrees with a place on the meaningful bytes has its table. -/
theorem decode_of_payload {level position : Nat} {data : Block} (hsize : src.size ≤ maxSize)
    (h : Place src.size (level + 1) position)
    (hdata : data.toList.take (nodeLength src.size (level + 1) position) =
      src.payload s (level + 1) position) :
    InnerBlock.decode data (childCount src.size position (level + 1)) =
      src.table s level position := by
  rw [← decode_block hsize h]
  exact InnerBlock.decode_congr hdata

theorem chks_table {level position i : Nat} (h : i < childCount src.size position (level + 1)) :
    (src.table s level position).chks[i]? = some (src.chk s level (position + i * coverage level)) := by
  simp [table, InnerBlock.ofChildren, getElem?_starts h]

def blocks (s : Suite) (src : Source) : Blocks := ⟨src.size, src.block s⟩

theorem linked_blocks (hsize : src.size ≤ maxSize) : (src.blocks s).Linked s := by
  intro level position i hplace hi
  have htable : (src.blocks s).table (level + 1) position = src.table s level position :=
    decode_block hsize hplace
  rw [htable, chks_table hi]
  rfl

theorem block_congr {src' : Source} {level position : Nat} (hsize : src.size ≤ maxSize)
    (hsame : src'.size = src.size) (hplace : Place src.size level position)
    (hleaf : ∀ start, Place src.size 0 start → Covers level position 0 start →
      src.leaf start = src'.leaf start) :
    src.block s level position = src'.block s level position := by
  induction level generalizing position with
  | zero => rw [block_zero, block_zero, hleaf position hplace (covers_self 0 position)]
  | succ level ih =>
    have hchildren : ∀ start ∈ src.starts level position,
        src.block s level start = src'.block s level start := by
      intro start hstart
      obtain ⟨i, hi, rfl⟩ := List.mem_map.1 hstart
      have hi := List.mem_range.1 hi
      have hlevel := hplace.level_lt hsize
      have hfanout := ((lt_childCount_iff hsize hlevel).1 hi).1
      rw [coverage_eq_span hlevel]
      refine ih (hplace.child hsize hi) fun below hbelow hcovers => ?_
      exact hleaf below hbelow (hcovers.of_child hfanout)
    have hstarts : src'.starts level position = src.starts level position := by
      simp only [starts, hsame]
    rw [block_succ, block_succ, table, table, hstarts]
    congr 2
    · refine List.map_congr_left fun start hstart => ?_
      rw [chk, chk, hsame, hchildren start hstart]
    · congr 1
      refine List.map_congr_left fun start hstart => ?_
      rw [checksum, checksum, payload, payload, hsame, hchildren start hstart]

/-- The key of a place binds every payload below it, where payloads of one place do not collide. -/
theorem payload_eq_of_key_eq {src' : Source} {level position : Nat} (hsize : src.size ≤ maxSize)
    (hsame : src'.size = src.size) (hplace : Place src.size level position)
    (hcollision : ∀ below start, Place src.size below start → Covers level position below start →
      s.hash (src'.payload s below start) = s.hash (src.payload s below start) →
      src'.payload s below start = src.payload s below start)
    (hkey : (src'.chk s level position).key = (src.chk s level position).key)
    {below start : Nat} (hstart : Place src.size below start)
    (hcovers : Covers level position below start) :
    src'.payload s below start = src.payload s below start :=
  (linked_blocks hsize).payload_eq (b := src.blocks s) (c := src'.blocks s) hsize hsame
    (linked_blocks (hsame ▸ hsize)) hplace hcollision hkey hstart hcovers

end Source

end ContentTree

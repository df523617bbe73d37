import ContentTree.Proofs.Wire.Frames

/-!
# Reading within bounds

The readers of frames once more, now taking one field after the other off the front of what is left.
Here a read beyond the last byte gives nothing at all. It never comes to that, whatever the bytes.
-/

namespace ContentTree

namespace Wire

/-- The first `n` bytes and the rest, unless there are fewer. -/
def take? (n : Nat) (bs : Bytes) : Option (Bytes × Bytes) :=
  if n ≤ bs.length then some (bs.take n, bs.drop n) else none

/-- A number of `k` bytes. -/
def number? (k : Nat) (bs : Bytes) : Option (Nat × Bytes) :=
  (take? k bs).map fun (x, rest) => (ofBigEndian x, rest)

def fixed? (n : Nat) (bs : Bytes) : Option (Vector UInt8 n × Bytes) :=
  (take? n bs).map fun (x, rest) => (fit n x, rest)

/-- Hashes until nothing is left. -/
def hashes? (bs : Bytes) : Option (List Digest) :=
  if bs = [] then some []
  else if 20 ≤ bs.length then (hashes? (bs.drop 20)).map (fit 20 bs :: ·)
  else none
termination_by bs.length
decreasing_by
  rw [List.length_drop]
  exact Nat.sub_lt (List.length_pos_iff.2 ‹_›) (by decide)

def index? (bs : Bytes) : Option IndexEntry := do
  let (hash, bs) ← fixed? 20 bs
  let (priority, bs) ← number? 4 bs
  let (lookup, bs) ← number? 2 bs
  let (fileIndex, bs) ← number? 2 bs
  let (offset, _) ← number? 8 bs
  return ⟨hash, UInt32.ofNat priority, UInt16.ofNat lookup, UInt16.ofNat fileIndex,
    UInt64.ofNat offset⟩

def query? (bs : Bytes) : Option Query := do
  let (priority, bs) ← number? 4 bs
  let (ttl, bs) ← number? 4 bs
  return ⟨UInt32.ofNat priority, (UInt32.ofNat ttl).toInt32, ← hashes? bs⟩

/-- A priority and `n` bytes. -/
def prioritized? (n : Nat) (bs : Bytes) : Option (UInt32 × Vector UInt8 n) := do
  let (priority, bs) ← number? 4 bs
  let (block, _) ← fixed? n bs
  return (UInt32.ofNat priority, block)

def parseHeader? (bs : Bytes) : Option (Except WireError (Nat × UInt16)) :=
  if bs.length < headerSize then some (.error (.truncated headerSize bs.length))
  else do
    let (size, bs) ← number? 2 bs
    let (type, _) ← number? 2 bs
    if size < headerSize then return .error (.badSize (UInt16.ofNat type) size)
    else return .ok (size, UInt16.ofNat type)

def openFrame? (frame : Bytes) : Option (Except WireError (UInt16 × Bytes)) := do
  match ← parseHeader? frame with
  | .error e => return .error e
  | .ok (size, type) =>
    if size = frame.length then
      let (_, body) ← take? headerSize frame
      return .ok (type, body)
    else return .error (.sizeMismatch size frame.length)

theorem number?_eq {k : Nat} {bs : Bytes} (h : k ≤ bs.length) :
    number? k bs = some (ofBigEndian (bs.take k), bs.drop k) := by
  rw [number?, take?, if_pos h, Option.map_some]

theorem fixed?_eq {n : Nat} {bs : Bytes} (h : n ≤ bs.length) :
    fixed? n bs = some (fit n bs, bs.drop n) := by
  rw [fixed?, take?, if_pos h, Option.map_some]
  exact congrArg (fun v => some (v, bs.drop n)) (fit_take bs (Nat.le_refl n))

theorem hashes?_eq {n : Nat} {bs : Bytes} (h : bs.length = 20 * n) :
    hashes? bs = some (readHashes n bs) := by
  induction n generalizing bs with
  | zero =>
    obtain rfl : bs = [] := List.eq_nil_of_length_eq_zero h
    rw [hashes?, if_pos rfl, readHashes]
  | succ n ih =>
    have hne : bs ≠ [] := List.ne_nil_of_length_pos (by omega)
    have hrest : (bs.drop 20).length = 20 * n := by
      rw [List.length_drop]
      omega
    rw [hashes?, if_neg hne, if_pos (by omega), ih hrest]
    rfl

theorem index?_eq {bs : Bytes} (h : bs.length = 36) : index? bs = some (readIndex bs) := by
  have hhash : 20 ≤ bs.length := by omega
  have hpriority : 4 ≤ (bs.drop 20).length := le_length_drop (by omega)
  have hlookup : 2 ≤ (bs.drop 24).length := le_length_drop (by omega)
  have hfile : 2 ≤ (bs.drop 26).length := le_length_drop (by omega)
  have hoffset : 8 ≤ (bs.drop 28).length := le_length_drop (by omega)
  simp only [index?, Option.bind_eq_bind, fixed?_eq hhash, number?_eq hpriority, number?_eq hlookup,
    number?_eq hfile, number?_eq hoffset, Option.bind_some, List.drop_drop, Nat.reduceAdd]
  rfl

theorem query?_eq {n : Nat} {bs : Bytes} (h : bs.length = 8 + 20 * n) :
    query? bs = some (Query.ofBody n bs) := by
  have hrest : (bs.drop 8).length = 20 * n := by
    rw [List.length_drop]
    omega
  have hlife : 4 ≤ (bs.drop 4).length := le_length_drop (by omega)
  simp [query?, number?_eq (show 4 ≤ bs.length by omega), number?_eq hlife, hashes?_eq hrest]
  rfl

theorem prioritized?_eq {n : Nat} {bs : Bytes} (h : bs.length = 4 + n) :
    prioritized? n bs = some (readUInt32 bs, fit n (bs.drop 4)) := by
  have hrest : n ≤ (bs.drop 4).length := le_length_drop (Nat.le_of_eq h.symm)
  simp [prioritized?, number?_eq (show 4 ≤ bs.length by omega), fixed?_eq hrest]
  rfl

theorem parseHeader?_eq (bs : Bytes) : parseHeader? bs = some (parseHeader bs) := by
  unfold parseHeader? parseHeader
  by_cases hshort : bs.length < headerSize
  · rw [if_pos hshort, if_pos hshort]
  · have hlong : headerSize ≤ bs.length := Nat.le_of_not_lt hshort
    have htype : 2 ≤ (bs.drop 2).length := le_length_drop hlong
    have hsize : ofBigEndian (bs.take 2) = (readUInt16 bs).toNat :=
      (UInt16.toNat_ofNat_of_lt' (ofBigEndian_take_lt 2 bs)).symm
    have hfirst : 2 ≤ bs.length := Nat.le_trans (show 2 ≤ headerSize by decide) hlong
    rw [if_neg hshort, if_neg hshort]
    simp only [number?_eq hfirst, number?_eq htype, Option.bind_eq_bind, Option.bind_some, hsize]
    split <;> rfl

theorem openFrame?_eq (frame : Bytes) : openFrame? frame = some (openFrame frame) := by
  unfold openFrame? openFrame
  rw [parseHeader?_eq]
  cases hheader : parseHeader frame with
  | error e => rfl
  | ok parsed =>
    obtain ⟨size, type⟩ := parsed
    obtain ⟨hlong, -⟩ := parseHeader_eq_ok hheader
    simp only [Option.bind_some, bind, Except.bind, take?, if_pos hlong]
    split <;> rfl

end Wire

namespace ClientMessage

open Wire

/-- The message in a frame, read within its bounds. -/
def decode? (frame : Bytes) : Option (Except WireError ClientMessage) := do
  match ← openFrame? frame with
  | .error e => return .error e
  | .ok (type, body) =>
    let size := frame.length
    let sized (expected : Nat) (m : Option ClientMessage) : Option (Except WireError ClientMessage) :=
      if size = expected then m.map .ok else some (.error (.badSize type size))
    if type = MessageType.query then
      if size < queryHeaderSize + 20 ∨ (size - queryHeaderSize) % 20 ≠ 0 then
        return .error (.badSize type size)
      else (query? body).map (.ok ∘ query)
    else if type = MessageType.insert ∨ type = MessageType.delete then
      sized blockFrameSize do
        let (p, b) ← prioritized? 1024 body
        return if type = MessageType.insert then insert p b else delete p b
    else if type = MessageType.index ∨ type = MessageType.unindex then
      sized indexFrameSize do
        let e ← index? body
        return if type = MessageType.index then index e else unindex e
    else if type = MessageType.indexSuper ∨ type = MessageType.unindexSuper then
      sized superFrameSize do
        let (p, h) ← prioritized? 20 body
        return if type = MessageType.indexSuper then indexSuper p h else unindexSuper p h
    else if type = MessageType.averagePriority then sized headerSize (some averagePriority)
    else return .error (.unknownType type)

/-- Once the size was found right, the fields are all there. -/
theorem map_ok_of_imp {α : Type} {p : Prop} [Decidable p] {m? : Option α} {m : α} {e : WireError}
    (h : p → m? = some m) :
    (if p then m?.map Except.ok else some (Except.error e)) =
      some (if p then Except.ok m else Except.error e) := by
  by_cases hp : p
  · rw [if_pos hp, if_pos hp, h hp, Option.map_some]
  · rw [if_neg hp, if_neg hp]

theorem decode?_eq (frame : Bytes) : decode? frame = some (decode frame) := by
  unfold decode? decode
  rw [openFrame?_eq]
  cases hopen : openFrame frame with
  | error e => rfl
  | ok opened =>
    obtain ⟨type, body⟩ := opened
    obtain ⟨rfl, -⟩ := openFrame_eq_ok_iff.1 hopen
    have hlength : ∀ n, headerSize + body.length = headerSize + n → body.length = n :=
      fun n => Nat.add_left_cancel
    simp only [Option.bind_some, bind, Except.bind, length_frame]
    by_cases hquery : type = MessageType.query
    · rw [if_pos hquery, if_pos hquery]
      generalize hcount : (headerSize + body.length - queryHeaderSize) / 20 = n
      by_cases hsize : headerSize + body.length = queryHeaderSize + 20 * n ∧ 0 < n
      · have hbody : body.length = 8 + 20 * n := hlength _ (by rw [hsize.1, ← Nat.add_assoc])
        rw [if_pos hsize, if_neg (by simp only [queryHeaderSize] at hsize hcount ⊢; omega),
          query?_eq hbody]
        rfl
      · rw [if_neg hsize, if_pos (by simp only [queryHeaderSize] at hsize hcount ⊢; omega)]
        rfl
    rw [if_neg hquery, if_neg hquery]
    by_cases hblock : type = MessageType.insert ∨ type = MessageType.delete
    · rw [if_pos hblock, map_ok_of_imp fun hsize => by
        rw [prioritized?_eq (hlength (4 + 1024) hsize), Option.bind_some]; rfl]
      by_cases hinsert : type = MessageType.insert
      · simp only [if_pos hinsert]
      · simp only [if_neg hinsert, if_pos (hblock.resolve_left hinsert)]
    rw [if_neg hblock, if_neg (not_or.1 hblock).1, if_neg (not_or.1 hblock).2]
    by_cases hentry : type = MessageType.index ∨ type = MessageType.unindex
    · rw [if_pos hentry, map_ok_of_imp fun hsize => by
        rw [index?_eq (hlength 36 hsize), Option.bind_some]; rfl]
      by_cases hindex : type = MessageType.index
      · simp only [if_pos hindex]
      · simp only [if_neg hindex, if_pos (hentry.resolve_left hindex)]
    rw [if_neg hentry, if_neg (not_or.1 hentry).1, if_neg (not_or.1 hentry).2]
    by_cases hsuper : type = MessageType.indexSuper ∨ type = MessageType.unindexSuper
    · rw [if_pos hsuper, map_ok_of_imp fun hsize => by
        rw [prioritized?_eq (hlength (4 + 20) hsize), Option.bind_some]; rfl]
      by_cases hindex : type = MessageType.indexSuper
      · simp only [if_pos hindex]
      · simp only [if_neg hindex, if_pos (hsuper.resolve_left hindex)]
    rw [if_neg hsuper, if_neg (not_or.1 hsuper).1, if_neg (not_or.1 hsuper).2]
    split
    · exact map_ok_of_imp fun _ => rfl
    · rfl

end ClientMessage

namespace DaemonMessage

open Wire

/-- The message in a frame, read within its bounds. -/
def decode? (frame : Bytes) : Option (Except WireError DaemonMessage) := do
  match ← openFrame? frame with
  | .error e => return .error e
  | .ok (type, body) =>
    let size := frame.length
    if type = MessageType.returnValue then
      if size = returnFrameSize then
        let (value, _) ← number? 4 body
        return .ok (.returnValue (UInt32.ofNat value).toInt32)
      else return .error (.badSize type size)
    else if type = MessageType.result then
      if size = resultFrameSize then
        let (block, _) ← fixed? 1024 body
        return .ok (.result block)
      else return .error (.badSize type size)
    else return .error (.unknownType type)

theorem decode?_eq (frame : Bytes) : decode? frame = some (decode frame) := by
  unfold decode? decode
  rw [openFrame?_eq]
  cases hopen : openFrame frame with
  | error e => rfl
  | ok opened =>
    obtain ⟨type, body⟩ := opened
    obtain ⟨rfl, -⟩ := openFrame_eq_ok_iff.1 hopen
    have hlength : ∀ n, headerSize + body.length = headerSize + n → n ≤ body.length :=
      fun n h => Nat.le_of_eq (Nat.add_left_cancel h).symm
    simp only [Option.bind_some, bind, Except.bind, length_frame]
    split
    · split
      · rename_i hsize
        rw [number?_eq (hlength 4 hsize)]
        rfl
      · rfl
    · split
      · split
        · rename_i hsize
          rw [fixed?_eq (hlength 1024 hsize)]
          rfl
        · rfl
      · rfl

end DaemonMessage

end ContentTree

import ContentTree.Proofs.Wire.Reads

/-!
# Messages and their frames

Messages and the frames that carry them belong to each other one to one: reading a frame gives a
message just if writing that message gives the frame.
-/

namespace ContentTree

namespace ClientMessage

open Wire

theorem length_body (m : ClientMessage) : headerSize + m.body.length = m.wireSize := by
  cases m with
  | query q =>
    simp only [body, wireSize, Query.wireSize, List.length_append, length_bigEndian,
      length_flatMap_toList, queryHeaderSize, headerSize]
    omega
  | _ => simp [body, wireSize]

theorem encode_eq_ok_iff {m : ClientMessage} {bs : Bytes} :
    m.encode = .ok bs ↔ bs = frame m.type m.body ∧ m.wireSize ≤ 65535 := by
  unfold encode
  rw [frame, length_body]
  split
  · rename_i hlarge
    simp only [reduceCtorEq, false_iff, not_and, Nat.not_le]
    exact fun _ => hlarge
  · rename_i hfits
    rw [Except.ok.injEq, eq_comm, and_iff_left (Nat.le_of_not_lt hfits)]

/-- A message that says something: a query asks for a block at least. -/
def Asks : ClientMessage → Prop
  | query q => q.hashes ≠ []
  | _ => True

/-- A body of the right size is taken for the message of its type. -/
theorem decode_frame {m : ClientMessage} (hasks : m.Asks) (hsize : m.wireSize ≤ 65535) :
    decode (frame m.type m.body) = .ok m := by
  have hopen : openFrame (frame m.type m.body) = .ok (m.type, m.body) :=
    openFrame_eq_ok_iff.2 ⟨rfl, by rw [length_body]; omega⟩
  have hlength : (frame m.type m.body).length = m.wireSize := by rw [length_frame, length_body]
  unfold decode
  simp only [hopen, hlength, bind, Except.bind]
  cases m with
  | query q =>
    have hpos : 0 < q.hashes.length := List.length_pos_iff.2 hasks
    have hcount : (wireSize (query q) - queryHeaderSize) / 20 = q.hashes.length := by
      simp [wireSize, Query.wireSize]
    have htype : (query q).type = MessageType.query := rfl
    rw [if_pos htype, hcount, if_pos ⟨rfl, hpos⟩]
    exact congrArg (Except.ok ∘ query) (Query.ofBody_body q)
  | insert p b | delete p b | indexSuper p b | unindexSuper p b =>
    simp [type, MessageType.insert, MessageType.delete, MessageType.query, MessageType.index,
      MessageType.unindex, MessageType.indexSuper, MessageType.unindexSuper, wireSize, body, readUInt32_append]
  | index e | unindex e =>
    simp [type, MessageType.insert, MessageType.delete, MessageType.query, MessageType.index,
      MessageType.unindex, wireSize, body, readIndex_indexBytes]
  | averagePriority =>
    simp [type, MessageType.insert, MessageType.delete, MessageType.query, MessageType.index,
      MessageType.unindex, MessageType.indexSuper, MessageType.unindexSuper, MessageType.averagePriority, wireSize]

/-- What is read from a frame is written as that frame. -/
theorem eq_frame_of_decode {bs : Bytes} {m : ClientMessage} (h : decode bs = .ok m) :
    bs = frame m.type m.body ∧ m.wireSize ≤ 65535 ∧ m.Asks := by
  unfold decode at h
  cases hopen : openFrame bs with
  | error e => simp [hopen, bind, Except.bind] at h
  | ok opened =>
    obtain ⟨type, body⟩ := opened
    obtain ⟨rfl, hbound⟩ := openFrame_eq_ok_iff.1 hopen
    suffices hread : m.type = type ∧ m.body = body ∧ m.Asks by
      obtain ⟨rfl, rfl, hasks⟩ := hread
      rw [length_body] at hbound
      exact ⟨rfl, Nat.le_of_lt_succ hbound, hasks⟩
    have hlength : ∀ n, headerSize + body.length = headerSize + n → body.length = n :=
      fun n => Nat.add_left_cancel
    simp only [hopen, bind, Except.bind, length_frame] at h
    -- The arms one after the other. The size that each tests for is what its fields take up.
    rcases arm_eq_ok h with ⟨hquery, ⟨hsize, hpos⟩, rfl⟩ | ⟨-, h⟩
    · generalize (headerSize + body.length - queryHeaderSize) / 20 = n at hsize hpos
      have hbody : body.length = 8 + 20 * n :=
        hlength _ (by rw [hsize, ← Nat.add_assoc])
      exact ⟨hquery.symm, Query.body_ofBody hbody, List.ne_nil_of_length_pos (by simpa using hpos)⟩
    rcases arm_eq_ok h with ⟨hinsert, hsize, rfl⟩ | ⟨-, h⟩
    · exact ⟨hinsert.symm, priority_fit (hlength (4 + 1024) hsize), trivial⟩
    rcases arm_eq_ok h with ⟨hdelete, hsize, rfl⟩ | ⟨-, h⟩
    · exact ⟨hdelete.symm, priority_fit (hlength (4 + 1024) hsize), trivial⟩
    rcases arm_eq_ok h with ⟨hindex, hsize, rfl⟩ | ⟨-, h⟩
    · exact ⟨hindex.symm, indexBytes_readIndex (hlength 36 hsize), trivial⟩
    rcases arm_eq_ok h with ⟨hunindex, hsize, rfl⟩ | ⟨-, h⟩
    · exact ⟨hunindex.symm, indexBytes_readIndex (hlength 36 hsize), trivial⟩
    rcases arm_eq_ok h with ⟨hsuper, hsize, rfl⟩ | ⟨-, h⟩
    · exact ⟨hsuper.symm, priority_fit (hlength (4 + 20) hsize), trivial⟩
    rcases arm_eq_ok h with ⟨hunsuper, hsize, rfl⟩ | ⟨-, h⟩
    · exact ⟨hunsuper.symm, priority_fit (hlength (4 + 20) hsize), trivial⟩
    rcases arm_eq_ok h with ⟨haverage, hsize, rfl⟩ | ⟨-, h⟩
    · exact ⟨haverage.symm, (List.eq_nil_of_length_eq_zero (hlength 0 hsize)).symm, trivial⟩
    cases h

theorem decode_eq_ok_iff {bs : Bytes} {m : ClientMessage} :
    decode bs = .ok m ↔ m.encode = .ok bs ∧ m.Asks := by
  rw [encode_eq_ok_iff]
  constructor
  · intro h
    obtain ⟨hbytes, hsize, hasks⟩ := eq_frame_of_decode h
    exact ⟨⟨hbytes, hsize⟩, hasks⟩
  · rintro ⟨⟨rfl, hsize⟩, hasks⟩
    exact decode_frame hasks hsize

end ClientMessage

namespace DaemonMessage

open Wire

def type : DaemonMessage → UInt16
  | returnValue _ => MessageType.returnValue
  | result _ => MessageType.result

def body : DaemonMessage → Bytes
  | returnValue v => bigEndian 4 v.toUInt32.toNat
  | result b => b.toList

theorem encode_eq_frame (m : DaemonMessage) : m.encode = frame m.type m.body := by
  cases m with
  | returnValue v => rw [encode, frame, body, length_bigEndian, type]
  | result b => rw [encode, frame, body, Vector.length_toList, type]

theorem fits (m : DaemonMessage) : headerSize + m.body.length < 65536 := by
  cases m <;> simp [body, headerSize]

theorem decode_encode (m : DaemonMessage) : decode m.encode = .ok m := by
  have hopen : openFrame m.encode = .ok (m.type, m.body) :=
    openFrame_eq_ok_iff.2 ⟨m.encode_eq_frame, m.fits⟩
  unfold decode
  simp only [hopen, bind, Except.bind]
  cases m with
  | returnValue v =>
    have hread := readInt32_append v []
    rw [List.append_nil] at hread
    simp [encode, type, body, hread]
    rfl
  | result b =>
    simp [encode, type, body, MessageType.result, MessageType.returnValue]
    rfl

/-- What is read from a frame is written as that frame. -/
theorem encode_of_decode {bs : Bytes} {m : DaemonMessage} (h : decode bs = .ok m) : m.encode = bs := by
  unfold decode at h
  cases hopen : openFrame bs with
  | error e => simp [hopen, bind, Except.bind] at h
  | ok opened =>
    obtain ⟨type, body⟩ := opened
    obtain ⟨rfl, -⟩ := openFrame_eq_ok_iff.1 hopen
    simp only [hopen, bind, Except.bind, length_frame] at h
    have hlength : ∀ n, headerSize + body.length = headerSize + n → body.length = n :=
      fun n => Nat.add_left_cancel
    rw [encode_eq_frame]
    rcases arm_eq_ok h with ⟨hvalue, hsize, rfl⟩ | ⟨-, h⟩
    · have hbody : body.length = 4 := hlength 4 hsize
      have hword := bigEndian_readInt32 (Nat.le_of_eq hbody.symm)
      rw [List.take_of_length_le (Nat.le_of_eq hbody)] at hword
      exact congrArg₂ frame hvalue.symm hword
    rcases arm_eq_ok h with ⟨hresult, hsize, rfl⟩ | ⟨-, h⟩
    · have hbody : body.length = 1024 := hlength 1024 hsize
      have hblock := toList_fit_of_le (Nat.le_of_eq hbody.symm)
      rw [List.take_of_length_le (Nat.le_of_eq hbody)] at hblock
      exact congrArg₂ frame hresult.symm hblock
    cases h

theorem decode_eq_ok_iff {bs : Bytes} {m : DaemonMessage} : decode bs = .ok m ↔ m.encode = bs :=
  ⟨encode_of_decode, fun h => h ▸ decode_encode m⟩

end DaemonMessage

namespace Wire

/-- Each frame carries one message at most, and reading finds it, without looking beyond the frame;
all other bytes are errors. Each message that asks for something has one frame, unless that would be
too large. -/
theorem decode_iff_encode (frame : Bytes) (m : ClientMessage) (d : DaemonMessage) :
    (ClientMessage.decode frame = .ok m ↔ m.encode = .ok frame ∧ m.Asks) ∧
      (DaemonMessage.decode frame = .ok d ↔ d.encode = frame) ∧
      ClientMessage.decode? frame = some (ClientMessage.decode frame) ∧
      DaemonMessage.decode? frame = some (DaemonMessage.decode frame) ∧
      ((∃ bs, m.encode = .ok bs ∧ bs.length = m.wireSize ∧ ClientMessage.decode bs = .ok m) ↔
        m.Asks ∧ m.wireSize ≤ 65535) ∧
      (m.encode = .error (.tooLarge m.wireSize) ↔ 65535 < m.wireSize) := by
  refine ⟨ClientMessage.decode_eq_ok_iff, DaemonMessage.decode_eq_ok_iff,
    ClientMessage.decode?_eq frame, DaemonMessage.decode?_eq frame, ?_, ?_⟩
  · constructor
    · rintro ⟨bs, hencode, -, hdecode⟩
      exact ⟨(ClientMessage.decode_eq_ok_iff.1 hdecode).2, (ClientMessage.encode_eq_ok_iff.1 hencode).2⟩
    · rintro ⟨hasks, hsize⟩
      have hlength : (Wire.frame m.type m.body).length = m.wireSize := by
        rw [length_frame, ClientMessage.length_body]
      exact ⟨_, ClientMessage.encode_eq_ok_iff.2 ⟨rfl, hsize⟩, hlength,
        ClientMessage.decode_frame hasks hsize⟩
  · unfold ClientMessage.encode
    split
    · rename_i hlarge
      exact iff_of_true rfl hlarge
    · rename_i hfits
      exact iff_of_false nofun hfits

end Wire

end ContentTree

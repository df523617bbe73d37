import ContentTree.Proofs.Wire.Fields

/-!
# Frames and bodies

A frame is a header, which counts the frame, and a body. Opening takes every frame apart and nothing
else, and what a body of the right size is read as has that body.
-/

namespace ContentTree

namespace Wire

/-! ### Frames -/

/-- The frame of this type around a body. -/
def frame (type : UInt16) (body : Bytes) : Bytes := header (headerSize + body.length) type ++ body

@[simp]
theorem length_header (size : Nat) (type : UInt16) : (header size type).length = headerSize := by
  simp [header]

@[simp]
theorem length_frame (type : UInt16) (body : Bytes) :
    (frame type body).length = headerSize + body.length := by
  simp [frame]

theorem drop_frame (type : UInt16) (body : Bytes) : (frame type body).drop headerSize = body :=
  List.drop_left' (length_header _ _)

theorem parseHeader_append {size : Nat} (hsize : size < 65536) (type : UInt16) (rest : Bytes) :
    parseHeader (header size type ++ rest) =
      if size < headerSize then .error (.badSize type size) else .ok (size, type) := by
  have hword : (UInt16.ofNat size).toNat = size := UInt16.toNat_ofNat_of_lt' hsize
  have hsplit : header size type ++ rest =
      bigEndian 2 (UInt16.ofNat size).toNat ++ (bigEndian 2 type.toNat ++ rest) := by
    rw [hword, header, List.append_assoc]
  have hfirst : readUInt16 (header size type ++ rest) = UInt16.ofNat size := by
    rw [hsplit, readUInt16_append]
  have hsecond : readUInt16 ((header size type ++ rest).drop 2) = type := by
    rw [hsplit, List.drop_left' (length_bigEndian 2 _), readUInt16_append]
  have hlong : ¬ (header size type ++ rest).length < headerSize := by simp
  simp only [parseHeader, if_neg hlong, hfirst, hsecond, hword]

theorem parseHeader_header {size : Nat} (hsize : size < 65536) (type : UInt16) :
    parseHeader (header size type) =
      if size < headerSize then .error (.badSize type size) else .ok (size, type) := by
  have h := parseHeader_append hsize type []
  rwa [List.append_nil] at h

theorem parseHeader_frame {type : UInt16} {body : Bytes} (hbound : headerSize + body.length < 65536) :
    parseHeader (frame type body) = .ok (headerSize + body.length, type) := by
  rw [frame, parseHeader_append hbound, if_neg (Nat.not_lt.2 (Nat.le_add_right _ _))]

theorem parseHeader_eq_ok {bs : Bytes} {size : Nat} {type : UInt16}
    (h : parseHeader bs = .ok (size, type)) :
    headerSize ≤ bs.length ∧ headerSize ≤ size ∧ size < 65536 ∧ bs.take headerSize = header size type := by
  unfold parseHeader at h
  split at h
  · cases h
  · rename_i hlong
    have hlong : headerSize ≤ bs.length := Nat.le_of_not_lt hlong
    dsimp only at h
    split at h
    · cases h
    · rename_i hsize
      obtain ⟨rfl, rfl⟩ := Prod.mk.inj (Except.ok.inj h)
      refine ⟨hlong, Nat.le_of_not_lt hsize, (readUInt16 bs).toNat_lt, ?_⟩
      have hfour : headerSize = 4 := rfl
      have hrest : 2 ≤ (bs.drop 2).length := le_length_drop hlong
      rw [header, bigEndian_readUInt16 (by omega), bigEndian_readUInt16 hrest, ← List.take_add]

theorem openFrame_eq_ok_iff {bs body : Bytes} {type : UInt16} :
    openFrame bs = .ok (type, body) ↔ bs = frame type body ∧ headerSize + body.length < 65536 := by
  constructor
  · intro h
    unfold openFrame at h
    cases hheader : parseHeader bs with
    | error e => simp [hheader, bind, Except.bind] at h
    | ok parsed =>
      obtain ⟨size, type'⟩ := parsed
      obtain ⟨hlong, -, hbound, hbytes⟩ := parseHeader_eq_ok hheader
      simp only [hheader, bind, Except.bind] at h
      split at h
      · rename_i hsize
        obtain ⟨rfl, rfl⟩ := Prod.mk.inj (Except.ok.inj h)
        have hbody : headerSize + (bs.drop headerSize).length = size := by
          rw [List.length_drop]
          omega
        rw [frame, hbody, ← hbytes, List.take_append_drop]
        exact ⟨rfl, hbound⟩
      · cases h
  · rintro ⟨rfl, hbound⟩
    unfold openFrame
    simp only [parseHeader_frame hbound, bind, Except.bind, length_frame, if_pos, drop_frame]
    rfl

/-! ### Bodies -/

/-- An arm of a reader, for one type: the message is taken if the test of the size was passed. All
other types are left to the arms that follow. -/
theorem arm_eq_ok {α : Type} {p q : Prop} [Decidable p] [Decidable q] {m m' : α} {e : WireError}
    {others : Except WireError α}
    (h : (if p then if q then Except.ok m else Except.error e else others) = Except.ok m') :
    p ∧ q ∧ m = m' ∨ ¬ p ∧ others = .ok m' := by
  by_cases hp : p
  · rw [if_pos hp] at h
    by_cases hq : q
    · rw [if_pos hq] at h
      exact .inl ⟨hp, hq, Except.ok.inj h⟩
    · rw [if_neg hq] at h
      cases h
  · rw [if_neg hp] at h
    exact .inr ⟨hp, h⟩

theorem drop_word (n : Nat) (rest : Bytes) : (bigEndian 4 n ++ rest).drop 4 = rest :=
  List.drop_left' (length_bigEndian 4 n)

/-- A word and then bytes of a fixed number. -/
theorem priority_fit {n : Nat} {body : Bytes} (h : body.length = 4 + n) :
    bigEndian 4 (readUInt32 body).toNat ++ (fit n (body.drop 4)).toList = body := by
  have hrest : (body.drop 4).length = n := by
    rw [List.length_drop]
    omega
  rw [bigEndian_readUInt32 (by omega), toList_fit_of_le (Nat.le_of_eq hrest.symm),
    List.take_of_length_le (Nat.le_of_eq hrest), List.take_append_drop]

end Wire

namespace Query

open Wire

/-- The query in a body with `n` hashes. -/
def ofBody (n : Nat) (body : Bytes) : Query :=
  ⟨readUInt32 body, readInt32 (body.drop 4), readHashes n (body.drop 8)⟩

theorem ofBody_body (q : Query) : ofBody q.hashes.length (ClientMessage.query q).body = q := by
  have hlife : (ClientMessage.query q).body.drop 4 =
      bigEndian 4 q.ttl.toUInt32.toNat ++ q.hashes.flatMap Vector.toList := by
    rw [ClientMessage.body, List.append_assoc, drop_word]
  have hhashes : (ClientMessage.query q).body.drop 8 = q.hashes.flatMap Vector.toList := by
    rw [← List.drop_drop (i := 4) (j := 4), hlife, drop_word]
  rw [ofBody, hhashes, hlife, readHashes_flatMap, readInt32_append, ClientMessage.body,
    List.append_assoc, readUInt32_append]

theorem body_ofBody {n : Nat} {body : Bytes} (h : body.length = 8 + 20 * n) :
    (ClientMessage.query (ofBody n body)).body = body := by
  have hhashes : (body.drop 8).length = 20 * n := by
    rw [List.length_drop]
    omega
  have hlife : 4 ≤ (body.drop 4).length := le_length_drop (by omega)
  rw [ClientMessage.body, ofBody, flatMap_readHashes hhashes, bigEndian_readUInt32 (by omega),
    bigEndian_readInt32 hlife, ← List.take_add, List.take_append_drop]

end Query

end ContentTree

import ContentTree.Proofs.Wire.Codec
import ContentTree.Stream

/-!
# Messages from a stream

A stream gives its frames one after the other, each to its last byte and none beyond. So receiving
gives the messages that were written to the stream, up to where it breaks off, and what a cut leaves
of a message is never taken for one.
-/

namespace ContentTree

namespace Stream

open Wire

/-- What is taken is gone, and nothing else. -/
theorem eq_append_of_takeFrame {bs f rest : Bytes} (h : takeFrame bs = (.ok f, rest)) :
    bs = f ++ rest := by
  unfold takeFrame at h
  split at h
  · cases h
  · split at h
    · cases h
    · split at h
      · cases h
      · obtain ⟨rfl, rfl⟩ : bs.take _ = f ∧ bs.drop _ = rest := by simpa using h
        exact (List.take_append_drop _ bs).symm

theorem take_frame {type : UInt16} {body p : Bytes} (h : p <+: frame type body)
    (hlong : headerSize ≤ p.length) : p.take headerSize = header (headerSize + body.length) type := by
  calc
    p.take headerSize = (frame type body).take headerSize := by
      rw [List.prefix_iff_eq_take.1 h, List.take_take, Nat.min_eq_left hlong]
    _ = header (headerSize + body.length) type := List.take_left' (length_header _ _)

theorem takeFrame_frame {type : UInt16} {body : Bytes} (hbound : headerSize + body.length < 65536)
    (rest : Bytes) : takeFrame (frame type body ++ rest) = (.ok (frame type body), rest) := by
  have hlength := length_frame type body
  have htake : (frame type body ++ rest).take headerSize = header (headerSize + body.length) type := by
    rw [List.take_append_of_le_length (by simp), take_frame (List.prefix_refl _) (by simp)]
  have hheld : ¬ (frame type body ++ rest).length < headerSize + body.length := by
    rw [List.length_append, hlength]
    omega
  unfold takeFrame
  rw [if_neg (fun h => hheld (Nat.lt_add_right _ h)), htake, parseHeader_header hbound,
    if_neg (Nat.not_lt.2 (Nat.le_add_right _ _))]
  dsimp only
  rw [if_neg hheld, List.take_left' hlength, List.drop_left' hlength]

/-- Of a header that declares less than itself nothing more is taken. -/
theorem takeFrame_short {size : Nat} (hsize : size < headerSize) (type : UInt16) (rest : Bytes) :
    takeFrame (header size type ++ rest) = (.error (.badHeader (.badSize type size)), rest) := by
  have hlength := length_header size type
  unfold takeFrame
  rw [if_neg (by simp), List.take_left' hlength,
    parseHeader_header (Nat.lt_trans hsize (by decide)), if_pos hsize, List.drop_left' hlength]

/-- A frame that is cut short is taken whole, for nothing. -/
theorem takeFrame_cut {type : UInt16} {body p : Bytes} (hbound : headerSize + body.length < 65536)
    (h : p <+: frame type body) (hcut : p ≠ frame type body) :
    takeFrame p = (.error (if p.length < headerSize then .endInHeader else .endInBody), []) := by
  have hless : p.length < headerSize + body.length := by
    have hle := h.length_le
    have hne : p.length ≠ (frame type body).length := fun heq => hcut (h.eq_of_length heq)
    rw [length_frame] at hle hne
    exact Nat.lt_of_le_of_ne hle hne
  unfold takeFrame
  by_cases hshort : p.length < headerSize
  · rw [if_pos hshort, if_pos hshort]
  · rw [if_neg hshort, if_neg hshort, take_frame h (Nat.le_of_not_lt hshort), parseHeader_header hbound,
      if_neg (Nat.not_lt.2 (Nat.le_add_right _ _))]
    dsimp only
    rw [if_pos hless]

end Stream

namespace DaemonMessage

open Wire

theorem takeFrame_encode (m : DaemonMessage) (rest : Bytes) :
    Stream.takeFrame (m.encode ++ rest) = (.ok m.encode, rest) := by
  rw [encode_eq_frame]
  exact Stream.takeFrame_frame m.fits rest

end DaemonMessage

namespace StreamConnection

open Wire

/-! ### One receive -/

theorem receive_encode (m : DaemonMessage) (rest : Bytes) (next : List Bytes) :
    receive ⟨some (m.encode ++ rest), next⟩ = (.ok m, ⟨some rest, next⟩) := by
  simp only [receive, m.takeFrame_encode, m.decode_encode]
  rfl

theorem receive_eq_ok {bs : Bytes} {next : List Bytes} {m : DaemonMessage} {c : StreamConnection}
    (h : receive ⟨some bs, next⟩ = (.ok m, c)) :
    ∃ rest, bs = m.encode ++ rest ∧ c = ⟨some rest, next⟩ := by
  cases htake : Stream.takeFrame bs with
  | mk reply rest =>
    simp only [receive, htake, Prod.mk.injEq] at h
    obtain ⟨hmessage, rfl⟩ := h
    cases reply with
    | error e => cases e <;> cases hmessage
    | ok f =>
      dsimp only at hmessage
      cases hdecode : DaemonMessage.decode f with
      | error e =>
        rw [hdecode] at hmessage
        cases hmessage
      | ok m' =>
        rw [hdecode] at hmessage
        obtain rfl : m' = m := Except.ok.inj hmessage
        refine ⟨rest, ?_, rfl⟩
        rw [DaemonMessage.encode_of_decode hdecode]
        exact Stream.eq_append_of_takeFrame htake

/-- How a stream that ends with these bytes of a message fails. -/
def ending (p : Bytes) : TransportError :=
  if p.length < headerSize then .disconnected else .receiveFailed "early eof"

theorem receive_cut {m : DaemonMessage} {p : Bytes} (h : p <+: m.encode) (hcut : p ≠ m.encode)
    (next : List Bytes) : receive ⟨some p, next⟩ = (.error (ending p), ⟨some [], next⟩) := by
  rw [DaemonMessage.encode_eq_frame] at h hcut
  simp only [receive, Stream.takeFrame_cut m.fits h hcut, ending]
  by_cases hshort : p.length < headerSize
  · simp only [if_pos hshort]
  · simp only [if_neg hshort]

/-- Nothing follows the end. -/
theorem receive_nil (next : List Bytes) :
    receive ⟨some [], next⟩ = (.error .disconnected, ⟨some [], next⟩) := rfl

/-! ### One receive after the other -/

/-- What so many receives give. -/
def receives : Nat → StreamConnection → List (Except TransportError DaemonMessage) × StreamConnection
  | 0, c => ([], c)
  | n + 1, c =>
    let (r, c) := receive c
    let (rs, c) := receives n c
    (r :: rs, c)

/-- The messages before the first error. -/
def delivered : List (Except TransportError DaemonMessage) → List DaemonMessage
  | .ok m :: rs => m :: delivered rs
  | _ => []

theorem encode_delivered_prefix (n : Nat) (bs : Bytes) (next : List Bytes) :
    (delivered (receives n ⟨some bs, next⟩).1).flatMap DaemonMessage.encode <+: bs := by
  induction n generalizing bs with
  | zero => exact List.nil_prefix
  | succ n ih =>
    cases hreceive : receive ⟨some bs, next⟩ with
    | mk r c =>
      simp only [receives, hreceive]
      cases r with
      | error e => exact List.nil_prefix
      | ok m =>
        obtain ⟨rest, rfl, rfl⟩ := receive_eq_ok hreceive
        rw [delivered, List.flatMap_cons]
        exact (List.prefix_append_right_inj m.encode).2 (ih rest)

theorem receives_nil (n : Nat) (next : List Bytes) :
    receives n ⟨some [], next⟩ = (List.replicate n (.error .disconnected), ⟨some [], next⟩) := by
  induction n with
  | zero => rfl
  | succ n ih => simp only [receives, receive_nil, ih, List.replicate_succ]

theorem receives_append (ms : List DaemonMessage) (n : Nat) (rest : Bytes) (next : List Bytes) :
    receives (ms.length + n) ⟨some (ms.flatMap DaemonMessage.encode ++ rest), next⟩ =
      (ms.map Except.ok ++ (receives n ⟨some rest, next⟩).1, (receives n ⟨some rest, next⟩).2) := by
  induction ms with
  | nil => simp
  | cons m ms ih =>
    have hcount : (m :: ms).length + n = ms.length + n + 1 := by
      rw [List.length_cons]
      omega
    rw [hcount, List.flatMap_cons, List.append_assoc, receives, receive_encode]
    dsimp only
    rw [ih]
    rfl

/-- What is delivered before the first error was on the stream, frame by frame and from its start.
A stream that holds these messages and breaks off in the next gives just these messages, then the
error that belongs to the cut, and from there on nothing but the end. -/
theorem receives_stream (bs : Bytes) (next : List Bytes) :
    (∀ n, (delivered (receives n ⟨some bs, next⟩).1).flatMap DaemonMessage.encode <+: bs) ∧
      ∀ (ms : List DaemonMessage) (m : DaemonMessage) (p : Bytes),
        p <+: m.encode → p ≠ m.encode → bs = ms.flatMap DaemonMessage.encode ++ p → ∀ n,
          receives (ms.length + (n + 1)) ⟨some bs, next⟩ =
            (ms.map Except.ok ++ .error (ending p) :: List.replicate n (.error .disconnected),
              ⟨some [], next⟩) := by
  refine ⟨fun n => encode_delivered_prefix n bs next, ?_⟩
  rintro ms m p hpart hcut rfl n
  rw [receives_append, receives, receive_cut hpart hcut]
  dsimp only
  rw [receives_nil]

/-- A return value, and another that breaks off after its header. -/
theorem receives_value_cut :
    [0, 8, 0, 0, 255] <+: (DaemonMessage.returnValue (-1)).encode ∧
      [0, 8, 0, 0, 255] ≠ (DaemonMessage.returnValue (-1)).encode ∧
      receives 3 ⟨some [0, 8, 0, 0, 0, 0, 0, 7, 0, 8, 0, 0, 255], []⟩ =
        ([.ok (.returnValue 7), .error (.receiveFailed "early eof"), .error .disconnected],
          ⟨some [], []⟩) := by
  have hpart : [0, 8, 0, 0, 255] <+: (DaemonMessage.returnValue (-1)).encode := by decide
  have hcut : [0, 8, 0, 0, 255] ≠ (DaemonMessage.returnValue (-1)).encode := by decide
  have hstream : [0, 8, 0, 0, 0, 0, 0, 7, 0, 8, 0, 0, 255] =
      [DaemonMessage.returnValue 7].flatMap DaemonMessage.encode ++ [0, 8, 0, 0, 255] := by decide
  exact ⟨hpart, hcut, (receives_stream _ []).2 _ _ _ hpart hcut hstream 1⟩

end StreamConnection

end ContentTree

import Mathlib.Data.Nat.Find
import ContentTree.Proofs.Stream.Framing

/-!
# Whose verdict a submit gives

A daemon answers each message with a return value, and may send other frames before it. Each submit
takes one frame, the first that none took before. So once an answer has other frames in it, the
values come late, and a later submit gives the verdict of an earlier message, unless the sink is given
up before the value is at the front.
-/

namespace ContentTree

namespace Wire

theorem frame_inj {type type' : UInt16} {body body' : Bytes}
    (hbound : headerSize + body.length < 65536) (hbound' : headerSize + body'.length < 65536)
    (h : frame type body = frame type' body') : type = type' ∧ body = body' := by
  have hopen : openFrame (frame type body) = .ok (type, body) := openFrame_eq_ok_iff.2 ⟨rfl, hbound⟩
  have hopen' : openFrame (frame type body) = .ok (type', body') :=
    openFrame_eq_ok_iff.2 ⟨h, hbound'⟩
  exact Prod.mk.inj (Except.ok.inj (hopen.symm.trans hopen'))

/-- A complete frame that is no return value: of another type or of another size. A header that
declares less than itself stands alone. -/
inductive Stray : Bytes → Prop
  | frame (type : UInt16) (body : Bytes) (hbound : headerSize + body.length < 65536)
      (hother : type = MessageType.returnValue → body.length ≠ 4) : Stray (Wire.frame type body)
  | header (size : Nat) (type : UInt16) (hsize : size < headerSize) : Stray (Wire.header size type)

theorem stray_result (b : Block) : Stray (DaemonMessage.result b).encode := by
  rw [DaemonMessage.encode_eq_frame]
  exact .frame _ _ (DaemonMessage.fits _) (by simp [DaemonMessage.type, MessageType.result,
    MessageType.returnValue])

end Wire

namespace StreamSink

open Wire

/-! ### One submit -/

theorem submit_value {m : ClientMessage} {sent : Bytes} (hsent : m.encode = .ok sent) (v : Int32)
    (rest : Bytes) :
    submit m ⟨(DaemonMessage.returnValue v).encode ++ rest⟩ = (verdict v, some sent, ⟨rest⟩) := by
  simp only [submit, exchange, hsent, DaemonMessage.takeFrame_encode, DaemonMessage.decode_encode]
  rfl

theorem submit_result {m : ClientMessage} {sent : Bytes} (hsent : m.encode = .ok sent) (b : Block)
    (rest : Bytes) :
    submit m ⟨(DaemonMessage.result b).encode ++ rest⟩ =
      (.error (.unreachable "unexpected result block"), some sent, ⟨rest⟩) := by
  simp only [submit, exchange, hsent, DaemonMessage.takeFrame_encode, DaemonMessage.decode_encode]
  rfl

theorem submit_stray {m : ClientMessage} {sent f : Bytes} (hsent : m.encode = .ok sent)
    (hstray : Stray f) (rest : Bytes) :
    ∃ reason, submit m ⟨f ++ rest⟩ = (.error (.unreachable reason), some sent, ⟨rest⟩) := by
  cases hstray with
  | header size type hsize =>
    refine ⟨(WireError.badSize type size).message, ?_⟩
    simp only [submit, exchange, hsent, Stream.takeFrame_short hsize type rest]
    rfl
  | frame type body hbound hother =>
    have htake : Stream.takeFrame (frame type body ++ rest) = (.ok (frame type body), rest) :=
      Stream.takeFrame_frame hbound rest
    cases hdecode : DaemonMessage.decode (frame type body) with
    | error e =>
      refine ⟨e.message, ?_⟩
      simp only [submit, exchange, hsent, htake, hdecode]
      rfl
    | ok d =>
      cases d with
      | result b => exact ⟨_, DaemonMessage.encode_of_decode hdecode ▸ submit_result hsent b rest⟩
      | returnValue v =>
        have hframe := DaemonMessage.encode_of_decode hdecode
        rw [DaemonMessage.encode_eq_frame] at hframe
        obtain ⟨rfl, rfl⟩ := frame_inj (DaemonMessage.fits _) hbound hframe
        exact absurd (length_bigEndian 4 _) (hother rfl)

theorem submit_unsent {m : ClientMessage} {e : WireError} (hunsent : m.encode = .error e) (s : StreamSink) :
    submit m s = (.error (.unreachable e.message), none, s) := by
  simp only [submit, exchange, hunsent]
  rfl

theorem verdict_settled (v : Int32) : verdict v = .ok () ∨ verdict v = .error .refused := by
  unfold verdict
  split
  · exact .inr rfl
  · exact .inl rfl

/-! ### What the daemon sends -/

inductive Reply
  | value (v : Int32)
  | other (f : { f : Bytes // Stray f })

def Reply.bytes : Reply → Bytes
  | value v => (DaemonMessage.returnValue v).encode
  | other f => f.1

/-- What a submit gives for this frame. -/
def Reply.Gives : Reply → Except SinkError Unit → Prop
  | value v, r => r = verdict v
  | other _, r => ∃ reason, r = .error (.unreachable reason)

theorem submit_reply {m : ClientMessage} {sent : Bytes} (hsent : m.encode = .ok sent) (reply : Reply)
    (rest : Bytes) :
    ∃ r, reply.Gives r ∧ submit m ⟨reply.bytes ++ rest⟩ = (r, some sent, ⟨rest⟩) := by
  cases reply with
  | value v => exact ⟨_, rfl, submit_value hsent v rest⟩
  | other f =>
    obtain ⟨reason, hsubmit⟩ := submit_stray hsent f.2 rest
    exact ⟨_, ⟨reason, rfl⟩, hsubmit⟩

theorem exists_first {p : Nat → Prop} (h : ∃ k, p k) : ∃ k, p k ∧ ∀ i < k, ¬ p i := by
  classical
  exact ⟨Nat.find h, Nat.find_spec h, fun _ => Nat.find_min h⟩

/-- For each message that reaches the daemon, the return value and the frames before it. -/
structure Daemon where
  others : Nat → List { f : Bytes // Stray f }
  value : Nat → Int32

namespace Daemon

def answer (d : Daemon) (k : Nat) : List Reply := (d.others k).map .other ++ [.value (d.value k)]

def replies (d : Daemon) (n : Nat) : List Reply := (List.range n).flatMap d.answer

theorem replies_succ (d : Daemon) (n : Nat) : d.replies (n + 1) = d.replies n ++ d.answer n := by
  rw [replies, List.range_succ, List.flatMap_append, List.flatMap_singleton, replies]

theorem replies_prefix (d : Daemon) {k n : Nat} (h : k ≤ n) : d.replies k <+: d.replies n := by
  induction h with
  | refl => exact List.prefix_refl _
  | step _ ih =>
    rw [replies_succ]
    exact ih.trans (List.prefix_append _ _)

theorem le_length_replies (d : Daemon) (n : Nat) : n ≤ (d.replies n).length := by
  induction n with
  | zero => exact Nat.zero_le _
  | succ n ih =>
    rw [replies_succ, List.length_append, answer, List.length_append, List.length_singleton]
    omega

/-- Values alone come as they are asked for. -/
theorem length_replies (d : Daemon) {n : Nat} (h : ∀ j < n, d.others j = []) :
    (d.replies n).length = n := by
  induction n with
  | zero => rfl
  | succ n ih =>
    rw [replies_succ, List.length_append, ih fun j hj => h j (Nat.lt_succ_of_lt hj), answer,
      h n (Nat.lt_succ_self n)]
    rfl

/-- The first answer with other frames begins where it is waited for. -/
theorem getElem?_replies (d : Daemon) {k n e : Nat} (h : ∀ j < k, d.others j = []) (hk : k < n)
    (he : e ≤ (d.others k).length) : (d.replies n)[k + e]? = (d.answer k)[e]? := by
  obtain ⟨later, hlater⟩ := d.replies_prefix hk
  have hlength := d.length_replies h
  have hanswer : e < (d.answer k).length := by
    rw [answer, List.length_append, List.length_map, List.length_singleton]
    omega
  rw [← hlater, replies_succ, List.append_assoc, List.getElem?_append_right (by omega), hlength,
    Nat.add_sub_cancel_left, List.getElem?_append_left hanswer]

/-! ### Submits one after the other -/

/-- What each submit gives, with the value that the daemon sent for that very message, if the
message reached it. Before are `k` messages, and `incoming` is what was not taken of their answers. -/
def run (d : Daemon) : Nat → Bytes → List ClientMessage → List (Except SinkError Unit × Option Int32)
  | _, _, [] => []
  | k, incoming, m :: ms =>
    match m.encode with
    | .error _ =>
      let (r, _, s) := submit m ⟨incoming⟩
      (r, none) :: run d k s.incoming ms
    | .ok _ =>
      let (r, _, s) := submit m ⟨incoming ++ (d.answer k).flatMap Reply.bytes⟩
      (r, some (d.value k)) :: run d (k + 1) s.incoming ms

/-- A submit that was accepted or refused was so by the value for its own message. -/
def Own (outcome : Except SinkError Unit × Option Int32) : Prop :=
  outcome.1 = .ok () ∨ outcome.1 = .error .refused →
    ∃ v, outcome.2 = some v ∧ outcome.1 = verdict v

/-- If the frame that is taken for message `k` is a value, it says the same as the message's own. -/
def Fair (d : Daemon) (k : Nat) : Prop :=
  ∀ v, (d.replies (k + 1))[k]? = some (.value v) → verdict v = verdict (d.value k)

theorem fair_of_plain {d : Daemon} {k : Nat} (h : ∀ i ≤ k, d.others i = []) : d.Fair k := by
  intro v htaken
  have hvalue := d.getElem?_replies (e := 0) (fun i hi => h i (Nat.le_of_lt hi)) (Nat.lt_succ_self k)
    (Nat.zero_le _)
  rw [Nat.add_zero, htaken, answer, h k (Nat.le_refl k)] at hvalue
  obtain rfl : v = d.value k := by simpa using hvalue
  rfl

/-- Among the other frames of the first such answer no value is taken. -/
theorem fair_of_within {d : Daemon} {k j : Nat} (h : ∀ i < k, d.others i = []) (hk : k ≤ j)
    (hj : j < k + (d.others k).length) : d.Fair j := by
  intro v htaken
  have hwithin : j - k < (d.others k).length := by omega
  have hother := d.getElem?_replies h (Nat.lt_succ_of_le hk) (Nat.le_of_lt hwithin)
  rw [Nat.add_sub_cancel' hk, htaken, answer, List.getElem?_append_left (by rwa [List.length_map]),
    List.getElem?_map, List.getElem?_eq_getElem hwithin] at hother
  cases hother

/-- And the value behind them is taken that many messages later. -/
theorem taken_late {d : Daemon} {k : Nat} (h : ∀ i < k, d.others i = []) :
    (d.replies (k + (d.others k).length + 1))[k + (d.others k).length]? = some (.value (d.value k)) := by
  rw [d.getElem?_replies h (by omega) (Nat.le_refl _), answer,
    List.getElem?_append_right (by rw [List.length_map]), List.length_map, Nat.sub_self]
  rfl

theorem own_iff_fair {d : Daemon} {k : Nat} {reply : Reply} {r : Except SinkError Unit}
    (hreply : (d.replies (k + 1))[k]? = some reply) (hgives : reply.Gives r) :
    Own (r, some (d.value k)) ↔ d.Fair k := by
  unfold Own Fair
  rw [hreply]
  cases reply with
  | other f =>
    obtain ⟨reason, rfl⟩ := hgives
    simp
  | value v =>
    obtain rfl : r = verdict v := hgives
    have hsettled := verdict_settled v
    simp only [hsettled, true_imp_iff, Option.some.injEq, Reply.value.injEq, exists_eq_left', forall_eq']

theorem own_unsent (reason : String) : Own (.error (.unreachable reason), none) := by
  rintro (h | h) <;> cases h

/-- The messages that can be sent. -/
def sendable (ms : List ClientMessage) : Nat := ms.countP (·.wireSize ≤ 65535)

/-- The submits take the replies in their order, one each. -/
theorem own_run_iff (d : Daemon) (ms : List ClientMessage) (k : Nat) :
    (∀ o ∈ d.run k (((d.replies k).drop k).flatMap Reply.bytes) ms, Own o) ↔
      ∀ j, k ≤ j → j < k + sendable ms → d.Fair j := by
  induction ms generalizing k with
  | nil =>
    simp only [run, List.not_mem_nil, false_imp_iff, implies_true, true_iff]
    intro j hk hj
    simp only [sendable, List.countP_nil, Nat.add_zero] at hj
    omega
  | cons m ms ih =>
    cases hencode : m.encode with
    | error e =>
      have hcount : sendable (m :: ms) = sendable ms := by
        refine List.countP_cons_of_neg ?_
        intro hfits
        have hok := ClientMessage.encode_eq_ok_iff.2 ⟨rfl, of_decide_eq_true hfits⟩
        rw [hencode] at hok
        cases hok
      rw [run, hencode, submit_unsent hencode, hcount, ← ih k]
      simp only [List.forall_mem_cons, own_unsent, true_and]
    | ok sent =>
      have hcount : sendable (m :: ms) = sendable ms + 1 :=
        List.countP_cons_of_pos (decide_eq_true (ClientMessage.encode_eq_ok_iff.1 hencode).2)
      have hlength := d.le_length_replies (k + 1)
      -- The answer to this message comes behind what is left, and the first of it all is reply `k`.
      have hincoming : ((d.replies k).drop k).flatMap Reply.bytes ++ (d.answer k).flatMap Reply.bytes =
          (d.replies (k + 1))[k].bytes ++ ((d.replies (k + 1)).drop (k + 1)).flatMap Reply.bytes := by
        rw [← List.flatMap_append, ← List.drop_append_of_le_length (d.le_length_replies k),
          ← replies_succ, List.drop_eq_getElem_cons hlength, List.flatMap_cons]
      obtain ⟨r, hgives, hsubmit⟩ := submit_reply hencode (d.replies (k + 1))[k]
        (((d.replies (k + 1)).drop (k + 1)).flatMap Reply.bytes)
      have hown := own_iff_fair (List.getElem?_eq_getElem hlength) hgives
      rw [run, hencode, hincoming, hsubmit, hcount]
      simp only [List.forall_mem_cons, hown, ih (k + 1)]
      constructor
      · rintro ⟨hfair, hlater⟩ j hk hj
        rcases Nat.eq_or_lt_of_le hk with rfl | hlt
        · exact hfair
        · exact hlater j hlt (by omega)
      · intro hall
        exact ⟨hall k (Nat.le_refl k) (by omega), fun j hk hj => hall j (by omega) (by omega)⟩

end Daemon

/-- Whatever values the daemon sends, every submit gives its own verdict, just if the first answer
with other frames before the value has as many of them as messages are left to send, its own among
them. -/
theorem own_verdicts_iff (others : Nat → List { f : Bytes // Stray f }) (ms : List ClientMessage) :
    (∀ value, ∀ o ∈ (Daemon.mk others value).run 0 [] ms, Daemon.Own o) ↔
      ∀ k, (∀ j < k, others j = []) → others k ≠ [] →
        Daemon.sendable ms ≤ k + (others k).length := by
  have hruns : ∀ value, (∀ o ∈ (Daemon.mk others value).run 0 [] ms, Daemon.Own o) ↔
      ∀ j < Daemon.sendable ms, (Daemon.mk others value).Fair j := by
    intro value
    have h : (∀ o ∈ (Daemon.mk others value).run 0 [] ms, Daemon.Own o) ↔ _ :=
      (Daemon.mk others value).own_run_iff ms 0
    simpa only [Nat.zero_le, Nat.zero_add, true_imp_iff] using h
  simp only [hruns]
  constructor
  · intro hfair k hbefore hothers
    by_contra hmany
    -- The value for message `k` is taken for a later one, so let the two differ.
    let value : Nat → Int32 := fun i => if i = k then 1 else -1
    have hsame := hfair value _ (Nat.lt_of_not_le hmany) _ (Daemon.taken_late hbefore)
    have hpos : 0 < (others k).length := List.length_pos_iff.2 hothers
    have hearlier : value k = 1 := if_pos rfl
    have hown : value (k + (others k).length) = -1 := if_neg (by omega)
    simp only [hearlier, hown] at hsame
    exact absurd hsame (by decide)
  · intro hcount value j hj
    by_cases hplain : ∀ i ≤ j, others i = []
    · exact Daemon.fair_of_plain hplain
    · push Not at hplain
      obtain ⟨k, ⟨hk, hothers⟩, hfirst⟩ := exists_first hplain
      have hbefore : ∀ i < k, others i = [] := fun i hi => by
        by_contra hne
        exact hfirst i hi ⟨by omega, hne⟩
      exact Daemon.fair_of_within hbefore hk (Nat.lt_of_lt_of_le hj (hcount k hbefore hothers))

/-- Accepts the first message, but sends a result block before saying so, and refuses all others. -/
def Daemon.tardy : Daemon where
  others k := if k = 0 then [⟨_, stray_result (Vector.replicate 1024 1)⟩] else []
  value k := if k = 0 then 1 else -1

/-- After a result block the return values are read one message late: a deletion that the daemon
refused is reported as done. -/
theorem verdict_of_earlier_message :
    Daemon.tardy.run 0 []
        [.insert 3 (Vector.replicate 1024 5), .delete 3 (Vector.replicate 1024 5)] =
      [(.error (.unreachable "unexpected result block"), some 1), (.ok (), some (-1))] ∧
    ¬ ∀ (d : Daemon) (ms : List ClientMessage), ∀ o ∈ d.run 0 [] ms, Daemon.Own o := by
  have hinsert : (ClientMessage.insert 3 (Vector.replicate 1024 5)).encode = .ok _ := rfl
  have hdelete : (ClientMessage.delete 3 (Vector.replicate 1024 5)).encode = .ok _ := rfl
  have hfirst : [] ++ (Daemon.tardy.answer 0).flatMap Reply.bytes =
      (DaemonMessage.result (Vector.replicate 1024 1)).encode ++
        (DaemonMessage.returnValue 1).encode := by
    simp [Daemon.tardy, Daemon.answer, Reply.bytes]
  have hsecond : (Daemon.tardy.answer 1).flatMap Reply.bytes =
      (DaemonMessage.returnValue (-1)).encode := by
    simp [Daemon.tardy, Daemon.answer, Reply.bytes]
  have hrun : Daemon.tardy.run 0 []
        [.insert 3 (Vector.replicate 1024 5), .delete 3 (Vector.replicate 1024 5)] =
      [(.error (.unreachable "unexpected result block"), some 1), (.ok (), some (-1))] := by
    simp only [Daemon.run, hinsert, hdelete, hfirst, hsecond, submit_result hinsert, submit_value hdelete]
    rfl
  refine ⟨hrun, fun hall => ?_⟩
  have hown := hall Daemon.tardy _ (.ok (), some (-1)) (hrun ▸ List.mem_cons_of_mem _ List.mem_cons_self)
  obtain ⟨v, hv, hverdict⟩ := hown (.inl rfl)
  obtain rfl : -1 = v := Option.some.inj hv
  exact absurd hverdict (by decide)

end StreamSink

end ContentTree

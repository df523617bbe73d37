import ContentTree.Proofs.Transfer.Runs
import ContentTree.Proofs.Tree.Book
import ContentTree.Proofs.Tree.Operations
import ContentTree.Random.ChaCha

/-!
# The table mirrors the tree

Between two events the requests of the table are those that the tree has asked for: one for a pending
root, one for each node whose children are waited for, and no other.
-/

namespace ContentTree

namespace Transfer

variable {ρ : Type} {env : Download.Env} {x x' : Transfer ρ} {f : FileIdentifier}

/-- The table holds what the tree asks for, and the tree is between two operations. -/
structure InStep (x : Transfer ρ) : Prop where
  idle : Download.Idle x.download.tree
  calls : x.download.calls = #[]
  holds : RequestTable.Holds x.table.questions (Download.book x.download.tree)

theorem InStep.of_table (h : InStep x) {t : RequestTable ρ}
    (ht : t.questions = x.table.questions) : InStep { x with table := t } where
  idle := h.idle
  calls := h.calls
  holds := by
    change RequestTable.Holds t.questions _
    rw [ht]
    exact h.holds

theorem InStep.of_moves {st : Download.State} (calls : List SchedulerCall)
    (hcalls : x.download.calls = #[])
    (hholds : RequestTable.Holds x.table.questions (Download.book x.download.tree))
    (hmoved : st.calls = x.download.calls ++ calls.toArray)
    (hleads : (Download.book x.download.tree).Leads calls (Download.book st.tree))
    (hidle : Download.Idle st.tree) :
    InStep ⟨{ st with calls := #[] }, st.calls.foldl RequestTable.call x.table⟩ where
  idle := hidle
  calls := rfl
  holds := by
    have hlist : st.calls.foldl RequestTable.call x.table = calls.foldl RequestTable.call x.table := by
      rw [hmoved, hcalls, Array.empty_append, List.foldl_toArray]
    change RequestTable.Holds (RequestTable.questions (st.calls.foldl RequestTable.call x.table)) _
    rw [hlist]
    exact hholds.calls hleads

theorem InStep.start (hfresh : Fresh f x) (hok : (x.perform (Download.start env 0)).1 = .ok ()) :
    InStep (x.perform (Download.start env 0)).2 := by
  have hunstarted : Download.Unstarted x.download.tree := by
    rw [hfresh.tree]
    exact Download.unstarted_forDownload f
  -- Nothing is asked for a root that is still to be started.
  have hholds : RequestTable.Holds x.table.questions (Download.book x.download.tree) := by
    have hnothing : Download.book x.download.tree = fun _ => none := by
      funext k
      cases hn : x.download.tree.get? k with
      | none => exact Download.book_of_get?_eq_none hn
      | some n =>
        rw [Download.book_of_get? hn]
        rw [hfresh.tree] at hn
        obtain ⟨-, rfl⟩ := Download.eq_firstNode hn
        exact Download.question?_eq_none (by simp) (by simp)
    rw [hnothing, RequestTable.questions, hfresh.requests]
    exact ⟨List.nodup_nil, by simp⟩
  revert hok
  refine perform_of_ends (motive := fun r => r.1 = .ok () → InStep r.2)
    (Download.ends_start hunstarted) ?_ fun e st _ hok => ?_
  · rintro _ st ⟨hmoves, hidle⟩ -
    obtain ⟨calls, hmoved, hleads⟩ := hunstarted.good.leads_moves hmoves
    exact .of_moves calls hfresh.calls hholds hmoved hleads hidle
  · cases hok

theorem InStep.receive (h : InStep x) (node : NodeId) (handler : ReplyHandler) (query : Digest)
    (reply : Block) (hok : (x.perform (Download.receive env node handler query reply)).1 = .ok ()) :
    InStep (x.perform (Download.receive env node handler query reply)).2 := by
  revert hok
  refine perform_of_ends (motive := fun r => r.1 = .ok () → InStep r.2)
    (Download.ends_receive h.idle) ?_ fun e st _ hok => ?_
  · rintro _ st (⟨rfl, -⟩ | ⟨k, n, -, -, -, ⟨mid, -, -, -, -, hmove, -, hmoves, -, -⟩, hidle⟩) -
    · exact .of_moves [] h.calls h.holds (by simp) rfl h.idle
    · obtain ⟨calls, hmoved, hleads⟩ := h.idle.good.leads hmove
      obtain ⟨more, hmore, hlast⟩ := (h.idle.good.move hmove).leads_moves hmoves
      refine .of_moves (calls ++ more) h.calls h.holds ?_ (hleads.trans hlast) hidle
      rw [hmore, hmoved]
      simp
  · cases hok

theorem InStep.copyStats (h : InStep x) : InStep x.copyStats where
  idle := h.idle
  calls := h.calls
  holds := h.holds

theorem InStep.deliver (h : InStep x) {reply : Block}
    (hok : ((x.deliver env reply).1.map Delivery.result).getD (.ok ()) = .ok ()) :
    InStep (x.deliver env reply).2 := by
  have hmatched : InStep { x with table := (x.table.matchReply env.suite reply).2 } :=
    h.of_table (RequestTable.questions_matchReply env.suite x.table reply)
  unfold Transfer.deliver at hok ⊢
  rcases hmatch : x.table.matchReply env.suite reply with ⟨_ | ⟨node, handler, query⟩, table⟩
  · rw [hmatch] at hmatched
    exact hmatched
  · rw [hmatch] at hmatched
    simp only [hmatch] at hok ⊢
    have hreceived := @InStep.receive _ env _ hmatched.copyStats node handler query reply
    revert hok hreceived
    rcases Transfer.perform _ _ with ⟨_ | _, y⟩ <;> intro hok hreceived
    · cases hok
    · exact hreceived rfl

/-- How the requests of a table and the nodes of a tree go together. -/
structure Mirrors (es : List Request) (t : Tree) : Prop where
  /-- A node has at most one request. -/
  nodup : (es.map Request.node).Nodup
  contains : ∀ e ∈ es, t.contains e.node
  /-- The root has a request for its own block just as long as it is pending. -/
  own_iff : ∀ id, (∃ e ∈ es, e.node = id ∧ e.handler = .own) ↔
    t.root = some id ∧ ∃ n, t.get? id = some n ∧ n.status = .pending
  own : ∀ e ∈ es, e.handler = .own → ∃ n, t.get? e.node = some n ∧ e.query.hashes = [n.chk.query]
  children_iff : ∀ id, (∃ e ∈ es, e.node = id ∧ e.handler = .children) ↔
    ∃ n, t.get? id = some n ∧ n.status = .superqueryPending
  /-- Such a request asks for the pending children, slot by slot. -/
  children : ∀ e ∈ es, e.handler = .children → ∃ n i table, t.get? e.node = some n ∧
    n.inner? = some i ∧ i.table = some table ∧
    e.query.hashes = table.superHash :: (List.range i.childCount).filterMap fun j =>
      ((n.child? j).bind t.get?).bind fun b =>
        if b.status = .pending then some b.chk.query else none
  /-- A node below the root is pending only while its parent asks for it. -/
  parent : ∀ id n p, t.get? id = some n → n.status = .pending → n.parent = some p →
    ∃ m, t.get? p = some m ∧ m.status = .superqueryPending

theorem InStep.mem_iff (h : InStep x) {id : Nat} {q : Question} :
    (∃ e ∈ x.table.requests, e.node = id ∧ (e.handler, e.query.hashes) = q) ↔
      ∃ n, x.download.tree.get? id = some n ∧ Download.question? x.download.tree n = some q := by
  have hmem := h.holds.mem_iff id q
  rw [Download.book, Option.bind_eq_some_iff] at hmem
  rw [← hmem, RequestTable.questions, List.mem_map]
  simp only [RequestTable.asked, Prod.mk.injEq]

theorem InStep.mirrors (h : InStep x) : Mirrors x.table.requests x.download.tree := by
  have hquestion : ∀ e ∈ x.table.requests, ∃ n, x.download.tree.get? e.node = some n ∧
      Download.question? x.download.tree n = some (e.handler, e.query.hashes) :=
    fun e he => h.mem_iff.1 ⟨e, he, rfl, rfl⟩
  constructor
  case nodup =>
    have hnodup := h.holds.nodup
    rwa [RequestTable.questions, List.map_map] at hnodup
  case contains =>
    intro e he
    obtain ⟨n, hn, -⟩ := hquestion e he
    simp [Tree.contains, hn]
  case own_iff =>
    intro id
    constructor
    · rintro ⟨e, he, rfl, hhandler⟩
      obtain ⟨n, hn, hq⟩ := hquestion e he
      rw [hhandler] at hq
      obtain ⟨hstatus, hparent, -⟩ := Download.question?_eq_own.1 hq
      exact ⟨(h.idle.good.sound.root_iff hn).1 hparent, n, hn, hstatus⟩
    · rintro ⟨hroot, n, hn, hstatus⟩
      have hparent := (h.idle.good.sound.root_iff hn).2 hroot
      obtain ⟨e, he, hnode, hq⟩ :=
        h.mem_iff.2 ⟨n, hn, Download.question?_waiting hstatus hparent⟩
      exact ⟨e, he, hnode, congrArg Prod.fst hq⟩
  case own =>
    intro e he hhandler
    obtain ⟨n, hn, hq⟩ := hquestion e he
    rw [hhandler] at hq
    exact ⟨n, hn, (Download.question?_eq_own.1 hq).2.2⟩
  case children_iff =>
    intro id
    constructor
    · rintro ⟨e, he, rfl, hhandler⟩
      obtain ⟨n, hn, hq⟩ := hquestion e he
      rw [hhandler] at hq
      exact ⟨n, hn, (Download.question?_eq_children.1 hq).1⟩
    · rintro ⟨n, hn, hstatus⟩
      obtain ⟨e, he, hnode, hq⟩ := h.mem_iff.2 ⟨n, hn, Download.question?_asking hstatus⟩
      exact ⟨e, he, hnode, congrArg Prod.fst hq⟩
  case children =>
    intro e he hhandler
    obtain ⟨n, hn, hq⟩ := hquestion e he
    rw [hhandler] at hq
    obtain ⟨hstatus, hhashes⟩ := Download.question?_eq_children.1 hq
    obtain ⟨i, table, hi, htable⟩ := (h.idle.good.staged.fits hn).exists_table hstatus
    refine ⟨n, i, table, hn, hi, htable, ?_⟩
    rw [hhashes, Download.pendingQueries_eq_range (h.idle.good.sound.shaped hn),
      Node.childCount_of_inner hi]
    simp [Node.superHash, hi, htable]
  case parent =>
    intro id n p hn hstatus hp
    obtain ⟨m, -, hm, -⟩ := h.idle.good.sound.up hn hp
    refine ⟨m, hm, ?_⟩
    exact (h.idle.good.staged.pending hn hstatus hp hm).resolve_left (h.idle.persistent hm)

/-! ### Runs -/

variable [RandomSource ρ]

theorem InStep.handle (h : InStep x) {e : Event} (hok : (x.handle env e).1 = .ok ()) :
    InStep (x.handle env e).2 := by
  cases e with
  | receive node handler query reply => exact h.receive node handler query reply hok
  | deliver reply => exact h.deliver hok
  | pass accepts => exact h.of_table (RequestTable.questions_schedule accepts x.table)
  | returnValue value => exact h.of_table (RequestTable.questions_settleOldest x.table _)
  | sendFailed => exact h.of_table (RequestTable.questions_settleOldest x.table _)
  | tick now => exact h.of_table rfl
  | observe average => exact h.of_table rfl
  | record kind bytes peers => exact h.of_table rfl

theorem Reachable.inStep {kind : Event → Prop} (hfresh : Fresh f x)
    (h : Reachable env kind x x') : InStep x' := by
  induction h with
  | start hok => exact .start hfresh hok
  | step _ _ hok ih => exact ih.handle hok

/-- In every state of a run that has not failed, the table mirrors the tree. -/
theorem mirrors_of_reachable {kind : Event → Prop} (hfresh : Fresh f x)
    (h : Reachable env kind x x') : Mirrors x'.table.requests x'.download.tree :=
  (h.inStep hfresh).mirrors

/-- A transfer of a file of two leaves, all zero, to empty files. -/
def twoLeaves : Transfer ChaCha where
  download := ⟨Tree.forDownload ⟨.zero, 0, 1025⟩, ⟨#[.empty, .empty], #[], 0⟩, .new 1025, #[]⟩
  table := .new .default ⟨[], 0⟩ .open 0

def twoLevels : Download.Env where
  suite := .plain
  storage := ⟨"file", 1025, 1, [some (.file 0 true), some (.file 1 true)]⟩
  topCrc := none

set_option maxRecDepth 4096 in
/-- Once the root's block has been delivered, one request asks for both leaves. -/
theorem mirrors_of_root_delivered :
    let begun := (twoLeaves.perform (Download.start twoLevels 0)).2
    let unfolded := (begun.handle twoLevels (.deliver zeroBlock)).2
    unfolded.table.requests.map (fun e => (e.node, e.query.hashes.length)) = [(0, 3)] ∧
      Mirrors unfolded.table.requests unfolded.download.tree := by
  refine ⟨rfl, ?_⟩
  have hfresh : Fresh ⟨.zero, 0, 1025⟩ twoLeaves := ⟨rfl, rfl, rfl⟩
  have hbegun : Reachable twoLevels (fun _ => True) twoLeaves
    (twoLeaves.perform (Download.start twoLevels 0)).2 := .start rfl
  exact mirrors_of_reachable hfresh (hbegun.step trivial rfl)

end Transfer

end ContentTree

import ContentTree.Proofs.Requests.Visits

/-!
# All that can be asked of a table

A run is a sequence of operations: the events of a transfer, the question whether a request was
queued, and forgetting everything. Its course holds each operation with the table that it finds.
-/

namespace ContentTree

namespace RequestTable

inductive Operation
  | event (e : Event)
  /-- Asks whether a request was queued. -/
  | takeWake
  /-- Forgets requests and sends. -/
  | clear

variable {ρ : Type} [RandomSource ρ]

def perform (t : RequestTable ρ) : Operation → RequestTable ρ
  | .event e => t.handle e
  | .takeWake => t.takeWake.2
  | .clear => t.clear

def after (t : RequestTable ρ) (ops : List Operation) : RequestTable ρ := ops.foldl perform t

/-- The operations of a run, each with the table that it finds. -/
def course : RequestTable ρ → List Operation → List (RequestTable ρ × Operation)
  | _, [] => []
  | t, op :: ops => (t, op) :: course (t.perform op) ops

/-- The visits of an operation; only passes make any. -/
def visitsBy (t : RequestTable ρ) : Operation → List Visit
  | .event (.pass accepts) => t.visits accepts
  | _ => []

end RequestTable

namespace Register

variable {ρ : Type} [RandomSource ρ]

open RequestTable

/-- Sends that are forgotten get no verdict any more. -/
def perform (x : Register ρ) : Operation → Register ρ
  | .event e => x.step e
  | .takeWake => { x with table := x.table.takeWake.2 }
  | .clear => { x with table := x.table.clear, waiting := [], consumed := x.accepted }

def after (x : Register ρ) (ops : List Operation) : Register ρ := ops.foldl perform x

def course : Register ρ → List Operation → List (Register ρ × Operation)
  | _, [] => []
  | x, op :: ops => (x, op) :: course (x.perform op) ops

def Permits (x : Register ρ) : Operation → Prop
  | .event e => x.Admits e
  | .takeWake | .clear => True

instance (x : Register ρ) : (op : Operation) → Decidable (x.Permits op)
  | .event e => inferInstanceAs (Decidable (x.Admits e))
  | .takeWake | .clear => inferInstanceAs (Decidable True)

/-- No node asks anew while its request is outstanding. -/
def Proper (x : Register ρ) : List Operation → Prop
  | [] => True
  | op :: ops => x.Permits op ∧ (x.perform op).Proper ops

instance decidableProper (x : Register ρ) : (ops : List Operation) → Decidable (x.Proper ops)
  | [] => inferInstanceAs (Decidable True)
  | op :: ops =>
    have := decidableProper (x.perform op) ops
    inferInstanceAs (Decidable (x.Permits op ∧ (x.perform op).Proper ops))

theorem table_perform (x : Register ρ) (op : Operation) :
    (x.perform op).table = x.table.perform op := by
  cases op <;> rfl

theorem table_after (x : Register ρ) (ops : List Operation) :
    (x.after ops).table = x.table.after ops := by
  induction ops generalizing x with
  | nil => rfl
  | cons op ops ih =>
    change ((x.perform op).after ops).table = (x.table.perform op).after ops
    rw [ih, table_perform]

theorem Traced.perform {x : Register ρ} (hx : x.Traced) {op : Operation} (hop : x.Permits op) :
    (x.perform op).Traced := by
  cases op with
  | event e => exact hx.step hop
  | takeWake => exact hx.idle rfl rfl
  | clear => exact ⟨List.nodup_nil, nofun, nofun, .nil, Nat.zero_add _⟩

/-- What a run keeps apart is kept apart at each of its operations. -/
theorem Traced.course {x : Register ρ} (hx : x.Traced) {ops : List Operation}
    (hproper : x.Proper ops) : ∀ s ∈ x.course ops, s.1.Traced := by
  induction ops generalizing x with
  | nil => exact List.forall_mem_nil _
  | cons op ops ih =>
    rw [Register.course, List.forall_mem_cons]
    exact ⟨hx, ih (hx.perform hproper.1) hproper.2⟩

end Register

end ContentTree

import Mathlib.Data.List.Forall2
import ContentTree.Proofs.Toml.Statement

/-!
# Sections are read back

The text of sections whose names and keys need no quotes and do not repeat describes the table of
the sections, and there is such a text as soon as each of the values has one.
-/

namespace ContentTree.Toml

variable {key name : String} {v w : Value} {es bs : List (String × Value)} {origin : Origin}
  {here : List String}

theorem mapM_eq_some_iff {α β : Type} {f : α → Option β} {xs : List α} {ys : List β} :
    xs.mapM f = some ys ↔ List.Forall₂ (fun x y => f x = some y) xs ys := by
  induction xs generalizing ys with
  | nil => simp [List.forall₂_nil_left_iff, eq_comm]
  | cons x xs ih =>
    rw [List.mapM_cons]
    cases ys with
    | nil =>
      rcases hx : f x with _ | y <;> rcases hxs : xs.mapM f with _ | rest <;>
        simp [List.forall₂_nil_right_iff]
    | cons y ys =>
      rw [List.forall₂_cons, ← ih]
      rcases hx : f x with _ | first <;> rcases hxs : xs.mapM f with _ | rest <;> simp

theorem exists_mapM_eq_some_iff {α β : Type} {f : α → Option β} {xs : List α} :
    (∃ ys, xs.mapM f = some ys) ↔ ∀ x ∈ xs, ∃ y, f x = some y := by
  induction xs with
  | nil => simp
  | cons x xs ih =>
    rw [List.forall_mem_cons, ← ih, List.mapM_cons]
    rcases hx : f x with _ | first <;> rcases hxs : xs.mapM f with _ | rest <;> simp

/-! ### Tables that grow at their end -/

namespace Table

theorem putEntry_of_not_mem (h : key ∉ es.map Prod.fst) :
    putEntry key v es = es ++ [(key, v)] := by
  induction es with
  | nil => rfl
  | cons e es ih =>
    rw [List.map_cons, List.mem_cons, not_or] at h
    rw [putEntry, if_neg (Ne.symm h.1), ih h.2]
    rfl

theorem putEntry_last (h : key ∉ es.map Prod.fst) :
    putEntry key v (es ++ [(key, w)]) = es ++ [(key, v)] := by
  induction es with
  | nil => exact if_pos rfl
  | cons e es ih =>
    rw [List.map_cons, List.mem_cons, not_or] at h
    rw [List.cons_append, putEntry, if_neg (Ne.symm h.1), ih h.2]
    rfl

theorem lookup_eq_none (h : key ∉ es.map Prod.fst) : es.lookup key = none := by
  rw [List.lookup_eq_none_iff]
  intro e he
  simp only [bne_iff_ne]
  rintro rfl
  exact h (List.mem_map_of_mem he)

theorem get?_last (h : key ∉ es.map Prod.fst) :
    (mk origin (es ++ [(key, w)])).get? key = some w := by
  simp [get?, entries, List.lookup_append, lookup_eq_none h]

end Table

namespace Draft

theorem add_header (h : name ∉ es.map Prod.fst) :
    add ⟨.mk .header es, here⟩ (.header ([], name)) =
      some ⟨.mk .header (es ++ [(name, .table (.empty .header))]), [name]⟩ := by
  have hget : (Table.mk .header es).get? name = none := Table.lookup_eq_none h
  simp [add, Table.openHeader, Table.alter, hget, Table.put, Table.origin, Table.entries,
    Table.putEntry_of_not_mem h]

theorem add_binding (hname : name ∉ es.map Prod.fst) (hkey : key ∉ bs.map Prod.fst) :
    add ⟨.mk .header (es ++ [(name, .table (.mk .header bs))]), [name]⟩ (.binding ([], key) v) =
      some ⟨.mk .header (es ++ [(name, .table (.mk .header (bs ++ [(key, v)])))]), [name]⟩ := by
  have hget : (Table.mk .header bs).get? key = none := Table.lookup_eq_none hkey
  simp [add, Table.bind, Table.alter, Table.get?_last hname, hget, Table.put, Table.origin,
    Table.entries, Table.putEntry_last hname, Table.putEntry_of_not_mem hkey]

end Draft

/-! ### Sections -/

namespace Section

variable {s : Section}

/-- Sections that the written text gives back: names and keys need no quotes, and no key repeats. -/
structure Plain (s : Section) : Prop where
  name : Bare s.name
  keys : ∀ b ∈ s.bindings, Bare b.1
  nodup : (s.bindings.map Prod.fst).Nodup

def statements (s : Section) : List Statement :=
  .header ([], s.name) :: s.bindings.map fun b => .binding ([], b.1) b.2

/-- What a section is in the table of its text. -/
def entry (s : Section) : String × Value := (s.name, .table (.mk .header s.bindings))

theorem foldlM_bindings (hname : name ∉ es.map Prod.fst) (before bs : List (String × Value))
    (hkeys : ((before ++ bs).map Prod.fst).Nodup) :
    (bs.map fun b => Statement.binding ([], b.1) b.2).foldlM Draft.add
        ⟨.mk .header (es ++ [(name, .table (.mk .header before))]), [name]⟩ =
      some ⟨.mk .header (es ++ [(name, .table (.mk .header (before ++ bs)))]), [name]⟩ := by
  induction bs generalizing before with
  | nil => simp
  | cons b bs ih =>
    have hkey : b.1 ∉ before.map Prod.fst := by
      intro hmem
      rw [List.map_append, List.map_cons, List.nodup_append] at hkeys
      exact hkeys.2.2 _ hmem _ List.mem_cons_self rfl
    have hnext := ih (before ++ [b]) (by simpa using hkeys)
    rw [List.map_cons, List.foldlM_cons, Draft.add_binding hname hkey]
    simpa using hnext

theorem Plain.foldlM (h : s.Plain) (hname : s.name ∉ es.map Prod.fst) :
    s.statements.foldlM Draft.add ⟨.mk .header es, here⟩ =
      some ⟨.mk .header (es ++ [s.entry]), [s.name]⟩ := by
  have hbindings := foldlM_bindings hname [] s.bindings h.nodup
  rw [statements, List.foldlM_cons, Draft.add_header hname]
  exact hbindings

theorem reads_bindings (hkeys : ∀ b ∈ bs, Bare b.1) {lines : List String}
    (hlines : List.Forall₂ (fun b line => renderBinding? b = some line) bs lines) {cs : List Char}
    {tail : List Statement} (h : Reads cs tail) :
    Reads ((String.join lines).toList ++ cs)
      ((bs.map fun b => Statement.binding ([], b.1) b.2) ++ tail) := by
  induction hlines with
  | nil => exact h
  | cons hb hbs ih =>
    rw [List.forall_mem_cons] at hkeys
    rw [renderBinding?, Option.map_eq_some_iff] at hb
    obtain ⟨text, hvalue, rfl⟩ := hb
    have hline := (line_binding hkeys.1 hvalue).reads (ih hkeys.2)
    rw [String.join_cons]
    simpa [toString] using hline

theorem render?_eq_some {text : String} : s.render? = some text ↔ ∃ lines,
    List.Forall₂ (fun b line => renderBinding? b = some line) s.bindings lines ∧
      "[" ++ s.name ++ "]\n" ++ String.join lines = text := by
  simp only [← mapM_eq_some_iff]
  unfold render?
  rcases hlines : s.bindings.mapM renderBinding? with _ | lines
  · simp
  · simp [toString]

theorem Plain.reads (h : s.Plain) {text : String} (htext : s.render? = some text) {cs : List Char}
    {tail : List Statement} (htail : Reads cs tail) :
    Reads (text.toList ++ cs) (s.statements ++ tail) := by
  obtain ⟨lines, hlines, rfl⟩ := render?_eq_some.1 htext
  have hheader := (line_header h.name).reads (reads_bindings h.keys hlines htail)
  simpa [statements] using hheader

end Section

/-! ### Texts -/

variable {ss : List Section} {text : String}

/-- Plain sections of different names. -/
structure Plain (ss : List Section) : Prop where
  sections : ∀ s ∈ ss, s.Plain
  nodup : (ss.map Section.name).Nodup

theorem foldlM_statements (hplain : ∀ s ∈ ss, s.Plain)
    (hnames : (es.map Prod.fst ++ ss.map Section.name).Nodup) :
    ∃ last, (ss.flatMap Section.statements).foldlM Draft.add ⟨.mk .header es, here⟩ =
      some ⟨.mk .header (es ++ ss.map Section.entry), last⟩ := by
  induction ss generalizing es here with
  | nil => exact ⟨here, by simp⟩
  | cons s ss ih =>
    rw [List.forall_mem_cons] at hplain
    have hname : s.name ∉ es.map Prod.fst := by
      intro hmem
      rw [List.map_cons, List.nodup_append] at hnames
      exact hnames.2.2 _ hmem _ List.mem_cons_self rfl
    obtain ⟨last, hlast⟩ := @ih (es ++ [s.entry]) [s.name] hplain.2
      (by simpa [Section.entry] using hnames)
    refine ⟨last, ?_⟩
    rw [List.flatMap_cons, List.foldlM_append, hplain.1.foldlM hname]
    simpa using hlast

theorem render?_eq_some : render? ss = some text ↔ ∃ texts,
    List.Forall₂ (fun s text => Section.render? s = some text) ss texts ∧
      "\n".intercalate texts = text := by
  simp only [← mapM_eq_some_iff]
  unfold render?
  rcases htexts : ss.mapM Section.render? with _ | texts <;> simp

theorem reads_intercalate (hplain : ∀ s ∈ ss, s.Plain) {texts : List String}
    (htexts : List.Forall₂ (fun s text => Section.render? s = some text) ss texts) :
    Reads ("\n".intercalate texts).toList (ss.flatMap Section.statements) := by
  induction htexts with
  | nil => exact reads_nil
  | @cons s first ss rest hfirst hrest ih =>
    rw [List.forall_mem_cons] at hplain
    have htail := ih hplain.2
    cases hrest with
    | nil => simpa using hplain.1.reads hfirst reads_nil
    | cons hsecond hrest =>
      have hboth := hplain.1.reads hfirst htail.empty
      rw [String.intercalate_cons_cons]
      simpa using hboth

/-- The text starts with a bracket, if at all. -/
theorem head?_intercalate {texts : List String}
    (htexts : List.Forall₂ (fun s text => Section.render? s = some text) ss texts) :
    ("\n".intercalate texts).toList.head? ≠ some '\ufeff' := by
  cases htexts with
  | nil => simp
  | @cons s first ss rest hfirst hrest =>
    obtain ⟨lines, -, rfl⟩ := Section.render?_eq_some.1 hfirst
    cases rest with
    | nil => simp
    | cons second rest => simp [String.intercalate_cons_cons]

/-- The text of plain sections describes the table that holds them. -/
theorem Plain.parse? (hplain : Plain ss) (h : render? ss = some text) :
    Toml.parse? text = some (.mk .header (ss.map Section.entry)) := by
  obtain ⟨texts, htexts, rfl⟩ := render?_eq_some.1 h
  have hread := readAll_of_reads (reads_intercalate hplain.sections htexts)
    (head?_intercalate htexts)
  obtain ⟨last, hfold⟩ :=
    @foldlM_statements [] [] ss hplain.sections (by simpa using hplain.nodup)
  rw [Toml.parse?, hread]
  simp only [Option.bind_eq_bind, Option.bind_some]
  rw [Draft.empty, Table.empty, hfold]
  rfl

/-- There is a text if every value has one. -/
theorem exists_render?_iff : (∃ text, render? ss = some text) ↔
    ∀ s ∈ ss, ∀ b ∈ s.bindings, ∃ text, b.2.render? = some text := by
  have hsection : ∀ s : Section, (∃ text, s.render? = some text) ↔
      ∀ b ∈ s.bindings, ∃ text, b.2.render? = some text := by
    intro s
    have hlines := @exists_mapM_eq_some_iff _ _ renderBinding? s.bindings
    simp only [Section.render?_eq_some, exists_comm (α := String), ← mapM_eq_some_iff]
    simpa [renderBinding?] using hlines
  have htexts := @exists_mapM_eq_some_iff _ _ Section.render? ss
  simp only [render?_eq_some, ← mapM_eq_some_iff]
  simpa [hsection] using htexts

end ContentTree.Toml

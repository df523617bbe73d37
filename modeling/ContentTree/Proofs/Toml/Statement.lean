import ContentTree.Proofs.Toml.Number
import ContentTree.Toml.Document

/-!
# Lines are read back

A written value with the end of its line behind it is read as that value, and so is the line of a
header or of a binding whose key needs no quotes.
-/

namespace ContentTree.Toml

variable {c : Char} {cs rest : List Char} {name : String} {v : Value} {text : String}

/-! ### Values -/

theorem expectWord_of_ne {d : Char} (h : c ≠ d) (word : List Char) :
    expectWord (d :: word) (c :: cs) = none := by
  rw [expectWord, expect, if_neg h, Option.bind_none]

theorem Quoted.read_of_ne (hdouble : c ≠ '"') (hsingle : c ≠ '\'') :
    Quoted.read (c :: cs) = none := by
  have hline : Quoted.readLine (c :: cs) = none := by
    unfold Quoted.readLine
    split <;> simp_all
  simp only [Quoted.read, expectWord_of_ne hdouble, expectWord_of_ne hsingle, hline]

/-- Only brackets and braces hold other values. -/
theorem value_eq_scalar (hbracket : c ≠ '[') (hbrace : c ≠ '\x7b') :
    value (c :: cs) = valueUpTo.scalar (c :: cs) := by
  unfold value depthLimit valueUpTo
  split <;> simp_all

theorem value_string (s : String) (rest : List Char) :
    value (Quoted.render s.toList ++ '\n' :: rest) = some (.string s, '\n' :: rest) := by
  have hread := @Quoted.read_render ('\n' :: rest) s.toList (by simp) (by simp)
  obtain ⟨quote, tail, htext, hquote⟩ := Quoted.render_eq_cons s.toList
  rw [htext, List.cons_append] at hread ⊢
  have hother : quote ≠ '[' ∧ quote ≠ '\x7b' := by
    rcases hquote with rfl | rfl <;> decide
  rw [value_eq_scalar hother.1 hother.2, valueUpTo.scalar]
  simp only [hread, String.ofList_toList]

theorem value_integer {i : Int} (h : inRange i = true) (rest : List Char) :
    value ((toString i).toList ++ '\n' :: rest) = some (.integer i, '\n' :: rest) := by
  have hnumber := number_toString h rest
  obtain ⟨d, tail, htext, hfirst⟩ := decimalText_eq_cons i
  rw [toList_toString, htext, List.cons_append] at hnumber ⊢
  have hne : ∀ e : Char, e.isDigit = false → e ≠ '-' → d ≠ e := by
    intro e hdigit hminus
    rcases hfirst with ⟨rfl, -⟩ | ⟨hd, -⟩
    · exact Ne.symm hminus
    · exact ne_of_test hd hdigit
  rw [value_eq_scalar (hne _ (by decide) (by decide)) (hne _ (by decide) (by decide)),
    valueUpTo.scalar,
    Quoted.read_of_ne (hne _ (by decide) (by decide)) (hne _ (by decide) (by decide)),
    expectWord_of_ne (hne _ (by decide) (by decide)),
    expectWord_of_ne (hne _ (by decide) (by decide))]
  exact hnumber

theorem value_boolean (b : Bool) (rest : List Char) :
    value ((if b then "true" else "false").toList ++ '\n' :: rest) =
      some (.boolean b, '\n' :: rest) := by
  cases b <;> rfl

theorem value_of_render? (h : v.render? = some text) (rest : List Char) :
    value (text.toList ++ '\n' :: rest) = some (v, '\n' :: rest) := by
  unfold Value.render? at h
  split at h
  · cases h
    rw [String.toList_ofList]
    exact value_string _ rest
  · split at h
    · rename_i hrange
      cases h
      exact value_integer hrange rest
    · cases h
  · cases h
    exact value_boolean _ rest
  · cases h

theorem skipBlanks_cons (h : isBlank c = false) : skipBlanks (c :: cs) = c :: cs :=
  List.dropWhile_cons_of_neg (by simp [h])

theorem skipBlanks_of_render? (h : v.render? = some text) (rest : List Char) :
    skipBlanks (text.toList ++ rest) = text.toList ++ rest := by
  have hfirst : ∃ c cs, text.toList = c :: cs ∧ isBlank c = false := by
    unfold Value.render? at h
    split at h
    · rename_i s
      cases h
      obtain ⟨quote, tail, htext, hquote⟩ := Quoted.render_eq_cons s.toList
      rw [String.toList_ofList]
      exact ⟨quote, tail, htext, by rcases hquote with rfl | rfl <;> rfl⟩
    · rename_i i
      split at h
      · cases h
        obtain ⟨d, tail, htext, hfirst⟩ := decimalText_eq_cons i
        rw [toList_toString]
        refine ⟨d, tail, htext, ?_⟩
        rw [isBlank, decide_eq_false_iff_not]
        rintro (rfl | rfl)
        · simp at hfirst
        · simp at hfirst
      · cases h
    · rename_i b
      cases h
      cases b
      · exact ⟨'f', _, rfl, rfl⟩
      · exact ⟨'t', _, rfl, rfl⟩
    · cases h
  obtain ⟨c, cs, htext, hblank⟩ := hfirst
  rw [htext, List.cons_append, skipBlanks_cons hblank]

/-! ### Keys -/

/-- Keys that need no quotes. -/
structure Bare (name : String) : Prop where
  nonempty : name.toList ≠ []
  isBare : ∀ c ∈ name.toList, isBare c = true

instance : Decidable (Bare name) :=
  decidable_of_iff (name.toList ≠ [] ∧ name.toList.all isBare = true)
    ⟨fun h => ⟨h.1, List.all_eq_true.1 h.2⟩, fun h => ⟨h.1, List.all_eq_true.2 h.2⟩⟩

theorem keyPart_bare (h : Bare name) (hc : isBare c = false) (cs : List Char) :
    keyPart (name.toList ++ c :: cs) = some (name, c :: cs) := by
  have hbare := h.isBare
  have hend : (c :: cs).takeWhile isBare = [] ∧ (c :: cs).dropWhile isBare = c :: cs :=
    ⟨List.takeWhile_cons_of_neg (by simp [hc]), List.dropWhile_cons_of_neg (by simp [hc])⟩
  have htake : (name.toList ++ c :: cs).takeWhile isBare = name.toList := by
    rw [List.takeWhile_append_of_pos hbare, hend.1, List.append_nil]
  have hdrop : (name.toList ++ c :: cs).dropWhile isBare = c :: cs := by
    rw [List.dropWhile_append_of_pos hbare, hend.2]
  have hline : Quoted.readLine (name.toList ++ c :: cs) = none := by
    cases hname : name.toList with
    | nil => exact absurd hname h.nonempty
    | cons d tail =>
      have hd : isBare d = true := hbare d (hname ▸ List.mem_cons_self)
      have hdouble := ne_of_test hd (show isBare '"' = false by decide)
      have hsingle := ne_of_test hd (show isBare '\'' = false by decide)
      unfold Quoted.readLine
      split <;> simp_all
  simp [keyPart, hline, htake, hdrop, h.nonempty]

theorem key_bare (h : Bare name) (hc : isBare c = false)
    (hdot : (skipBlanks (c :: cs)).head? ≠ some '.') :
    key (name.toList ++ c :: cs) = some (([], name), skipBlanks (c :: cs)) := by
  have hstart : skipBlanks (name.toList ++ c :: cs) = name.toList ++ c :: cs := by
    cases hname : name.toList with
    | nil => exact absurd hname h.nonempty
    | cons d tail =>
      have hd : isBare d = true := h.isBare d (hname ▸ List.mem_cons_self)
      have hspace := ne_of_test hd (show isBare ' ' = false by decide)
      have htab := ne_of_test hd (show isBare '\t' = false by decide)
      rw [List.cons_append]
      exact skipBlanks_cons (by simp [isBlank, hspace, htab])
  unfold key depthLimit keyUpTo
  rw [hstart, keyPart_bare h hc]
  simp only [Option.bind_eq_bind, Option.bind_some]
  split
  · rename_i heq
    rw [heq] at hdot
    exact absurd rfl hdot
  · rfl

/-! ### Statements -/

/-- The line of a statement, its end apart, when it is read as that statement whatever follows. -/
structure Line (line : List Char) (s : Statement) : Prop where
  read : ∀ rest, Statement.read (line ++ '\n' :: rest) = some (s, rest)
  first : ∃ c cs, line = c :: cs ∧ (c = '[' ∨ isBare c = true)

theorem line_header (h : Bare name) :
    Line ('[' :: (name.toList ++ [']'])) (.header ([], name)) := by
  refine ⟨fun rest => ?_, '[', _, rfl, .inl rfl⟩
  have hkey : key (name.toList ++ ']' :: '\n' :: rest) = some (([], name), ']' :: '\n' :: rest) :=
    key_bare h (by decide) (by rw [skipBlanks_cons (by decide)]; simp)
  have htext : '[' :: (name.toList ++ [']']) ++ '\n' :: rest =
      '[' :: (name.toList ++ ']' :: '\n' :: rest) := by
    simp
  have hdouble : expectWord ['[', '['] ('[' :: (name.toList ++ ']' :: '\n' :: rest)) = none := by
    cases hname : name.toList with
    | nil => exact absurd hname h.nonempty
    | cons d tail =>
      have hd : isBare d = true := h.isBare d (hname ▸ List.mem_cons_self)
      exact expectWord_of_ne (ne_of_test hd (by decide)) []
  have hend : lineEnd? ('\n' :: rest) = some rest := rfl
  rw [htext, Statement.read, hdouble]
  simp [expect, hkey, hend]

theorem line_binding (h : Bare name) (hv : v.render? = some text) :
    Line (name.toList ++ ' ' :: '=' :: ' ' :: text.toList) (.binding ([], name) v) := by
  have hbare := h.isBare
  cases hname : name.toList with
  | nil => exact absurd hname h.nonempty
  | cons d tail =>
    have hd : isBare d = true := hbare d (hname ▸ List.mem_cons_self)
    refine ⟨fun rest => ?_, d, _, rfl, .inr hd⟩
    have hkey : key (name.toList ++ ' ' :: '=' :: ' ' :: (text.toList ++ '\n' :: rest)) =
        some (([], name), '=' :: ' ' :: (text.toList ++ '\n' :: rest)) :=
      key_bare h (by decide) (by simp [skipBlanks, isBlank])
    have hskip : skipBlanks (' ' :: (text.toList ++ '\n' :: rest)) = text.toList ++ '\n' :: rest :=
      skipBlanks_of_render? hv _
    have htext : d :: tail ++ ' ' :: '=' :: ' ' :: text.toList ++ '\n' :: rest =
        d :: (tail ++ ' ' :: '=' :: ' ' :: (text.toList ++ '\n' :: rest)) := by
      simp
    have hne : d ≠ '[' := ne_of_test hd (by decide)
    have hend : lineEnd? ('\n' :: rest) = some rest := rfl
    rw [hname, List.cons_append] at hkey
    rw [htext, Statement.read, expectWord_of_ne hne, expect, if_neg hne]
    simp [binding, hkey, expect, hskip, value_of_render? hv, hend]

/-- The statements of a text, as long as there are steps for all its lines. -/
def Reads (cs : List Char) (ss : List Statement) : Prop :=
  ∀ n, cs.length < n → Statement.readLines n cs = some ss

theorem reads_nil : Reads [] [] := by
  intro n hn
  obtain ⟨n, rfl⟩ := Nat.exists_eq_succ_of_ne_zero (Nat.ne_of_gt hn)
  rfl

theorem Reads.empty {ss : List Statement} (h : Reads cs ss) : Reads ('\n' :: cs) ss := by
  intro n hn
  obtain ⟨n, rfl⟩ := Nat.exists_eq_succ_of_ne_zero (Nat.ne_zero_of_lt hn)
  have hend : lineEnd? ('\n' :: cs) = some cs := rfl
  rw [Statement.readLines, skipBlanks_cons (by decide)]
  simp only [hend]
  exact h n (Nat.lt_of_succ_lt_succ hn)

theorem Line.reads {line : List Char} {s : Statement} {ss : List Statement} (hline : Line line s)
    (h : Reads cs ss) : Reads (line ++ '\n' :: cs) (s :: ss) := by
  intro n hn
  obtain ⟨n, rfl⟩ := Nat.exists_eq_succ_of_ne_zero (Nat.ne_zero_of_lt hn)
  have hread := hline.read cs
  obtain ⟨c, tail, rfl, hc⟩ := hline.first
  have hne : ∀ d : Char, d ≠ '[' → isBare d = false → c ≠ d := by
    intro d hbracket hbare
    rcases hc with rfl | hc
    · exact Ne.symm hbracket
    · exact ne_of_test hc hbare
  have hblank : isBlank c = false := by
    simp [isBlank, hne ' ' (by decide) (by decide), hne '\t' (by decide) (by decide)]
  have hend : lineEnd? (c :: (tail ++ '\n' :: cs)) = none := by
    have hcomment : skipComment (c :: (tail ++ '\n' :: cs)) = c :: (tail ++ '\n' :: cs) := by
      unfold skipComment
      split
      · rename_i heq
        exact absurd (List.cons.inj heq).1 (hne '#' (by decide) (by decide))
      · rfl
    rw [lineEnd?, skipBlanks_cons hblank, hcomment]
    exact lineBreak?_eq_none (hne _ (by decide) (by decide)) (hne _ (by decide) (by decide))
  rw [List.cons_append] at hn hread ⊢
  rw [Statement.readLines, skipBlanks_cons hblank]
  simp only [hend, hread]
  rw [List.length_cons, List.length_append, List.length_cons] at hn
  simp [h n (by omega)]

theorem readAll_of_reads {ss : List Statement} (h : Reads cs ss)
    (hmark : cs.head? ≠ some '\ufeff') : Statement.readAll cs = some ss := by
  have hexpect : expect '\ufeff' cs = none := by
    cases cs with
    | nil => rfl
    | cons c cs => exact if_neg (by simpa using hmark)
  rw [Statement.readAll, hexpect]
  exact h _ (Nat.lt_succ_self _)

end ContentTree.Toml

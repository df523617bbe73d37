import Mathlib.Data.Char
import Mathlib.Data.List.Basic
import ContentTree.Toml.Quoted

/-!
# Strings in quotes are read back

A character of a basic string is written as itself or as an escape that stands for it. Whatever the
form that the writer takes for a text, the reader finds the end of it and gives the text back.
-/

namespace ContentTree.Toml

theorem isText_iff {c : Char} : isText c = true ↔ c = '\t' ∨ 32 ≤ c.toNat ∧ c.toNat ≠ 127 := by
  simp [isText]

theorem lineBreak?_eq_none {c : Char} {cs : List Char} (hline : c ≠ '\n') (hreturn : c ≠ '\r') :
    lineBreak? (c :: cs) = none := by
  unfold lineBreak?
  split <;> simp_all

namespace Quoted

variable {c : Char} {cs rest bound : List Char} {quote : Char} {triple : Bool}

/-! ### Single characters -/

theorem needsCode_eq_false : needsCode c = false ↔ isText c = true ∨ c = '\n' := by
  rw [needsCode, decide_eq_false_iff_not, not_not]

theorem ne_return_of_needsCode (h : needsCode c = false) : c ≠ '\r' := by
  rintro rfl
  exact absurd h (by decide)

theorem toNat_lt_of_needsCode (h : needsCode c = true) : c.toNat < 128 := by
  rw [needsCode, decide_eq_true_eq, isText_iff] at h
  omega

theorem hexValue?_hexDigit {n : Nat} (h : n < 16) : hexValue? (hexDigit n) = some n := by
  have hall : ∀ n < 16, hexValue? (hexDigit n) = some n := by decide
  exact hall n h

/-- The code of a character is read as the character. -/
theorem code?_hexDigits (h : c.toNat < 128) (rest : List Char) :
    code? 4 ('0' :: '0' :: hexDigit (c.toNat / 16) :: hexDigit (c.toNat % 16) :: rest) =
      some (c, rest) := by
  have hzero : hexValue? '0' = some 0 := rfl
  have hhigh := hexValue?_hexDigit (show c.toNat / 16 < 16 by omega)
  have hlow := hexValue?_hexDigit (show c.toNat % 16 < 16 by omega)
  generalize hexDigit (c.toNat / 16) = high at hhigh ⊢
  generalize hexDigit (c.toNat % 16) = low at hlow ⊢
  have hvalue : ofDigits 16 ['0', '0', high, low] = c.toNat := by
    simp only [ofDigits, List.foldl_cons, List.foldl_nil, hzero, hhigh, hlow, Option.getD_some]
    omega
  have hdigits : ['0', '0', high, low].all (isDigitOf 16) := by
    have hsmall : c.toNat / 16 < 16 ∧ c.toNat % 16 < 16 := by omega
    simp [isDigitOf, hzero, hhigh, hlow, hsmall]
  have hvalid : c.toNat.isValidChar := c.valid
  have htake : List.take 4 ('0' :: '0' :: high :: low :: rest) = ['0', '0', high, low] := rfl
  simp only [code?, htake, hvalue]
  rw [if_pos ⟨rfl, hdigits, hvalid⟩, Char.ofNat_toNat]
  rfl

/-- After a backslash in `cs`, `c` is read and `rest` left. -/
structure Escapes (cs : List Char) (c : Char) (rest : List Char) : Prop where
  read : escape? cs = some (c, rest)
  stays : fold? cs = none

/-- A character is written as itself, or as an escape that stands for it. -/
theorem escapeChar_cases (triple : Bool) (c : Char) :
    (escapeChar triple c = [c] ∧ c ≠ '\\' ∧ c ≠ '\r' ∧
        (isText c = true ∨ c = '\n' ∧ triple = true)) ∨
      ∃ code, escapeChar triple c = '\\' :: code ∧ ∀ rest, Escapes (code ++ rest) c rest := by
  unfold escapeChar
  by_cases hb : c = '\x08'
  · exact .inr ⟨['b'], if_pos hb, fun rest => ⟨by rw [hb]; rfl, rfl⟩⟩
  rw [if_neg hb]
  by_cases ht : c = '\t'
  · exact .inr ⟨['t'], if_pos ht, fun rest => ⟨by rw [ht]; rfl, rfl⟩⟩
  rw [if_neg ht]
  by_cases hn : c = '\n'
  · rw [if_pos hn]
    cases triple with
    | false => exact .inr ⟨['n'], rfl, fun rest => ⟨by rw [hn]; rfl, rfl⟩⟩
    | true => exact .inl ⟨by rw [hn]; rfl, by rw [hn]; decide, by rw [hn]; decide, .inr ⟨hn, rfl⟩⟩
  rw [if_neg hn]
  by_cases hf : c = '\x0c'
  · exact .inr ⟨['f'], if_pos hf, fun rest => ⟨by rw [hf]; rfl, rfl⟩⟩
  rw [if_neg hf]
  by_cases hr : c = '\r'
  · exact .inr ⟨['r'], if_pos hr, fun rest => ⟨by rw [hr]; rfl, rfl⟩⟩
  rw [if_neg hr]
  by_cases hs : c = '\\'
  · exact .inr ⟨['\\'], if_pos hs, fun rest => ⟨by rw [hs]; rfl, rfl⟩⟩
  rw [if_neg hs]
  cases hcode : needsCode c with
  | true =>
    refine .inr ⟨_, rfl, fun rest => ⟨?_, rfl⟩⟩
    exact code?_hexDigits (toNat_lt_of_needsCode hcode) rest
  | false => exact .inl ⟨rfl, hs, hr, .inl ((needsCode_eq_false.1 hcode).resolve_right hn)⟩

/-! ### The inside of a basic string -/

theorem escapeText_kept {run : Nat} (h : run < 2) (cs : List Char) :
    escapeText true run ('"' :: cs) = '"' :: escapeText true (run + 1) cs := by
  rw [escapeText, if_pos rfl, if_pos ⟨rfl, h⟩]

theorem escapeText_escaped {run : Nat} (h : ¬ (triple = true ∧ run < 2)) (cs : List Char) :
    escapeText triple run ('"' :: cs) = '\\' :: '"' :: escapeText triple 0 cs := by
  rw [escapeText, if_pos rfl, if_neg h]

theorem escapeText_of_ne (h : c ≠ '"') (run : Nat) (cs : List Char) :
    escapeText triple run (c :: cs) = escapeChar triple c ++ escapeText triple 0 cs := by
  rw [escapeText, if_neg h]

/-- The first character of a text comes first, or a backslash does. -/
theorem escapeText_eq_cons (triple : Bool) (run : Nat) (c : Char) (cs : List Char) :
    ∃ first tail, escapeText triple run (c :: cs) = first :: tail ∧
      (first = '\\' ∨ first = c ∧ c ≠ '\r' ∧ (c = '"' → triple = true)) := by
  by_cases hquote : c = '"'
  · subst hquote
    by_cases hkept : triple = true ∧ run < 2
    · obtain ⟨rfl, hshort⟩ := hkept
      exact ⟨_, _, escapeText_kept hshort cs, .inr ⟨rfl, by decide, fun _ => rfl⟩⟩
    · exact ⟨_, _, escapeText_escaped hkept cs, .inl rfl⟩
  · rw [escapeText_of_ne hquote]
    rcases escapeChar_cases triple c with ⟨hself, -, hreturn, -⟩ | ⟨code, hcode, -⟩
    · rw [hself]
      exact ⟨_, _, rfl, .inr ⟨rfl, hreturn, fun h => absurd h hquote⟩⟩
    · rw [hcode]
      exact ⟨_, _, rfl, .inl rfl⟩

/-! ### Basic strings on one line -/

theorem readBasic_text {b : Char} (hquote : c ≠ '"') (hslash : c ≠ '\\') (htext : isText c = true) :
    readBasic (b :: bound) (c :: cs) = (readBasic bound cs).map fun (ds, cs) => (c :: ds, cs) := by
  rw [readBasic, if_neg hquote, if_neg hslash, if_pos htext]
  cases readBasic bound cs <;> rfl

theorem readBasic_escape {b : Char} {code : List Char} (h : Escapes code c rest) :
    readBasic (b :: bound) ('\\' :: code) =
      (readBasic bound rest).map fun (ds, cs) => (c :: ds, cs) := by
  rw [readBasic, if_neg (by decide), if_pos rfl, h.read]
  cases hrest : readBasic bound rest <;> simp [hrest]

theorem readBasic_escapeText (cs rest : List Char) (h : cs.length < bound.length) (run : Nat) :
    readBasic bound (escapeText false run cs ++ '"' :: rest) = some (cs, rest) := by
  induction cs generalizing bound run with
  | nil =>
    obtain ⟨b, bound, rfl⟩ := List.exists_cons_of_length_pos h
    rfl
  | cons c cs ih =>
    obtain ⟨b, bound, rfl⟩ := List.exists_cons_of_length_pos (Nat.zero_lt_of_lt h)
    have hnext := fun run => @ih bound (Nat.lt_of_succ_lt_succ h) run
    by_cases hquote : c = '"'
    · subst hquote
      rw [escapeText_escaped (by simp), List.cons_append, List.cons_append,
        readBasic_escape ⟨rfl, rfl⟩, hnext]
      rfl
    · rw [escapeText_of_ne hquote, List.append_assoc]
      rcases escapeChar_cases false c with ⟨hself, hslash, -, htext⟩ | ⟨code, hcode, hescape⟩
      · have htext : isText c = true := htext.resolve_right fun h => Bool.noConfusion h.2
        rw [hself, List.singleton_append, readBasic_text hquote hslash htext, hnext]
        rfl
      · rw [hcode, List.cons_append, readBasic_escape (hescape _), hnext]
        rfl

/-! ### Literal strings on one line -/

theorem readLiteral_append (hquote : '\'' ∉ cs) (htext : ∀ c ∈ cs, isText c = true)
    (rest : List Char) : readLiteral (cs ++ '\'' :: rest) = some (cs, rest) := by
  induction cs with
  | nil => rfl
  | cons c cs ih =>
    rw [List.mem_cons, not_or] at hquote
    rw [List.forall_mem_cons] at htext
    rw [List.cons_append, readLiteral, if_neg (Ne.symm hquote.1), if_pos htext.1,
      ih hquote.2 htext.2]
    rfl

/-! ### Strings in triple quotes -/

theorem runLength_of_ne (h : c ≠ quote) (cs : List Char) : runLength quote (c :: cs) = 0 := by
  simp [runLength, h]

theorem runLength_cons (quote : Char) (cs : List Char) :
    runLength quote (quote :: cs) = runLength quote cs + 1 := by
  simp [runLength]

theorem runLength_replicate (n : Nat) (h : rest.head? ≠ some quote) :
    runLength quote (List.replicate n quote ++ rest) = n := by
  induction n with
  | zero =>
    cases rest with
    | nil => rfl
    | cons c rest => exact runLength_of_ne (by simpa using h) rest
  | succ n ih => rw [List.replicate_succ, List.cons_append, runLength_cons, ih]

/-- The quotes that end a string, with those of its own before them. -/
theorem readLines_close {escapes : Bool} {k : Nat} (hk : k ≤ 2) (hbound : 0 < bound.length)
    (hrest : rest.head? ≠ some quote) :
    readLines quote escapes bound (List.replicate k quote ++ (List.replicate 3 quote ++ rest)) =
      some (List.replicate k quote, rest) := by
  obtain ⟨b, bound, rfl⟩ := List.exists_cons_of_length_pos hbound
  have hall : List.replicate k quote ++ (List.replicate 3 quote ++ rest) =
      List.replicate (k + 3) quote ++ rest := by
    rw [← List.append_assoc, List.replicate_append_replicate]
  have hcons : List.replicate (k + 3) quote ++ rest =
      quote :: (List.replicate (k + 2) quote ++ rest) := rfl
  have hrun := runLength_replicate (k + 3) hrest
  rw [hcons] at hrun
  rw [hall, hcons, readLines]
  have hinner : min (k + 3 - 3) 2 = k := by omega
  simp only [hrun, if_pos (Nat.le_add_left 3 k), hinner]
  rw [← hcons, List.drop_left' List.length_replicate]

theorem readLines_text {escapes : Bool} {b : Char} (hrun : runLength quote (c :: cs) ≤ 2)
    (hslash : ¬ (c = '\\' ∧ escapes = true)) (hreturn : c ≠ '\r')
    (htext : isText c = true ∨ c = '\n') :
    readLines quote escapes (b :: bound) (c :: cs) =
      (readLines quote escapes bound cs).map fun (ds, cs) => (c :: ds, cs) := by
  rw [readLines]
  simp only [if_neg (Nat.not_le.2 (Nat.lt_succ_of_le hrun)), if_neg hslash]
  by_cases hline : c = '\n'
  · subst hline
    have hbreak : lineBreak? ('\n' :: cs) = some cs := rfl
    simp only [hbreak]
    cases readLines quote escapes bound cs <;> rfl
  · rw [lineBreak?_eq_none hline hreturn]
    simp only [if_pos (htext.resolve_right hline)]
    cases readLines quote escapes bound cs <;> rfl

theorem readLines_escape {b : Char} {code : List Char} (hquote : quote ≠ '\\')
    (h : Escapes code c rest) :
    readLines quote true (b :: bound) ('\\' :: code) =
      (readLines quote true bound rest).map fun (ds, cs) => (c :: ds, cs) := by
  rw [readLines]
  simp only [runLength_of_ne (Ne.symm hquote), h.stays, h.read]
  cases hrest : readLines quote true bound rest <;> simp [hrest]

/-- No run of quotes in the middle of a basic string is as long as the one that ends it. -/
theorem runLength_escapeText {run : Nat} (hrun : run ≤ 2) (cs tail : List Char) :
    (∃ k, k + run ≤ 2 ∧ cs = List.replicate k '"' ∧ escapeText true run cs = List.replicate k '"') ∨
      runLength '"' (escapeText true run cs ++ tail) + run ≤ 2 := by
  induction cs generalizing run with
  | nil => exact .inl ⟨0, by omega, rfl, rfl⟩
  | cons c cs ih =>
    by_cases hquote : c = '"'
    · subst hquote
      by_cases hshort : run < 2
      · rw [escapeText_kept hshort]
        rcases @ih (run + 1) hshort with ⟨k, hk, hcs, hwhole⟩ | hmiddle
        · refine .inl ⟨k + 1, by omega, ?_, ?_⟩
          · rw [hcs, List.replicate_succ]
          · rw [hwhole, List.replicate_succ]
        · rw [List.cons_append, runLength_cons]
          omega
      · rw [escapeText_escaped (by simp [hshort]), List.cons_append, runLength_of_ne (by decide)]
        omega
    · rw [escapeText_of_ne hquote]
      rcases escapeChar_cases true c with ⟨hself, -⟩ | ⟨code, hcode, -⟩
      · rw [hself, List.singleton_append, List.cons_append, runLength_of_ne hquote]
        omega
      · rw [hcode, List.cons_append, List.cons_append, runLength_of_ne (by decide)]
        omega

theorem runLength_literal {run : Nat} (h : longestRun quote run cs ≤ 2) (tail : List Char) :
    (∃ k, k + run ≤ 2 ∧ cs = List.replicate k quote) ∨
      runLength quote (cs ++ tail) + run ≤ 2 := by
  induction cs generalizing run with
  | nil => exact .inl ⟨0, by rwa [Nat.zero_add], rfl⟩
  | cons c cs ih =>
    rw [longestRun] at h
    by_cases hquote : c = quote
    · subst hquote
      rw [if_pos rfl] at h
      rcases ih h with ⟨k, hk, hcs⟩ | hmiddle
      · exact .inl ⟨k + 1, by omega, by rw [hcs, List.replicate_succ]⟩
      · rw [List.cons_append, runLength_cons]
        omega
    · rw [if_neg hquote] at h
      rw [List.cons_append, runLength_of_ne hquote]
      omega

theorem readLines_escapeText {run : Nat} (hrun : run ≤ 2) (cs : List Char)
    (h : cs.length < bound.length) (hrest : rest.head? ≠ some '"') :
    readLines '"' true bound (escapeText true run cs ++ (List.replicate 3 '"' ++ rest)) =
      some (cs, rest) := by
  induction cs generalizing bound run with
  | nil => exact readLines_close (Nat.zero_le 2) h hrest
  | cons c cs ih =>
    -- Quotes at the end of the text form one run with those that end the string, so the reader takes
    -- them in one step; anywhere else a run is too short to end it.
    rcases runLength_escapeText hrun (c :: cs) (List.replicate 3 '"' ++ rest) with
      ⟨k, hk, hcs, hwhole⟩ | hmiddle
    · rw [hwhole, hcs]
      exact readLines_close (by omega) (Nat.zero_lt_of_lt h) hrest
    · obtain ⟨b, bound, rfl⟩ := List.exists_cons_of_length_pos (Nat.zero_lt_of_lt h)
      have hnext := fun {run} hrun => @ih bound run hrun (Nat.lt_of_succ_lt_succ h)
      by_cases hquote : c = '"'
      · subst hquote
        by_cases hshort : run < 2
        · rw [escapeText_kept hshort, List.cons_append] at hmiddle ⊢
          rw [readLines_text (by omega) (by simp) (by decide) (.inl rfl), hnext hshort]
          rfl
        · rw [escapeText_escaped (by simp [hshort]), List.cons_append, List.cons_append,
            readLines_escape (by decide) ⟨rfl, rfl⟩, hnext (Nat.zero_le 2)]
          rfl
      · rw [escapeText_of_ne hquote, List.append_assoc] at hmiddle ⊢
        rcases escapeChar_cases true c with ⟨hself, hslash, hreturn, htext⟩ | ⟨code, hcode, hescape⟩
        · rw [hself, List.singleton_append] at hmiddle ⊢
          rw [readLines_text (by omega) (fun h => hslash h.1) hreturn (htext.imp_right And.left),
            hnext (Nat.zero_le 2)]
          rfl
        · rw [hcode, List.cons_append, readLines_escape (by decide) (hescape _),
            hnext (Nat.zero_le 2)]
          rfl

theorem readLines_literal {run : Nat} (hruns : longestRun quote run cs ≤ 2)
    (hcodes : ∀ c ∈ cs, needsCode c = false) (h : cs.length < bound.length)
    (hrest : rest.head? ≠ some quote) :
    readLines quote false bound (cs ++ (List.replicate 3 quote ++ rest)) = some (cs, rest) := by
  induction cs generalizing bound run with
  | nil => exact readLines_close (Nat.zero_le 2) h hrest
  | cons c cs ih =>
    rcases runLength_literal hruns (List.replicate 3 quote ++ rest) with
      ⟨k, hk, hcs⟩ | hmiddle
    · rw [hcs]
      exact readLines_close (by omega) (Nat.zero_lt_of_lt h) hrest
    · obtain ⟨b, bound, rfl⟩ := List.exists_cons_of_length_pos (Nat.zero_lt_of_lt h)
      rw [List.forall_mem_cons] at hcodes
      have hnext : ∃ run, longestRun quote run cs ≤ 2 := by
        rw [longestRun] at hruns
        split at hruns
        · exact ⟨_, hruns⟩
        · exact ⟨0, Nat.le_trans (Nat.le_max_right _ _) hruns⟩
      obtain ⟨later, hlater⟩ := hnext
      rw [List.cons_append] at hmiddle ⊢
      rw [readLines_text (by omega) (by simp) (ne_return_of_needsCode hcodes.1)
        (needsCode_eq_false.1 hcodes.1), ih hlater hcodes.2 (Nat.lt_of_succ_lt_succ h)]
      rfl

/-! ### All forms -/

theorem length_le_escapeText (triple : Bool) (run : Nat) (cs : List Char) :
    cs.length ≤ (escapeText triple run cs).length := by
  induction cs generalizing run with
  | nil => exact Nat.zero_le _
  | cons c cs ih =>
    rw [escapeText]
    split
    · split
      · exact Nat.succ_le_succ (ih _)
      · exact Nat.succ_le_succ (Nat.le_trans (ih 0) (Nat.le_succ _))
    · have hchar : 0 < (escapeChar triple c).length := by
        rcases escapeChar_cases triple c with ⟨hself, -⟩ | ⟨code, hcode, -⟩
        · simp [hself]
        · simp [hcode]
      rw [List.length_append, List.length_cons]
      have hrest := ih 0
      omega

theorem expectWord_replicate (quote : Char) (n : Nat) (cs : List Char) :
    expectWord (List.replicate n quote) cs =
      if n ≤ runLength quote cs then some (cs.drop n) else none := by
  induction n generalizing cs with
  | zero => rfl
  | succ n ih =>
    rw [List.replicate_succ, expectWord]
    cases cs with
    | nil => rfl
    | cons c cs =>
      by_cases hquote : c = quote
      · subst hquote
        rw [runLength_cons, expect, if_pos rfl, Option.bind_some, ih]
        simp
      · rw [runLength_of_ne hquote, expect, if_neg hquote, Option.bind_none]
        simp

/-- Fewer than three quotes in a row open a string on one line. -/
theorem read_eq_readLine (hdouble : runLength '"' cs < 3) (hsingle : runLength '\'' cs < 3) :
    read cs = readLine cs := by
  have hnone : ∀ {quote : Char}, runLength quote cs < 3 →
      expectWord (List.replicate 3 quote) cs = none := by
    intro quote hrun
    rw [expectWord_replicate, if_neg (Nat.not_le.2 hrun)]
  have hdouble : expectWord ['"', '"', '"'] cs = none := hnone hdouble
  have hsingle : expectWord ['\'', '\'', '\''] cs = none := hnone hsingle
  simp only [read, hdouble, hsingle]

theorem read_basic (cs : List Char) (hrest : rest.head? ≠ some '"') :
    read (basic cs ++ rest) = some (cs, rest) := by
  have htext : basic cs ++ rest = '"' :: (escapeText false 0 cs ++ '"' :: rest) := by
    simp [basic]
  have hrun : runLength '"' (escapeText false 0 cs ++ '"' :: rest) < 2 := by
    cases cs with
    | nil =>
      have hclose := runLength_replicate 1 hrest
      exact Nat.lt_succ_of_le (Nat.le_of_eq hclose)
    | cons c cs =>
      obtain ⟨first, tail, htext, hfirst⟩ := escapeText_eq_cons false 0 c cs
      have hne : first ≠ '"' := by
        rintro rfl
        rcases hfirst with hslash | ⟨hself, -, hkept⟩
        · exact absurd hslash (by decide)
        · exact Bool.false_ne_true (hkept hself.symm)
      rw [htext, List.cons_append, runLength_of_ne hne]
      exact Nat.two_pos
  have hlength := length_le_escapeText false 0 cs
  rw [htext, read_eq_readLine, readLine]
  · refine readBasic_escapeText cs rest ?_ 0
    rw [List.length_append, List.length_cons]
    omega
  · rw [runLength_cons]
    omega
  · rw [runLength_of_ne (by decide)]
    exact Nat.succ_pos 2

theorem le_longestRun (quote : Char) (run : Nat) (cs : List Char) :
    run ≤ longestRun quote run cs := by
  induction cs generalizing run with
  | nil => exact Nat.le_refl _
  | cons c cs ih =>
    rw [longestRun]
    split
    · exact Nat.le_of_succ_le (ih (run + 1))
    · exact Nat.le_max_left _ _

theorem not_mem_of_longestRun (h : longestRun quote 0 cs = 0) : quote ∉ cs := by
  induction cs with
  | nil => exact List.not_mem_nil
  | cons c cs ih =>
    rw [longestRun] at h
    split at h
    · have hone := le_longestRun quote (0 + 1) cs
      omega
    · rename_i hne
      rw [Nat.zero_max] at h
      rw [List.mem_cons, not_or]
      exact ⟨Ne.symm hne, ih h⟩

theorem read_literal (hquote : '\'' ∉ cs) (htext : ∀ c ∈ cs, isText c = true)
    (hrest : rest.head? ≠ some '\'') : read (literal cs ++ rest) = some (cs, rest) := by
  have hwhole : literal cs ++ rest = '\'' :: (cs ++ '\'' :: rest) := by
    simp [literal]
  have hrun : runLength '\'' (cs ++ '\'' :: rest) < 2 := by
    cases cs with
    | nil =>
      have hclose := runLength_replicate 1 hrest
      exact Nat.lt_succ_of_le (Nat.le_of_eq hclose)
    | cons c cs =>
      rw [List.mem_cons, not_or] at hquote
      rw [List.cons_append, runLength_of_ne (Ne.symm hquote.1)]
      exact Nat.two_pos
  rw [hwhole, read_eq_readLine, readLine]
  · exact readLiteral_append hquote htext rest
  · rw [runLength_of_ne (by decide)]
    exact Nat.succ_pos 2
  · rw [runLength_cons]
    omega

theorem readTriple_of_readLines {inside : List Char} {escapes lines : Bool}
    (hread : ∀ bound : List Char, inside.length < bound.length →
      readLines quote escapes bound (inside ++ (List.replicate 3 quote ++ rest)) = some (cs, rest))
    (hfirst : lines = false →
      lineBreak? (inside ++ (List.replicate 3 quote ++ rest)) = none) :
    readTriple quote escapes
        ((if lines then ['\n'] else []) ++ (inside ++ (List.replicate 3 quote ++ rest))) =
      some (cs, rest) := by
  unfold readTriple
  cases lines with
  | false =>
    simp only [Bool.false_eq_true, if_false, List.nil_append, hfirst rfl, Option.getD_none]
    refine hread _ ?_
    simp only [List.length_append, List.length_replicate]
    omega
  | true =>
    refine hread _ ?_
    simp only [if_true, List.length_append, List.length_replicate, List.length_singleton]
    omega

theorem lineBreak?_append {first tail : List Char} (hreturn : first.head? ≠ some '\r')
    (hline : first.head? ≠ some '\n') (hquote : quote ≠ '\r' ∧ quote ≠ '\n') :
    lineBreak? (first ++ quote :: tail) = none := by
  cases first with
  | nil => exact lineBreak?_eq_none hquote.2 hquote.1
  | cons c first => exact lineBreak?_eq_none (by simpa using hline) (by simpa using hreturn)

/-- A basic string in triple quotes starts with a line break if the text does. -/
theorem head?_escapeText (cs : List Char) : (escapeText true 0 cs).head? ≠ some '\r' ∧
    ((escapeText true 0 cs).head? = some '\n' → '\n' ∈ cs) := by
  cases cs with
  | nil => exact ⟨by simp [escapeText], by simp [escapeText]⟩
  | cons c cs =>
    obtain ⟨first, tail, htext, hfirst⟩ := escapeText_eq_cons true 0 c cs
    rw [htext, List.head?_cons]
    rcases hfirst with rfl | ⟨rfl, hreturn, -⟩
    · exact ⟨by decide, fun h => absurd h (by decide)⟩
    · refine ⟨by simpa using hreturn, fun h => ?_⟩
      rw [Option.some.inj h]
      exact List.mem_cons_self

theorem read_triple_basic {lines : Bool} (cs : List Char) (hlines : lines = false → '\n' ∉ cs)
    (hrest : rest.head? ≠ some '"') :
    read (Quoted.triple '"' lines (escapeText true 0 cs) ++ rest) = some (cs, rest) := by
  have hlength := length_le_escapeText true 0 cs
  obtain ⟨hreturn, hline⟩ := head?_escapeText cs
  simp only [Quoted.triple, List.append_assoc]
  refine readTriple_of_readLines (fun bound hbound => ?_) fun h => ?_
  · exact readLines_escapeText (Nat.zero_le 2) cs (by omega) hrest
  · exact lineBreak?_append hreturn (fun h' => hlines h (hline h')) (by decide)

theorem read_triple_literal {lines : Bool} (hlines : lines = false → '\n' ∉ cs)
    (hcodes : ∀ c ∈ cs, needsCode c = false) (hruns : longestRun '\'' 0 cs ≤ 2)
    (hrest : rest.head? ≠ some '\'') :
    read (Quoted.triple '\'' lines cs ++ rest) = some (cs, rest) := by
  simp only [Quoted.triple, List.append_assoc]
  refine readTriple_of_readLines (fun bound hbound => ?_) fun h => ?_
  · exact readLines_literal hruns hcodes hbound hrest
  · refine lineBreak?_append ?_ ?_ (by decide)
    · exact fun hhead => ne_return_of_needsCode (hcodes _ (List.mem_of_mem_head? hhead)) rfl
    · exact fun hhead => hlines h (List.mem_of_mem_head? hhead)

/-- Whatever form the writer takes, the reader finds the text and its end. -/
theorem read_render (cs : List Char) (hdouble : rest.head? ≠ some '"')
    (hsingle : rest.head? ≠ some '\'') : read (render cs ++ rest) = some (cs, rest) := by
  have hcodes : ¬ cs.any needsCode = true → ∀ c ∈ cs, needsCode c = false := by
    intro h
    simpa using h
  have hlines : ∀ {lines : Bool}, cs.contains '\n' = lines → lines = false → '\n' ∉ cs := by
    rintro lines rfl h
    simpa using h
  unfold render
  dsimp only
  split
  · exact read_basic cs hdouble
  · split
    · rename_i hform
      refine read_literal (not_mem_of_longestRun hform.2.1) (fun c hc => ?_) hsingle
      have hline : '\n' ∉ cs := by simpa using hform.2.2
      refine (needsCode_eq_false.1 (hcodes hform.1 c hc)).resolve_right ?_
      exact fun h => hline (h ▸ hc)
    · split
      · exact read_triple_basic cs (hlines rfl) hdouble
      · split
        · rename_i hform
          exact read_triple_literal (hlines rfl) (hcodes hform.1) hform.2 hsingle
        · split
          · exact read_triple_basic cs (by simp) hdouble
          · exact read_basic cs hdouble

theorem render_eq_cons (cs : List Char) : ∃ quote tail, render cs = quote :: tail ∧
    (quote = '"' ∨ quote = '\'') := by
  unfold render
  dsimp only
  repeat' split
  · exact ⟨_, _, rfl, .inl rfl⟩
  · exact ⟨_, _, rfl, .inr rfl⟩
  · exact ⟨_, _, rfl, .inl rfl⟩
  · exact ⟨_, _, rfl, .inr rfl⟩
  · exact ⟨_, _, rfl, .inl rfl⟩
  · exact ⟨_, _, rfl, .inl rfl⟩

end Quoted

end ContentTree.Toml

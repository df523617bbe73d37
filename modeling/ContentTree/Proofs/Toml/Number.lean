import ContentTree.Proofs.Toml.Quoted
import ContentTree.Toml.Statement

/-!
# Integers are read back

The decimal digits of an integer that end with their line are no date, no time and no number with a
fraction, and as an integer they spell the one that they were made from.
-/

namespace ContentTree.Toml

variable {c : Char} {ds rest : List Char}

/-- Characters that a test tells apart. -/
theorem ne_of_test {test : Char → Bool} {d : Char} (h : test c = true) (hd : test d = false) :
    c ≠ d := by
  rintro rfl
  rw [h] at hd
  cases hd

/-! ### Digits -/

theorem hexValue?_of_isDigit (h : c.isDigit = true) : hexValue? c = some (c.toNat - 48) := by
  rw [Char.isDigit, Bool.and_eq_true, decide_eq_true_eq, decide_eq_true_eq] at h
  exact if_pos h

theorem isDigitOf_of_isDigit (h : c.isDigit = true) : isDigitOf 10 c = true := by
  have hlow : c.toNat < 58 := by
    rw [Char.isDigit, Bool.and_eq_true, decide_eq_true_eq, decide_eq_true_eq] at h
    exact Nat.lt_succ_of_le (UInt32.le_iff_toNat_le.1 h.2)
  rw [isDigitOf, hexValue?_of_isDigit h, Option.any_some, decide_eq_true_eq]
  omega

theorem isDigit_toDigits (n : Nat) : ∀ c ∈ Nat.toDigits 10 n, c.isDigit = true :=
  fun _ hc => Nat.isDigit_of_mem_toDigits (by decide) (by decide) hc

theorem ofDigits_toDigits (n : Nat) : ofDigits 10 (Nat.toDigits 10 n) = n := by
  calc
    ofDigits 10 (Nat.toDigits 10 n) =
        (Nat.toDigits 10 n).foldl (fun k c => 10 * k + (c.toNat - '0'.toNat)) 0 := by
      refine List.foldl_ext _ _ _ fun k c hc => ?_
      rw [hexValue?_of_isDigit (isDigit_toDigits n c hc), Nat.mul_comm]
      rfl
    _ = n := by rw [← Nat.ofDigitChars_eq_foldl, Nat.ofDigitChars_ten_toDigits]

theorem ofDigits_dropWhile (base : Nat) (ds : List Char) :
    ofDigits base (ds.dropWhile (· = '0')) = ofDigits base ds := by
  induction ds with
  | nil => rfl
  | cons d ds ih =>
    by_cases hd : d = '0'
    · subst hd
      have hzero : hexValue? '0' = some 0 := rfl
      rw [List.dropWhile_cons_of_pos (by simp), ih]
      simp [ofDigits, hzero]
    · rw [List.dropWhile_cons_of_neg (by simpa using hd)]

/-- Only the digits of zero start with a zero. -/
theorem toDigits_eq_zero_cons {n : Nat} (h : Nat.toDigits 10 n = '0' :: ds) : ds = [] := by
  induction n using Nat.strongRecOn generalizing ds with
  | ind n ih =>
    rcases Nat.lt_or_ge n 10 with hsmall | hlarge
    · rw [Nat.toDigits_of_lt_base hsmall] at h
      exact (List.cons.inj h).2.symm
    · -- The first digit is that of `n / 10`, which would be zero.
      exfalso
      have hinit := Nat.toDigits_of_base_le (b := 10) (by decide) hlarge
      cases hdigits : Nat.toDigits 10 (n / 10) with
      | nil => exact Nat.toDigits_ne_nil hdigits
      | cons d init =>
        rw [hinit, hdigits] at h
        obtain ⟨rfl, -⟩ := List.cons.inj h
        obtain rfl := ih (n / 10) (by omega) hdigits
        have hvalue := ofDigits_toDigits (n / 10)
        rw [hdigits] at hvalue
        have hzero : n / 10 = 0 := hvalue.symm
        omega

/-! ### Readers of digits -/

theorem isDigitOf_lineFeed : isDigitOf 10 '\n' = false := by
  decide

theorem moreDigits_append (h : ∀ c ∈ ds, isDigitOf 10 c = true) (rest : List Char) :
    moreDigits 10 (ds ++ '\n' :: rest) = some (ds, '\n' :: rest) := by
  induction ds with
  | nil =>
    rw [List.nil_append, moreDigits, if_neg (by rw [isDigitOf_lineFeed]; decide)]
    decide
  | cons c ds ih =>
    rw [List.forall_mem_cons] at h
    have hscore : c ≠ '_' := ne_of_test h.1 (by decide)
    rw [List.cons_append, moreDigits, if_pos h.1, ih h.2]
    · rfl
    · exact hscore

theorem digits_append (hne : ds ≠ []) (h : ∀ c ∈ ds, isDigitOf 10 c = true) (rest : List Char) :
    digits 10 (ds ++ '\n' :: rest) = some (ds, '\n' :: rest) := by
  cases ds with
  | nil => exact absurd rfl hne
  | cons c ds =>
    rw [List.forall_mem_cons] at h
    rw [List.cons_append, digits, if_pos h.1, moreDigits_append h.2]
    rfl

theorem wholeDigits_toDigits (n : Nat) (rest : List Char) :
    wholeDigits (Nat.toDigits 10 n ++ '\n' :: rest) = some (Nat.toDigits 10 n, '\n' :: rest) := by
  have hdigits := digits_append Nat.toDigits_ne_nil
    (fun c hc => isDigitOf_of_isDigit (isDigit_toDigits n c hc)) rest
  unfold wholeDigits
  split
  · rename_i cs hzero
    cases hn : Nat.toDigits 10 n with
    | nil => exact absurd hn Nat.toDigits_ne_nil
    | cons d ds =>
      rw [hn, List.cons_append] at hzero
      obtain ⟨rfl, rfl⟩ := List.cons.inj hzero
      rw [toDigits_eq_zero_cons hn]
      rfl
  · exact hdigits

theorem sign_of_isDigit (h : c.isDigit = true) (cs : List Char) :
    sign (c :: cs) = (false, c :: cs) := by
  have hplus : c ≠ '+' := ne_of_test h (by decide)
  have hminus : c ≠ '-' := ne_of_test h (by decide)
  unfold sign
  split <;> simp_all

theorem fitting?_toDigits {negative : Bool} {n : Nat} {i : Int}
    (hvalue : (if negative then -(n : Int) else n) = i) (hrange : inRange i = true) :
    fitting? 10 negative (Nat.toDigits 10 n) = some i := by
  have hbounds : Int64.minValue.toInt ≤ i ∧ i ≤ Int64.maxValue.toInt := by
    simpa [inRange] using hrange
  have hlow : Int64.minValue.toInt = -9223372036854775808 := by decide
  have hhigh : Int64.maxValue.toInt = 9223372036854775807 := by decide
  have hn : n ≤ 9223372036854775808 := by
    rw [hlow, hhigh] at hbounds
    cases negative <;> simp at hvalue <;> omega
  have hlength : (Nat.toDigits 10 n).length ≤ 64 := by
    rw [Nat.length_toDigits_le_iff (by decide) (by decide)]
    exact Nat.lt_of_le_of_lt hn (by decide)
  have hshort : ((Nat.toDigits 10 n).dropWhile (· = '0')).length ≤ 64 :=
    Nat.le_trans (List.dropWhile_sublist _).length_le hlength
  simp only [fitting?, if_neg (Nat.not_lt.2 hshort), ofDigits_dropWhile, ofDigits_toDigits, hvalue,
    if_pos hrange]

/-! ### Other kinds of numbers -/

theorem expect_of_fixed {n low high value : Nat} {sep : Char} {after : List Char}
    (h : ∀ c ∈ ds, isDigitOf 10 c = true) (hsep : isDigitOf 10 sep = false) (hline : sep ≠ '\n')
    (hfixed : fixed n low high (ds ++ '\n' :: rest) = some (value, after)) :
    expect sep after = none := by
  rw [fixed] at hfixed
  split at hfixed
  · rename_i hall
    obtain ⟨-, rfl⟩ := Prod.mk.inj (Option.some.inj hfixed)
    -- As many digits are there as the field has, or the line end would be among them.
    have hlength : n ≤ ds.length := by
      by_contra hlong
      have hmem : '\n' ∈ List.take n (ds ++ '\n' :: rest) := by
        obtain ⟨k, hk⟩ := Nat.exists_eq_add_of_lt (Nat.not_le.1 hlong)
        have hrest : n - ds.length = k + 1 := by omega
        rw [List.take_append, hrest, List.take_succ_cons]
        exact List.mem_append_right _ List.mem_cons_self
      have hdigit := List.all_eq_true.1 hall.2.1 _ hmem
      exact absurd hdigit (by decide)
    rw [List.drop_append_of_le_length hlength]
    cases hdrop : ds.drop n with
    | nil => simp [expect, Ne.symm hline]
    | cons d tail =>
      have hd : isDigitOf 10 d = true := h d (List.mem_of_mem_drop (hdrop ▸ List.mem_cons_self))
      exact if_neg (ne_of_test hd hsep)
  · cases hfixed

/-- The digits of an integer start no date and no time. -/
theorem datetime_eq_none (h : ∀ c ∈ ds, isDigitOf 10 c = true) (rest : List Char) :
    datetime (ds ++ '\n' :: rest) = none := by
  have hdate : date (ds ++ '\n' :: rest) = none := by
    unfold date
    rcases hfixed : fixed 4 0 9999 (ds ++ '\n' :: rest) with _ | ⟨year, after⟩
    · rfl
    · have hsep : expect '-' after = none := expect_of_fixed h (by decide) (by decide) hfixed
      simp [hsep]
  have htime : time (ds ++ '\n' :: rest) = none := by
    unfold time
    rcases hfixed : fixed 2 0 23 (ds ++ '\n' :: rest) with _ | ⟨hour, after⟩
    · rfl
    · have hsep : expect ':' after = none := expect_of_fixed h (by decide) (by decide) hfixed
      simp [hsep]
  rw [datetime, hdate]
  exact htime

/-- The text of an integer: its sign, and its digits. -/
def decimalText (i : Int) : List Char :=
  if i < 0 then '-' :: Nat.toDigits 10 i.natAbs else Nat.toDigits 10 i.natAbs

theorem toList_toString (i : Int) : (toString i).toList = decimalText i := by
  cases i with
  | ofNat n =>
    have hsign : ¬ Int.ofNat n < 0 := by simp
    rw [decimalText, if_neg hsign]
    exact Nat.toList_repr
  | negSucc n =>
    rw [decimalText, if_pos (Int.negSucc_lt_zero n)]
    calc
      (toString (Int.negSucc n)).toList = ("-" ++ (n + 1).repr).toList := rfl
      _ = '-' :: Nat.toDigits 10 (n + 1) := by
        rw [String.toList_append, Nat.toList_repr]
        rfl

/-- What stands before the digits is their sign. -/
theorem sign_decimalText (i : Int) (rest : List Char) :
    sign (decimalText i ++ rest) = (decide (i < 0), Nat.toDigits 10 i.natAbs ++ rest) := by
  unfold decimalText
  split
  · rename_i hsign
    simp [sign, hsign]
  · rename_i hsign
    have hdigits := isDigit_toDigits i.natAbs
    cases hn : Nat.toDigits 10 i.natAbs with
    | nil => exact absurd hn Nat.toDigits_ne_nil
    | cons d ds =>
      rw [hn] at hdigits
      rw [List.cons_append, sign_of_isDigit (hdigits d List.mem_cons_self)]
      simp [hsign]

theorem decimal_decimalText {i : Int} (h : inRange i = true) (rest : List Char) :
    decimal (decimalText i ++ '\n' :: rest) = some (i, '\n' :: rest) := by
  have hvalue : (if decide (i < 0) then -(i.natAbs : Int) else i.natAbs) = i := by
    by_cases hsign : i < 0
    · rw [decide_eq_true hsign, if_pos rfl]
      omega
    · rw [decide_eq_false hsign, if_neg Bool.false_ne_true]
      omega
  simp [decimal, sign_decimalText, wholeDigits_toDigits, fitting?_toDigits hvalue h]

theorem decimalText_eq_cons (i : Int) : ∃ c cs, decimalText i = c :: cs ∧
    (c = '-' ∧ i < 0 ∨ c.isDigit = true ∧ (c = '0' → cs = [])) := by
  unfold decimalText
  split
  · rename_i hsign
    exact ⟨_, _, rfl, .inl ⟨rfl, hsign⟩⟩
  · have hdigits := isDigit_toDigits i.natAbs
    cases hn : Nat.toDigits 10 i.natAbs with
    | nil => exact absurd hn Nat.toDigits_ne_nil
    | cons d ds =>
      rw [hn] at hdigits
      refine ⟨d, ds, rfl, .inr ⟨hdigits d List.mem_cons_self, ?_⟩⟩
      rintro rfl
      exact toDigits_eq_zero_cons hn

theorem integer_decimalText {i : Int} (h : inRange i = true) (rest : List Char) :
    integer (decimalText i ++ '\n' :: rest) = some (i, '\n' :: rest) := by
  obtain ⟨c, cs, htext, hfirst⟩ := decimalText_eq_cons i
  have hbase : ∀ {letter : Char} {tail : List Char}, letter ≠ '\n' →
      decimalText i ++ '\n' :: rest ≠ '0' :: letter :: tail := by
    intro letter tail hletter heq
    rw [htext, List.cons_append] at heq
    obtain ⟨rfl, htail⟩ := List.cons.inj heq
    rcases hfirst with ⟨hminus, -⟩ | ⟨-, hzero⟩
    · exact absurd hminus (by decide)
    · rw [hzero rfl] at htail
      exact hletter (List.cons.inj htail).1.symm
  unfold integer
  split
  · exact absurd ‹_› (hbase (by decide))
  · exact absurd ‹_› (hbase (by decide))
  · exact absurd ‹_› (hbase (by decide))
  · exact decimal_decimalText h rest

theorem float_decimalText (i : Int) (rest : List Char) :
    float (decimalText i ++ '\n' :: rest) = none := by
  have hexponent : exponent? ('\n' :: rest) = none := rfl
  have hfinite : finite (decimalText i ++ '\n' :: rest) = none := by
    simp [finite, sign_decimalText, wholeDigits_toDigits, hexponent]
  have hword : ∀ {letter : Char} (word : List Char), letter.isDigit = false →
      expectWord (letter :: word) (Nat.toDigits 10 i.natAbs ++ '\n' :: rest) = none := by
    intro letter word hletter
    have hdigits := isDigit_toDigits i.natAbs
    cases hn : Nat.toDigits 10 i.natAbs with
    | nil => exact absurd hn Nat.toDigits_ne_nil
    | cons d ds =>
      rw [hn] at hdigits
      have hne : d ≠ letter := ne_of_test (hdigits d List.mem_cons_self) hletter
      rw [List.cons_append, expectWord, expect, if_neg hne]
      rfl
  rw [float, hfinite, sign_decimalText, hword _ (by decide), hword _ (by decide)]
  rfl

theorem number_toString {i : Int} (h : inRange i = true) (rest : List Char) :
    number ((toString i).toList ++ '\n' :: rest) = some (.integer i, '\n' :: rest) := by
  rw [toList_toString, number, float_decimalText, integer_decimalText h]
  have hdatetime : datetime (decimalText i ++ '\n' :: rest) = none := by
    unfold decimalText
    split
    · simp [datetime, date, time, fixed, show isDigitOf 10 '-' = false by decide]
    · exact datetime_eq_none (fun c hc => isDigitOf_of_isDigit (isDigit_toDigits _ c hc)) rest
  rw [hdatetime]
  rfl

end ContentTree.Toml

import GiPricing.Score.Scoring

/-! # Positional texts

A number that is written with a fixed number of places is read back as the number it was.
-/

namespace GiPricing

open Decimal

theorem digitChar_props : ∀ d < 10, isDigit (Nat.digitChar d) = true ∧
    digitValue (Nat.digitChar d) = d ∧ isSpace (Nat.digitChar d) = false ∧
    Nat.digitChar d ≠ '_' ∧ Nat.digitChar d ≠ '-' ∧ Nat.digitChar d ≠ '+' := by decide

/-- A character that is the digit of a number below ten. -/
def AsciiDigit (c : Char) : Prop := ∃ d < 10, c = Nat.digitChar d

theorem asciiDigit_of_isDigit {c : Char} (h : c.isDigit) : AsciiDigit c := by
  obtain ⟨h₁, h₂⟩ := Char.isDigit_iff_toNat.mp h
  have h₁ : 48 ≤ c.toNat := h₁
  have h₂ : c.toNat ≤ 57 := h₂
  refine ⟨c.toNat - 48, by omega, ?_⟩
  apply Char.toNat_inj.mp
  rw [Nat.toNat_digitChar_of_lt_ten (by omega)]
  omega

theorem asciiDigit_zero : AsciiDigit '0' := ⟨0, by omega, rfl⟩

theorem asciiDigit_of_mem_toDigits {n : ℕ} {c : Char} (h : c ∈ Nat.toDigits 10 n) : AsciiDigit c :=
  asciiDigit_of_isDigit (Nat.isDigit_of_mem_toDigits (by omega) (by omega) h)

namespace AsciiDigit

variable {c : Char} (h : AsciiDigit c)

include h

theorem isDigit : isDigit c = true := by obtain ⟨d, hd, rfl⟩ := h; exact (digitChar_props d hd).1

theorem isSpace : isSpace c = false := by
  obtain ⟨d, hd, rfl⟩ := h; exact (digitChar_props d hd).2.2.1

theorem ne_underscore : c ≠ '_' := by
  obtain ⟨d, hd, rfl⟩ := h; exact (digitChar_props d hd).2.2.2.1

theorem ne_minus : c ≠ '-' := by
  obtain ⟨d, hd, rfl⟩ := h; exact (digitChar_props d hd).2.2.2.2.1

theorem ne_plus : c ≠ '+' := by
  obtain ⟨d, hd, rfl⟩ := h; exact (digitChar_props d hd).2.2.2.2.2

theorem digitValue : digitValue c = c.toNat - '0'.toNat := by
  obtain ⟨d, hd, rfl⟩ := h
  rw [(digitChar_props d hd).2.1, Nat.toNat_digitChar_of_lt_ten hd]
  simp

end AsciiDigit

theorem digitsValue_eq_ofDigitChars {ds : List Char} (h : ∀ c ∈ ds, AsciiDigit c) :
    digitsValue ds = Nat.ofDigitChars 10 ds 0 := by
  rw [digitsValue, Nat.ofDigitChars_eq_foldl]
  exact List.foldl_ext _ _ _ fun n c hc => by rw [(h c hc).digitValue]

theorem digitsValue_padded (k n : ℕ) :
    digitsValue (List.replicate k '0' ++ Nat.toDigits 10 n) = n := by
  rw [digitsValue_eq_ofDigitChars, Nat.ofDigitChars_append, Nat.ofDigitChars_replicate_zero]
  · simp
  · intro c hc
    rcases List.mem_append.mp hc with hc | hc
    · exact (List.eq_of_mem_replicate hc) ▸ asciiDigit_zero
    · exact asciiDigit_of_mem_toDigits hc

theorem takeWhile_digits {ds r : List Char} (h : ∀ c ∈ ds, AsciiDigit c)
    (hr : r.takeWhile isDigit = []) : (ds ++ r).takeWhile isDigit = ds := by
  rw [List.takeWhile_append_of_pos fun c hc => (h c hc).isDigit, hr, List.append_nil]

theorem dropWhile_digits {ds r : List Char} (h : ∀ c ∈ ds, AsciiDigit c)
    (hr : r.dropWhile isDigit = r) : (ds ++ r).dropWhile isDigit = r := by
  rw [List.dropWhile_append_of_pos fun c hc => (h c hc).isDigit, hr]

theorem parseMagnitude_digits {whole fraction : List Char} (hw : ∀ c ∈ whole, AsciiDigit c)
    (hf : ∀ c ∈ fraction, AsciiDigit c) (hne : whole ≠ []) :
    parseMagnitude (whole ++ if fraction = [] then [] else '.' :: fraction) =
      some ((digitsValue (whole ++ fraction) : ℚ) / 10 ^ fraction.length) := by
  have hempty : whole.isEmpty = false := by simpa using hne
  by_cases hfr : fraction = []
  · subst hfr
    have htake := takeWhile_digits (r := []) hw rfl
    have hdrop := dropWhile_digits (r := []) hw rfl
    rw [List.append_nil] at htake hdrop
    simp [parseMagnitude, htake, hdrop, hempty, parseExponent]
  · have hpoint : isDigit '.' = false := by decide
    have htake : (whole ++ '.' :: fraction).takeWhile isDigit = whole :=
      takeWhile_digits hw (by simp [hpoint])
    have hdrop : (whole ++ '.' :: fraction).dropWhile isDigit = '.' :: fraction :=
      dropWhile_digits hw (by simp [hpoint])
    have htake' : fraction.takeWhile isDigit = fraction := by
      simpa using takeWhile_digits (r := []) hf rfl
    have hdrop' : fraction.dropWhile isDigit = [] := by
      simpa using dropWhile_digits (r := []) hf rfl
    simp [parseMagnitude, hfr, htake, hdrop, htake', hdrop', hempty, parseExponent]

theorem strip_digits {cs : List Char} (h : ∀ c ∈ cs, isSpace c = false) :
    ((cs.dropWhile isSpace).reverse.dropWhile isSpace).reverse = cs := by
  have hdrop : ∀ l : List Char, (∀ c ∈ l, isSpace c = false) → l.dropWhile isSpace = l := by
    intro l hl
    cases l with
    | nil => rfl
    | cons c l => simp [hl c List.mem_cons_self]
  rw [hdrop cs h, hdrop _ (fun c hc => h c (List.mem_reverse.mp hc)), List.reverse_reverse]

theorem takeSign_digits {cs : List Char} {c : Char} (h : AsciiDigit c) :
    takeSign (c :: cs) = (false, c :: cs) := by
  unfold takeSign
  split
  · rename_i heq; exact absurd (List.cons.inj heq).1 h.ne_minus
  · rename_i heq; exact absurd (List.cons.inj heq).1 h.ne_plus
  · rfl

/-- The parts of a positional text: a sign for a number below zero, whole digits, and as many digits
after a point as there are places. -/
theorem fixedText_parts (n : ℤ) (dp : ℕ) : ∃ whole fraction : List Char,
    (∀ c ∈ whole, AsciiDigit c) ∧ (∀ c ∈ fraction, AsciiDigit c) ∧ whole ≠ [] ∧
      fraction.length = dp ∧ digitsValue (whole ++ fraction) = n.natAbs ∧
        (fixedText n dp).toList = (if n < 0 then ['-'] else []) ++
          (whole ++ if fraction = [] then [] else '.' :: fraction) := by
  set digits := Nat.toDigits 10 n.natAbs with hdigits
  set padded := List.replicate (dp + 1 - digits.length) '0' ++ digits with hpadded
  have hpad : ∀ c ∈ padded, AsciiDigit c := by
    intro c hc
    rcases List.mem_append.mp hc with hc | hc
    · exact (List.eq_of_mem_replicate hc) ▸ asciiDigit_zero
    · exact asciiDigit_of_mem_toDigits hc
  have hlength : dp + 1 ≤ padded.length := by
    rw [hpadded, List.length_append, List.length_replicate]
    omega
  have hflen : (padded.drop (padded.length - dp)).length = dp := by
    rw [List.length_drop]
    omega
  have hdot : (dp = 0) = (padded.drop (padded.length - dp) = []) := by
    rw [← List.length_eq_zero_iff, hflen]
  refine ⟨padded.take (padded.length - dp), padded.drop (padded.length - dp),
    fun c hc => hpad c (List.mem_of_mem_take hc), fun c hc => hpad c (List.mem_of_mem_drop hc),
    ?_, hflen, ?_, ?_⟩
  · rw [← List.length_pos_iff, List.length_take]
    omega
  · rw [List.take_append_drop, hpadded, hdigits]
    exact digitsValue_padded _ _
  · simp only [fixedText, String.toList_ofList, hdot, List.append_assoc, ← hdigits, ← hpadded]

/-- A sign, whole digits and digits after a point are read as the number that they are. -/
theorem parse_positional {whole fraction : List Char} (hw : ∀ c ∈ whole, AsciiDigit c)
    (hf : ∀ c ∈ fraction, AsciiDigit c) (hne : whole ≠ []) (negative : Prop) [Decidable negative] :
    parse (String.ofList ((if negative then ['-'] else []) ++
        (whole ++ if fraction = [] then [] else '.' :: fraction))) =
      let value := (digitsValue (whole ++ fraction) : ℚ) / 10 ^ fraction.length
      some (.finite (if negative then -value else value)) := by
  set body := whole ++ if fraction = [] then [] else '.' :: fraction with hbody
  have hmagnitude := parseMagnitude_digits hw hf hne
  rw [← hbody] at hmagnitude
  set text := (if negative then ['-'] else []) ++ body with htext
  have hplain : ∀ c ∈ text, isSpace c = false ∧ c ≠ '_' := by
    intro c hc
    have hc' : c = '-' ∨ c = '.' ∨ AsciiDigit c := by
      rw [htext, hbody] at hc
      by_cases hn : negative <;> by_cases he : fraction = [] <;> simp [hn, he] at hc <;> grind
    rcases hc' with rfl | rfl | hc'
    · decide
    · decide
    · exact ⟨hc'.isSpace, hc'.ne_underscore⟩
  have hfilter : text.filter (· ≠ '_') = text := by
    rw [List.filter_eq_self]
    intro c hc
    simpa using (hplain c hc).2
  rw [parse, String.toList_ofList, strip_digits fun c hc => (hplain c hc).1, hfilter, htext]
  by_cases hn : negative
  · simp only [hn, ite_true, List.singleton_append, takeSign, hmagnitude]
  · obtain ⟨c, cs, hcs⟩ := List.exists_cons_of_ne_nil hne
    have hsign : takeSign body = (false, body) := by
      rw [hbody, hcs, List.cons_append]
      exact takeSign_digits (hw c (hcs ▸ List.mem_cons_self))
    simp [hn, hsign, hmagnitude]

theorem parse_fixedText (n : ℤ) (dp : ℕ) :
    parse (fixedText n dp) = some (.finite ((n : ℚ) / 10 ^ dp)) := by
  obtain ⟨whole, fraction, hw, hf, hne, hflen, hvalue, htext⟩ := fixedText_parts n dp
  rw [← String.ofList_toList (s := fixedText n dp), htext, parse_positional hw hf hne, hvalue, hflen]
  by_cases hn : n < 0
  · have habs : ((n.natAbs : ℕ) : ℚ) = -(n : ℚ) := by
      have h : (n.natAbs : ℤ) = -n := by omega
      rw [← Int.cast_natCast, h, Int.cast_neg]
    simp only [hn, ite_true, habs]
    congr 2
    ring
  · have habs : ((n.natAbs : ℕ) : ℚ) = (n : ℚ) := by
      have h : (n.natAbs : ℤ) = n := by omega
      rw [← Int.cast_natCast, h]
    simp only [hn, ite_false, habs]

end GiPricing

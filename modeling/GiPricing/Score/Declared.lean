import GiPricing.Score.Positional
import GiPricing.Score.Served

/-! # Outputs in their declared types

The scorer writes an output from the exact value of its step, and the batch writer checks it against
the declared type. The two agree on all values of an algorithm but those named below.
-/

namespace GiPricing

open Decimal Failure

variable {steps : List RatingStep} {result : Context} {o : AlgorithmOutput} {v : Value}

/-! ## The check of the batch writer -/

def knownOutputTypes : List String :=
  ["money_minor", "int", "count", "decimal", "relativity", "percentage", "bool", "string", "date"]

def takeMinus : List Char → Bool × List Char
  | '-' :: t => (true, t)
  | t => (false, t)

/-- Digits, and digits after a point; a signed text is not zero. -/
def positionalBody (negative : Bool) (body : List Char) : Bool :=
  let whole := body.takeWhile Char.isDigit
  match body.dropWhile Char.isDigit with
  | [] => !whole.isEmpty && !(negative && whole.all (· = '0'))
  | c :: fraction => !whole.isEmpty && c = '.' && !fraction.isEmpty &&
      fraction.all Char.isDigit && !(negative && (whole ++ fraction).all (· = '0'))

/-- `(?!-0+(\.0+)?$)-?[0-9]+(\.[0-9]+)?` over the whole text. -/
def positionalDecimal (text : List Char) : Bool :=
  positionalBody (takeMinus text).1 (takeMinus text).2

/-- `_coerce_output_value` -/
def coerceOutputValue (declaredType : String) (value : Value) : Except Raised Value :=
  if declaredType ∉ knownOutputTypes then .error .valueError
  else if declaredType = "money_minor" then match value with
    | .int n => .ok (.int n)
    | _ => .error .valueError
  else if integralTypes.contains declaredType then match value with
    | .int n => .ok (.int n)
    | .float (.finite q) => if q.den = 1 then .ok (.int q.num) else .error .valueError
    | _ => .error .valueError
  else if decimalFamily.contains declaredType then match value with
    | .text s => if positionalDecimal s.toList then .ok (.text s) else .error .valueError
    | _ => .error .valueError
  else if declaredType = "bool" then match value with
    | .bool b => .ok (.bool b)
    | _ => .error .valueError
  else if declaredType = "string" ∨ declaredType = "date" then match value with
    | .text s => .ok (.text s)
    | _ => .error .valueError
  else .error .assertion

/-! ## What is read -/

/-- What the scorer reads for an output: the exact value, the plain one, or nothing. -/
inductive OutputReading
  | exact (n : Number)
  | plain (v : Value)
  | absent

def outputReading (result : Context) (o : AlgorithmOutput) (name : String) : OutputReading :=
  match if o.readsExact then exactRead result name else none with
  | some n => .exact n
  | none => match result name with
    | some v => .plain v
    | none => .absent

/-- What holds of the reading of an output that a step reports. -/
def OnReading (steps : List RatingStep) (result : Context) (P : RoundSpec → OutputReading → Prop)
    (o : AlgorithmOutput) : Prop :=
  ∃ name rounding, outputSource steps o = some (name, rounding) ∧
    P rounding (outputReading result o name)

/-! ## The property -/

/-- The value that is written for each declared output, or the output that raises. -/
def writtenOutputs (algorithm : RatingAlgorithmDraft) (result : Context) :
    Except (AlgorithmOutput × Raised) (List (AlgorithmOutput × Value)) :=
  (algorithm.outputs.mapM fun o => ((buildOutput algorithm.steps result o).mapError (o, ·)).map
    fun v => v.map (o, ·)).map List.reduceOption

def places (text : String) : ℕ := (text.toList.dropWhile (· ≠ '.')).length - 1

/-- A text of the declared number of places, of the exact value rounded once. -/
def RoundedOnce (steps : List RatingStep) (result : Context) (o : AlgorithmOutput) (v : Value) :
    Prop := ∃ name rounding q text, outputSource steps o = some (name, rounding) ∧
  exactRead result name = some (.finite q) ∧ v = .text text ∧ places text = rounding.dp ∧
    parse text =
      some (.finite ((roundInt rounding.mode (q * 10 ^ rounding.dp) : ℚ) / 10 ^ rounding.dp))

/-- The output is accepted as it is, and a decimal one is rounded once. -/
def AcceptedOutput (steps : List RatingStep) (result : Context) (o : AlgorithmOutput) (v : Value) :
    Prop :=
  coerceOutputValue o.type v = .ok v ∧
    (decimalFamily.contains o.type = true → RoundedOnce steps result o v)

/-- An exact value raises a coded error only, and each value that is served, the last written under
its name, is accepted as it is and is the exact value rounded once where its type is a decimal. -/
def ServesDeclared (algorithm : RatingAlgorithmDraft) (result : Context) : Prop :=
  match writtenOutputs algorithm result with
  | .error (o, e) => OnReading algorithm.steps result (fun _ r => ∃ n, r = .exact n) o →
      ∃ refusal, e = .coded refusal
  | .ok written => ∀ pre o v post, written = pre ++ (o, v) :: post →
      (∀ x ∈ post, x.1.name ≠ o.name) → AcceptedOutput algorithm.steps result o v

/-! ## The condition -/

namespace OutputReading

/-- An integer output whose exact value is not whole, or a decimal with a value and no exact one. -/
def Refused (o : AlgorithmOutput) : OutputReading → Prop
  | exact (.finite q) => integralTypes.contains o.type = true ∧ q.den ≠ 1
  | exact (.nan false) => integralTypes.contains o.type = true
  | exact _ => False
  | plain v => decimalFamily.contains o.type = true ∧ v ≠ .null
  | absent => False

/-- An exact value whose writing fails without a code: one that is not finite, money at a scale, or
more digits than the context has. -/
def Unwritten (o : AlgorithmOutput) (rounding : RoundSpec) : OutputReading → Prop
  | exact (.finite q) => integralTypes.contains o.type = false ∧
      if decimalFamily.contains o.type then
        10 ^ prec ≤ |roundInt rounding.mode (q * 10 ^ rounding.dp)|
      else rounding.dp ≠ 0 ∨ 10 ^ prec ≤ |roundInt rounding.mode q|
  | exact (.nan false) => integralTypes.contains o.type = false ∧
      decimalFamily.contains o.type = false
  | exact _ => True
  | plain _ => False
  | absent => False

/-- The values that a type holds. -/
def HasType (type : String) : Value → Prop
  | .int _ => type ∈ ["money_minor", "int", "count"]
  | .bool _ => type = "bool"
  | .text _ => type ∈ ["string", "date"]
  | _ => False

/-- The declared type takes what is read: a finite exact value of a number's type, or a plain value
of the type itself. -/
def Fits (o : AlgorithmOutput) : OutputReading → Prop
  | exact (.finite _) => o.type ∈ ["money_minor", "int", "count", "decimal", "relativity",
      "percentage"]
  | exact _ => False
  | plain v => HasType o.type v
  | absent => True

end OutputReading

/-- An output is refused by design before any that cannot be written, or every output is written and
the last one read under each name fits its type. -/
def Declarable (algorithm : RatingAlgorithmDraft) (result : Context) : Prop :=
  (∃ pre o post, algorithm.outputs = pre ++ o :: post ∧
    OnReading algorithm.steps result (fun _ => OutputReading.Refused o) o ∧
      ∀ x ∈ pre, ¬ OnReading algorithm.steps result (OutputReading.Unwritten x) x) ∨
  ((∀ o ∈ algorithm.outputs, ¬ OnReading algorithm.steps result (OutputReading.Unwritten o) o) ∧
    ∀ pre o post, algorithm.outputs = pre ++ o :: post →
      (∀ x ∈ post, x.name = o.name →
        ¬ OnReading algorithm.steps result (fun _ r => r ≠ .absent) x) →
          ¬ OnReading algorithm.steps result (fun _ r => ¬ r.Fits o) o)

/-! ## What is written from a reading -/

/-- The writing of one output from its reading. -/
def writeOutput (o : AlgorithmOutput) (rounding : RoundSpec) :
    OutputReading → Except Raised (Option Value)
  | .exact n =>
    if integralTypes.contains o.type then (integralValue o n).map fun k => some (.int k)
    else if decimalFamily.contains o.type then
      (roundToText rounding n).map fun t => some (.text t)
    else (roundMinor rounding n).map fun k => some (.int k)
  | .plain v =>
    if decimalFamily.contains o.type && v ≠ .null then .error .valueError else .ok (some v)
  | .absent => .ok none

theorem buildOutput_of_no_source (h : outputSource steps o = none) :
    buildOutput steps result o = .ok none := by
  unfold outputSource at h
  unfold buildOutput
  cases hstep : outputStep steps o.name with
  | none => rfl
  | some e =>
    rw [hstep, Option.bind_some, Option.map_eq_none_iff] at h
    simp only [h]

theorem buildOutput_of_source {name : String} {rounding : RoundSpec}
    (h : outputSource steps o = some (name, rounding)) :
    buildOutput steps result o = writeOutput o rounding (outputReading result o name) := by
  obtain ⟨e, hstep, h⟩ := Option.bind_eq_some_iff.mp h
  obtain ⟨name', hname, hpair⟩ := Option.map_eq_some_iff.mp h
  obtain ⟨rfl, rfl⟩ := Prod.mk.inj hpair
  unfold buildOutput outputReading
  simp only [hstep, hname]
  cases if o.readsExact = true then exactRead result name' else none with
  | some n => rfl
  | none =>
    cases result name' with
    | none => rfl
    | some v => rfl

/-! ## The texts -/

theorem AsciiDigit.isDigit_char {c : Char} (h : AsciiDigit c) : c.isDigit = true := by
  obtain ⟨d, hd, rfl⟩ := h
  exact (by decide : ∀ d < 10, (Nat.digitChar d).isDigit = true) d hd

theorem digitsValue_zeros {ds : List Char} (h : ∀ c ∈ ds, c = '0') : digitsValue ds = 0 := by
  have hds : ds = List.replicate ds.length '0' ++ [] := by
    rw [List.append_nil]
    exact List.eq_replicate_iff.mpr ⟨rfl, h⟩
  have hzero : ∀ k, digitsValue (List.replicate k '0') = 0 := by
    intro k
    rw [digitsValue_eq_ofDigitChars fun c hc => (List.eq_of_mem_replicate hc) ▸ asciiDigit_zero]
    simp [Nat.ofDigitChars_replicate_zero]
  rw [hds, List.append_nil]
  exact hzero _

theorem positionalBody_digits {negative : Bool} {whole fraction : List Char}
    (hw : ∀ c ∈ whole, c.isDigit = true) (hf : ∀ c ∈ fraction, c.isDigit = true) (hne : whole ≠ [])
    (hzero : negative = true → ¬ ∀ c ∈ whole ++ fraction, c = '0') :
    positionalBody negative (whole ++ if fraction = [] then [] else '.' :: fraction) = true := by
  have hpoint : Char.isDigit '.' = false := by decide
  have hnonzero : (negative && (whole ++ fraction).all (· = '0')) = false := by
    cases negative with
    | false => rfl
    | true =>
      rw [Bool.true_and, Bool.eq_false_iff, Ne, List.all_eq_true]
      simpa only [decide_eq_true_eq] using hzero rfl
  by_cases hfr : fraction = []
  · subst hfr
    rw [List.append_nil] at hnonzero
    rw [if_pos rfl, List.append_nil, positionalBody, List.takeWhile_eq_self_iff.mpr hw,
      List.dropWhile_eq_nil_iff.mpr hw]
    simp only [List.isEmpty_eq_false_iff.mpr hne, hnonzero, Bool.not_false, Bool.and_self]
  · have htake : (whole ++ '.' :: fraction).takeWhile Char.isDigit = whole := by
      rw [List.takeWhile_append_of_pos hw, List.takeWhile_cons_of_neg (by simp [hpoint]),
        List.append_nil]
    have hdrop : (whole ++ '.' :: fraction).dropWhile Char.isDigit = '.' :: fraction := by
      rw [List.dropWhile_append_of_pos hw, List.dropWhile_cons_of_neg (by simp [hpoint])]
    rw [if_neg hfr, positionalBody, htake, hdrop]
    simp only [List.isEmpty_eq_false_iff.mpr hne, List.isEmpty_eq_false_iff.mpr hfr, hnonzero,
      List.all_eq_true.mpr hf, decide_true, Bool.not_false, Bool.and_self]

theorem positionalDecimal_fixedText (n : ℤ) (dp : ℕ) :
    positionalDecimal (fixedText n dp).toList = true := by
  obtain ⟨whole, fraction, hw, hf, hne, -, hvalue, htext⟩ := fixedText_parts n dp
  have hminus : takeMinus (fixedText n dp).toList =
      (decide (n < 0), whole ++ if fraction = [] then [] else '.' :: fraction) := by
    rw [htext]
    by_cases hn : n < 0
    · simp [hn, takeMinus]
    · obtain ⟨c, cs, rfl⟩ := List.exists_cons_of_ne_nil hne
      have hc := (hw c List.mem_cons_self).ne_minus
      simp only [hn, if_false, List.nil_append, List.cons_append, decide_false]
      unfold takeMinus
      split
      · rename_i heq
        exact absurd (List.cons.inj heq).1 hc
      · rfl
  rw [positionalDecimal, hminus]
  apply positionalBody_digits (fun c hc => (hw c hc).isDigit_char)
    (fun c hc => (hf c hc).isDigit_char) hne
  intro hn hall
  rw [digitsValue_zeros hall] at hvalue
  have := of_decide_eq_true hn
  omega

theorem places_fixedText (n : ℤ) (dp : ℕ) : places (fixedText n dp) = dp := by
  obtain ⟨whole, fraction, hw, -, -, hlength, -, htext⟩ := fixedText_parts n dp
  have hne : ∀ c ∈ (if n < 0 then ['-'] else []) ++ whole, decide (c ≠ '.') = true := by
    intro c hc
    rcases List.mem_append.mp hc with hc | hc
    · split_ifs at hc
      · rw [List.mem_singleton.mp hc]
        decide
      · cases hc
    · obtain ⟨d, hd, rfl⟩ := hw c hc
      exact (by decide : ∀ d < 10, decide (Nat.digitChar d ≠ '.') = true) d hd
  rw [places, htext, ← List.append_assoc, List.dropWhile_append_of_pos hne]
  split_ifs with hfr
  · rw [← hlength, hfr]
    rfl
  · rw [List.dropWhile_cons_of_neg (by decide), List.length_cons, Nat.add_sub_cancel, hlength]

/-! ## One output -/

section

attribute [local simp] coerceOutputValue knownOutputTypes integralTypes decimalFamily

/-- A plain value is accepted as it is where the type holds it. -/
theorem coerceOutputValue_plain {type : String}
    (hnull : decimalFamily.contains type = true → v = .null) :
    coerceOutputValue type v = .ok v ↔ OutputReading.HasType type v := by
  by_cases hknown : type ∈ knownOutputTypes
  · simp only [knownOutputTypes, List.mem_cons, List.not_mem_nil, or_false] at hknown
    rcases hknown with rfl | rfl | rfl | rfl | rfl | rfl | rfl | rfl | rfl
    case inr.inr.inr.inl | inr.inr.inr.inr.inl | inr.inr.inr.inr.inr.inl =>
      rw [hnull (by decide)]
      simp [OutputReading.HasType]
    all_goals cases v
    case inr.inl.float n | inr.inr.inl.float n =>
      simp only [OutputReading.HasType, iff_false]
      intro h
      cases n with
      | finite q =>
        change (if q.den = 1 then _ else _) = _ at h
        split_ifs at h
        all_goals cases h
      | _ => cases h
    all_goals
      simp [OutputReading.HasType]
  · have hrefused : coerceOutputValue type v = .error .valueError := if_pos hknown
    rw [hrefused]
    refine iff_of_false (by simp) fun h => hknown ?_
    unfold OutputReading.HasType at h
    split at h
    · simp only [List.mem_cons, List.not_mem_nil, or_false] at h
      rcases h with rfl | rfl | rfl <;> decide
    · rw [h]
      decide
    · simp only [List.mem_cons, List.not_mem_nil, or_false] at h
      rcases h with rfl | rfl <;> decide
    · exact h.elim

theorem integral_not_decimal {type : String} (h : integralTypes.contains type = true) :
    decimalFamily.contains type = false := by
  simp only [integralTypes, List.contains_eq_mem, List.mem_cons, List.not_mem_nil, or_false,
    decide_eq_true_eq] at h
  rcases h with rfl | rfl <;> decide

theorem coerceOutputValue_int {type : String} (k : ℤ) :
    coerceOutputValue type (.int k) = .ok (.int k) ↔ type ∈ ["money_minor", "int", "count"] := by
  by_cases hdecimal : decimalFamily.contains type = true
  · simp only [decimalFamily, List.contains_eq_mem, List.mem_cons, List.not_mem_nil, or_false,
      decide_eq_true_eq] at hdecimal
    rcases hdecimal with rfl | rfl | rfl
    all_goals simp
  · exact coerceOutputValue_plain fun h => absurd h hdecimal

theorem coerceOutputValue_text {type text : String} (h : decimalFamily.contains type = true)
    (htext : positionalDecimal text.toList = true) :
    coerceOutputValue type (.text text) = .ok (.text text) := by
  simp only [decimalFamily, List.contains_eq_mem, List.mem_cons, List.not_mem_nil, or_false,
    decide_eq_true_eq] at h
  rcases h with rfl | rfl | rfl
  all_goals simp [htext]

theorem coerceOutputValue_nan {type : String} (h : decimalFamily.contains type = true) :
    coerceOutputValue type (.text "NaN") ≠ .ok (.text "NaN") := by
  have hnan : positionalDecimal ['N', 'a', 'N'] = false := by decide
  simp only [decimalFamily, List.contains_eq_mem, List.mem_cons, List.not_mem_nil, or_false,
    decide_eq_true_eq] at h
  rcases h with rfl | rfl | rfl
  all_goals simp [hnan]

end

section OneOutput

variable {rounding : RoundSpec} {r : OutputReading}

theorem writeOutput_refused (h : r.Refused o) :
    ∃ e, writeOutput o rounding r = .error e ∧
      ((∃ n, r = .exact n) → ∃ refusal, e = .coded refusal) := by
  cases r with
  | exact n =>
    cases n with
    | finite q =>
      obtain ⟨hintegral, hden⟩ := h
      exact ⟨_, by rw [writeOutput, if_pos hintegral, integralValue, if_neg hden]; rfl,
        fun _ => ⟨_, rfl⟩⟩
    | nan signalling =>
      cases signalling with
      | false =>
        have hintegral : integralTypes.contains o.type = true := h
        exact ⟨_, by rw [writeOutput, if_pos hintegral]; rfl, fun _ => ⟨_, rfl⟩⟩
      | true => exact h.elim
    | infinite negative => exact h.elim
  | plain v =>
    obtain ⟨hdecimal, hnull⟩ := h
    refine ⟨.valueError, ?_, by simp⟩
    rw [writeOutput, if_pos (by simp [hnull, List.elem_iff.mp hdecimal])]
  | absent => exact h.elim

theorem roundMinor_of_dp {n : Number} (h : rounding.dp ≠ 0) :
    roundMinor rounding n = .error .notImplemented := if_pos h

theorem roundMinor_of_units {n : Number} (h : rounding.dp = 0) :
    roundMinor rounding n = (roundable rounding.mode n).map (roundInt rounding.mode) :=
  if_neg (not_not.mpr h)

theorem writeOutput_signals {n : Number} (hround : roundToText rounding n = .error .arithmetic)
    (hinteger : integralValue o n = .error .arithmetic)
    (hminor : roundable rounding.mode n = .error .arithmetic) :
    ∃ e, writeOutput o rounding (.exact n) = .error e ∧ ∀ refusal, e ≠ .coded refusal := by
  rw [writeOutput]
  split_ifs
  · exact ⟨.arithmetic, by rw [hinteger]; rfl, by simp⟩
  · exact ⟨.arithmetic, by rw [hround]; rfl, by simp⟩
  · by_cases hdp : rounding.dp = 0
    · exact ⟨.arithmetic, by rw [roundMinor_of_units hdp, hminor]; rfl, by simp⟩
    · exact ⟨.notImplemented, by rw [roundMinor_of_dp hdp]; rfl, by simp⟩

theorem writeOutput_unwritten (h : r.Unwritten o rounding) :
    ∃ e, writeOutput o rounding r = .error e ∧ ∀ refusal, e ≠ .coded refusal := by
  cases r with
  | exact n =>
    cases n with
    | finite q =>
      obtain ⟨hintegral, h⟩ := h
      rw [writeOutput, if_neg (by simpa using hintegral)]
      by_cases hdecimal : decimalFamily.contains o.type = true
      · rw [if_pos hdecimal] at h
        refine ⟨.arithmetic, ?_, by simp⟩
        rw [if_pos hdecimal, roundToText, if_neg (not_lt.mpr h)]
        rfl
      · rw [if_neg hdecimal] at h ⊢
        by_cases hdp : rounding.dp = 0
        · refine ⟨.arithmetic, ?_, by simp⟩
          have hdigits := h.resolve_left (by simp [hdp])
          rw [roundMinor_of_units hdp, roundable, if_neg (not_lt.mpr hdigits)]
          rfl
        · exact ⟨.notImplemented, by rw [roundMinor_of_dp hdp]; rfl, by simp⟩
    | nan signalling =>
      cases signalling with
      | false =>
        obtain ⟨hintegral, hdecimal⟩ := h
        rw [writeOutput, if_neg (by simpa using hintegral), if_neg (by simpa using hdecimal)]
        by_cases hdp : rounding.dp = 0
        · exact ⟨.valueError, by rw [roundMinor_of_units hdp]; rfl, by simp⟩
        · exact ⟨.notImplemented, by rw [roundMinor_of_dp hdp]; rfl, by simp⟩
      | true => exact writeOutput_signals rfl rfl rfl
    | infinite negative => exact writeOutput_signals rfl rfl rfl
  | plain v => exact h.elim
  | absent => exact h.elim

/-- What is written is accepted and rounded once where the reading fits. -/
theorem writeOutput_written (hrefused : ¬ r.Refused o) (hwritten : ¬ r.Unwritten o rounding) :
    ∃ w, writeOutput o rounding r = .ok w ∧ (w = none ↔ r = .absent) ∧
      (r.Fits o ↔ ∀ v ∈ w, coerceOutputValue o.type v = .ok v) ∧
      (r.Fits o → decimalFamily.contains o.type = true → ∀ v ∈ w, ∃ q text, r = .exact (.finite q) ∧
        v = .text text ∧ places text = rounding.dp ∧ parse text = some (.finite
          ((roundInt rounding.mode (q * 10 ^ rounding.dp) : ℚ) / 10 ^ rounding.dp))) := by
  cases r with
  | exact n =>
    cases n with
    | finite q =>
      by_cases hinteger : integralTypes.contains o.type = true
      · have hden : q.den = 1 := by
          by_contra hden
          exact hrefused ⟨hinteger, hden⟩
        have htype : o.type ∈ ["int", "count"] := by simpa [integralTypes] using hinteger
        refine ⟨some (.int q.num), ?_, by simp, ?_, ?_⟩
        · rw [writeOutput, if_pos hinteger, integralValue, if_pos hden]
          rfl
        · refine iff_of_true ?_ ?_
          · change o.type ∈ _
            simp only [List.mem_cons, List.not_mem_nil, or_false] at htype ⊢
            tauto
          · rintro _ ⟨⟩
            apply (coerceOutputValue_int q.num).mpr
            exact List.mem_cons_of_mem _ htype
        · intro _ hdecimal
          rw [integral_not_decimal hinteger] at hdecimal
          cases hdecimal
      · have hbound := fun h => hwritten ⟨by simpa using hinteger, h⟩
        by_cases hdecimal : decimalFamily.contains o.type = true
        · rw [if_pos hdecimal] at hbound
          have hlt := not_le.mp hbound
          refine ⟨some (.text (fixedText (roundInt rounding.mode (q * 10 ^ rounding.dp))
            rounding.dp)), ?_, by simp, ?_, ?_⟩
          · rw [writeOutput, if_neg hinteger, if_pos hdecimal, roundToText, if_pos hlt]
            rfl
          · refine iff_of_true ?_ ?_
            · change o.type ∈ _
              have htype : o.type ∈ decimalFamily := List.elem_iff.mp hdecimal
              exact List.mem_append_right ["money_minor", "int", "count"] htype
            · rintro _ ⟨⟩
              exact coerceOutputValue_text hdecimal (positionalDecimal_fixedText _ _)
          · rintro - - _ ⟨⟩
            exact ⟨q, _, rfl, rfl, places_fixedText _ _, parse_fixedText _ _⟩
        · rw [if_neg hdecimal] at hbound
          obtain ⟨hscale, hdigits⟩ := not_or.mp hbound
          have hdp := not_not.mp hscale
          have hlt := not_le.mp hdigits
          refine ⟨some (.int (roundInt rounding.mode q)), ?_, by simp, ?_,
            fun _ h => absurd h hdecimal⟩
          · rw [writeOutput, if_neg hinteger, if_neg hdecimal, roundMinor_of_units hdp, roundable,
              if_pos hlt]
            rfl
          · have haccepted : (∀ v ∈ some (Value.int (roundInt rounding.mode q)),
                coerceOutputValue o.type v = .ok v) ↔ o.type ∈ ["money_minor", "int", "count"] := by
              rw [← coerceOutputValue_int (roundInt rounding.mode q)]
              simp
            rw [haccepted, OutputReading.Fits]
            simp only [integralTypes, decimalFamily, List.contains_eq_mem, List.mem_cons,
              List.not_mem_nil, or_false, decide_eq_true_eq] at hinteger hdecimal ⊢
            tauto
    | nan signalling =>
      cases signalling with
      | false =>
        have hinteger : ¬ integralTypes.contains o.type = true := hrefused
        have hdecimal : decimalFamily.contains o.type = true := by
          by_contra hdecimal
          exact hwritten ⟨by simpa using hinteger, by simpa using hdecimal⟩
        refine ⟨some (.text "NaN"), ?_, by simp, ?_, fun h => h.elim⟩
        · rw [writeOutput, if_neg hinteger, if_pos hdecimal]
          rfl
        · exact iff_of_false id fun h => coerceOutputValue_nan hdecimal (h _ rfl)
      | true => exact absurd trivial hwritten
    | infinite negative => exact absurd trivial hwritten
  | plain v =>
    have hnull : decimalFamily.contains o.type = true → v = .null := by
      intro hdecimal
      by_contra hne
      exact hrefused ⟨hdecimal, hne⟩
    refine ⟨some v, ?_, by simp, ?_, ?_⟩
    · rw [writeOutput, if_neg]
      simp only [Bool.and_eq_true, decide_eq_true_eq]
      exact fun h => h.2 (hnull h.1)
    · rw [OutputReading.Fits, ← coerceOutputValue_plain hnull]
      simp
    · intro hfits hdecimal
      rw [hnull hdecimal] at hfits
      exact hfits.elim
  | absent => exact ⟨none, rfl, by simp, by simp [OutputReading.Fits], by simp⟩

end OneOutput

/-! ## All outputs -/

theorem buildOutput_refused (h : OnReading steps result (fun _ => OutputReading.Refused o) o) :
    ∃ e, buildOutput steps result o = .error e ∧
      (OnReading steps result (fun _ r => ∃ n, r = .exact n) o →
        ∃ refusal, e = .coded refusal) := by
  obtain ⟨name, rounding, hsource, h⟩ := h
  rw [buildOutput_of_source hsource]
  obtain ⟨e, he, hcoded⟩ := writeOutput_refused h
  refine ⟨e, he, ?_⟩
  rintro ⟨name', rounding', hsource', hexact⟩
  rw [hsource] at hsource'
  cases hsource'
  exact hcoded hexact

theorem OutputReading.Unwritten.exact {rounding : RoundSpec} {r : OutputReading}
    (h : r.Unwritten o rounding) : ∃ n, r = .exact n := by
  cases r with
  | exact n => exact ⟨n, rfl⟩
  | plain v => exact h.elim
  | absent => exact h.elim

theorem buildOutput_unwritten (h : OnReading steps result (OutputReading.Unwritten o) o) :
    OnReading steps result (fun _ r => ∃ n, r = .exact n) o ∧
      ∃ e, buildOutput steps result o = .error e ∧ ∀ refusal, e ≠ .coded refusal := by
  obtain ⟨name, rounding, hsource, h⟩ := h
  refine ⟨⟨name, rounding, hsource, h.exact⟩, ?_⟩
  rw [buildOutput_of_source hsource]
  exact writeOutput_unwritten h

theorem exactRead_of_reading {name : String} {n : Number}
    (h : outputReading result o name = .exact n) : exactRead result name = some n := by
  unfold outputReading at h
  split at h
  · rename_i m hread
    cases h
    split_ifs at hread
    exact hread
  · split at h
    all_goals cases h

/-- An output that is neither refused nor unwritten is accepted where its reading fits. -/
theorem buildOutput_accepted
    (hrefused : ¬ OnReading steps result (fun _ => OutputReading.Refused o) o)
    (hwritten : ¬ OnReading steps result (OutputReading.Unwritten o) o) :
    ∃ w, buildOutput steps result o = .ok w ∧
      (w = none ↔ ¬ OnReading steps result (fun _ r => r ≠ .absent) o) ∧
      ((∀ v ∈ w, AcceptedOutput steps result o v) ↔
        ¬ OnReading steps result (fun _ r => ¬ r.Fits o) o) := by
  cases hsource : outputSource steps o with
  | none =>
    have hnone : ∀ P, ¬ OnReading steps result P o := by
      rintro P ⟨name, rounding, hsource', -⟩
      rw [hsource] at hsource'
      cases hsource'
    exact ⟨none, buildOutput_of_no_source hsource, iff_of_true rfl (hnone _),
      iff_of_true (by simp) (hnone _)⟩
  | some e =>
    obtain ⟨name, rounding⟩ := e
    have hreads : ∀ P, OnReading steps result P o ↔ P rounding (outputReading result o name) := by
      intro P
      constructor
      · rintro ⟨name', rounding', hsource', h⟩
        rw [hsource] at hsource'
        cases hsource'
        exact h
      · exact fun h => ⟨name, rounding, hsource, h⟩
    simp only [hreads] at hrefused hwritten ⊢
    obtain ⟨w, hw, hnone, hfits, hrounded⟩ := writeOutput_written hrefused hwritten
    refine ⟨w, (buildOutput_of_source hsource).trans hw, by rw [hnone, not_not], ?_⟩
    rw [not_not, hfits]
    constructor
    · exact fun h v hv => (h v hv).1
    · intro h v hv
      refine ⟨h v hv, fun hdecimal => ?_⟩
      obtain ⟨q, text, hreading, htext, hplaces, hparse⟩ := hrounded (hfits.mpr h) hdecimal v hv
      exact ⟨name, rounding, q, text, hsource, exactRead_of_reading hreading, htext, hplaces,
        hparse⟩

/-- What is written for one output, under the output. -/
def outputWritten (steps : List RatingStep) (result : Context) (o : AlgorithmOutput) :
    Option (AlgorithmOutput × Value) :=
  match buildOutput steps result o with
  | .ok (some v) => some (o, v)
  | _ => none

theorem outputWritten_eq_some {x : AlgorithmOutput} :
    outputWritten steps result x = some (o, v) ↔
      x = o ∧ buildOutput steps result o = .ok (some v) := by
  unfold outputWritten
  constructor
  · intro h
    split at h
    · rename_i hx
      cases h
      exact ⟨rfl, hx⟩
    · cases h
  · rintro ⟨rfl, h⟩
    rw [h]

theorem outputWritten_of_ok {w : Option Value} (h : buildOutput steps result o = .ok w) :
    outputWritten steps result o = w.map (o, ·) := by
  rw [outputWritten, h]
  cases w with
  | none => rfl
  | some v => rfl

section AllOutputs

variable {algorithm : RatingAlgorithmDraft}

theorem writtenOutputs_ok
    (h : ∀ o ∈ algorithm.outputs, ∃ w, buildOutput algorithm.steps result o = .ok w) :
    writtenOutputs algorithm result =
      .ok (algorithm.outputs.filterMap (outputWritten algorithm.steps result)) := by
  have hm : (algorithm.outputs.mapM fun o =>
      ((buildOutput algorithm.steps result o).mapError (o, ·)).map fun v => v.map (o, ·)) =
        .ok (algorithm.outputs.map (outputWritten algorithm.steps result)) := by
    rw [mapM_eq_ok, List.forall₂_map_right_iff, List.forall₂_same]
    intro o ho
    obtain ⟨w, hw⟩ := h o ho
    rw [outputWritten_of_ok hw, hw]
    rfl
  rw [writtenOutputs, hm]
  simp only [Except.map, List.reduceOption, List.filterMap_map, Function.comp_def, id]

theorem writtenOutputs_error {e : Raised} :
    writtenOutputs algorithm result = .error (o, e) ↔ ∃ pre post,
      algorithm.outputs = pre ++ o :: post ∧
        (∀ x ∈ pre, ∃ w, buildOutput algorithm.steps result x = .ok w) ∧
          buildOutput algorithm.steps result o = .error e := by
  have hok : ∀ x : AlgorithmOutput, (∃ b,
      ((buildOutput algorithm.steps result x).mapError (x, ·)).map
        (fun v => v.map (x, ·)) = .ok b) ↔ ∃ w, buildOutput algorithm.steps result x = .ok w := by
    intro x
    cases buildOutput algorithm.steps result x with
    | error e => simp [Except.map, Except.mapError]
    | ok w => simp [Except.map, Except.mapError]
  have herror : ∀ x : AlgorithmOutput, ((buildOutput algorithm.steps result x).mapError (x, ·)).map
      (fun v => v.map (x, ·)) = .error (o, e) ↔
        x = o ∧ buildOutput algorithm.steps result o = .error e := by
    intro x
    cases hx : buildOutput algorithm.steps result x with
    | error e' =>
      simp only [Except.map, Except.mapError, Except.error.injEq, Prod.mk.injEq]
      constructor
      · rintro ⟨rfl, rfl⟩
        exact ⟨rfl, hx⟩
      · rintro ⟨rfl, h⟩
        rw [hx] at h
        exact ⟨rfl, Except.error.inj h⟩
    | ok w =>
      simp only [Except.map, Except.mapError, reduceCtorEq, false_iff]
      rintro ⟨rfl, h⟩
      rw [hx] at h
      cases h
  have hmap : ∀ y : Except (AlgorithmOutput × Raised) (List (Option (AlgorithmOutput × Value))),
      y.map List.reduceOption = .error (o, e) ↔ y = .error (o, e) := by
    intro y
    cases y with
    | error e' => simp [Except.map]
    | ok l => simp [Except.map]
  rw [writtenOutputs, hmap, mapM_eq_error]
  simp only [hok, herror]
  constructor
  · rintro ⟨pre, x, post, hl, hpre, rfl, hx⟩
    exact ⟨pre, post, hl, hpre, hx⟩
  · rintro ⟨pre, post, hl, hpre, hx⟩
    exact ⟨pre, o, post, hl, hpre, rfl, hx⟩

theorem exists_buildOutput_ok {written : List (AlgorithmOutput × Value)}
    (h : writtenOutputs algorithm result = .ok written) :
    ∀ o ∈ algorithm.outputs, ∃ w, buildOutput algorithm.steps result o = .ok w := by
  obtain ⟨l, hl, -⟩ := map_eq_ok.mp h
  intro o ho
  obtain ⟨b, hb⟩ := exists_mapM_ok_iff.mp ⟨l, hl⟩ o ho
  obtain ⟨w, hw, -⟩ := map_eq_ok.mp hb
  exact ⟨w, mapError_eq_ok.mp hw⟩

/-- The served outputs are the written ones under their names. -/
theorem buildOutputs_eq_written : buildOutputs algorithm result =
    ((writtenOutputs algorithm result).mapError Prod.snd).map
      fun written => written.map fun e => (e.1.name, e.2) := by
  cases hwritten : writtenOutputs algorithm result with
  | error e =>
    obtain ⟨o, e⟩ := e
    obtain ⟨pre, post, hl, hpre, ho⟩ := writtenOutputs_error.mp hwritten
    have hm : (algorithm.outputs.mapM fun o =>
        (buildOutput algorithm.steps result o).map fun v => v.map (o.name, ·)) = .error e := by
      refine mapM_eq_error.mpr ⟨pre, o, post, hl, ?_, by rw [ho]; rfl⟩
      intro x hx
      obtain ⟨w, hw⟩ := hpre x hx
      exact ⟨_, by rw [hw]; rfl⟩
    rw [buildOutputs, hm]
    rfl
  | ok written =>
    have hall := exists_buildOutput_ok hwritten
    have hm : (algorithm.outputs.mapM fun o =>
        (buildOutput algorithm.steps result o).map fun v => v.map (o.name, ·)) =
          .ok (algorithm.outputs.map fun o =>
            (outputWritten algorithm.steps result o).map fun e => (e.1.name, e.2)) := by
      rw [mapM_eq_ok, List.forall₂_map_right_iff, List.forall₂_same]
      intro o ho
      obtain ⟨w, hw⟩ := hall o ho
      rw [outputWritten_of_ok hw, hw]
      cases w with
      | none => rfl
      | some v => rfl
    rw [writtenOutputs_ok hall] at hwritten
    obtain rfl := Except.ok.inj hwritten
    rw [buildOutputs, hm]
    simp only [Except.map, Except.mapError, List.reduceOption, List.filterMap_map,
      List.map_filterMap, Function.comp_def, id]

theorem not_refused_of_ok {w : Option Value} (h : buildOutput steps result o = .ok w) :
    ¬ OnReading steps result (fun _ => OutputReading.Refused o) o := by
  intro hrefused
  obtain ⟨e, he, -⟩ := buildOutput_refused hrefused
  rw [h] at he
  cases he

theorem not_unwritten_of_ok {w : Option Value} (h : buildOutput steps result o = .ok w) :
    ¬ OnReading steps result (OutputReading.Unwritten o) o := by
  intro hunwritten
  obtain ⟨-, e, he, -⟩ := buildOutput_unwritten hunwritten
  rw [h] at he
  cases he

theorem refused_of_error {e : Raised} (h : buildOutput steps result o = .error e)
    (hwritten : ¬ OnReading steps result (OutputReading.Unwritten o) o) :
    OnReading steps result (fun _ => OutputReading.Refused o) o := by
  by_contra hrefused
  obtain ⟨w, hw, -⟩ := buildOutput_accepted hrefused hwritten
  rw [h] at hw
  cases hw

theorem coded_of_refused {e : Raised} (h : buildOutput steps result o = .error e)
    (hrefused : OnReading steps result (fun _ => OutputReading.Refused o) o)
    (hexact : OnReading steps result (fun _ r => ∃ n, r = .exact n) o) :
    ∃ refusal, e = .coded refusal := by
  obtain ⟨e', he, hcoded⟩ := buildOutput_refused hrefused
  rw [h] at he
  cases he
  exact hcoded hexact

theorem head_cases {α : Type*} {pre post pre' post' : List α} {a a' : α}
    (h : pre ++ a :: post = pre' ++ a' :: post') : a ∈ pre' ∨ a = a' ∨ a' ∈ pre := by
  rcases List.append_eq_append_iff.mp h with ⟨mid, rfl, hmid⟩ | ⟨mid, rfl, hmid⟩
  · cases mid with
    | nil => exact .inr (.inl (List.cons.inj hmid).1)
    | cons x mid => exact .inl (by simp [(List.cons.inj hmid).1])
  · cases mid with
    | nil => exact .inr (.inl (List.cons.inj hmid).1.symm)
    | cons x mid => exact .inr (.inr (by simp [(List.cons.inj hmid).1]))

theorem declarable_of_error {e : Raised} (h : writtenOutputs algorithm result = .error (o, e)) :
    Declarable algorithm result ↔
      (OnReading algorithm.steps result (fun _ r => ∃ n, r = .exact n) o →
        ∃ refusal, e = .coded refusal) := by
  obtain ⟨pre, post, hl, hpre, ho⟩ := writtenOutputs_error.mp h
  constructor
  · rintro (⟨pre', o', post', hl', hrefused, hpre'⟩ | ⟨hall, -⟩)
    · rcases head_cases (hl.symm.trans hl') with hmem | rfl | hmem
      · exact coded_of_refused ho (refused_of_error ho (hpre' o hmem))
      · exact coded_of_refused ho hrefused
      · obtain ⟨w, hw⟩ := hpre o' hmem
        exact absurd hrefused (not_refused_of_ok hw)
    · have hmem : o ∈ algorithm.outputs := by simp [hl]
      exact coded_of_refused ho (refused_of_error ho (hall o hmem))
  · intro hcoded
    have hwritten : ¬ OnReading algorithm.steps result (OutputReading.Unwritten o) o := by
      intro hunwritten
      obtain ⟨hexact, e', he', hne⟩ := buildOutput_unwritten hunwritten
      rw [ho] at he'
      cases he'
      obtain ⟨refusal, rfl⟩ := hcoded hexact
      exact hne refusal rfl
    refine .inl ⟨pre, o, post, hl, refused_of_error ho hwritten, ?_⟩
    intro x hx
    obtain ⟨w, hw⟩ := hpre x hx
    exact not_unwritten_of_ok hw

/-- The written values are accepted where the last reading under each name fits. -/
theorem declarable_of_written {written : List (AlgorithmOutput × Value)}
    (h : writtenOutputs algorithm result = .ok written) :
    Declarable algorithm result ↔ ∀ pre o v post, written = pre ++ (o, v) :: post →
      (∀ x ∈ post, x.1.name ≠ o.name) → AcceptedOutput algorithm.steps result o v := by
  have hall := exists_buildOutput_ok h
  rw [writtenOutputs_ok hall] at h
  obtain rfl := Except.ok.inj h
  have hread : ∀ o ∈ algorithm.outputs, ∃ w, buildOutput algorithm.steps result o = .ok w ∧
      (w = none ↔ ¬ OnReading algorithm.steps result (fun _ r => r ≠ .absent) o) ∧
      ((∀ v ∈ w, AcceptedOutput algorithm.steps result o v) ↔
        ¬ OnReading algorithm.steps result (fun _ r => ¬ r.Fits o) o) := by
    intro o ho
    obtain ⟨w, hw⟩ := hall o ho
    exact buildOutput_accepted (not_refused_of_ok hw) (not_unwritten_of_ok hw)
  constructor
  · rintro (⟨pre, o, post, hl, hrefused, -⟩ | ⟨-, hfits⟩)
    · obtain ⟨w, hw⟩ := hall o (by simp [hl])
      exact absurd hrefused (not_refused_of_ok hw)
    · intro pre o v post hsplit hlast
      obtain ⟨l₁, l₂, hl, -, htail⟩ := List.filterMap_eq_append_iff.mp hsplit
      obtain ⟨m₁, a, m₂, rfl, -, ha, rfl⟩ := List.filterMap_eq_cons_iff.mp htail
      obtain ⟨rfl, hwritten⟩ := outputWritten_eq_some.mp ha
      rw [← List.append_assoc] at hl
      obtain ⟨w, hw, -, haccepted⟩ := hread a (by simp [hl])
      obtain rfl := Except.ok.inj (hw.symm.trans hwritten)
      refine haccepted.mpr (hfits _ a m₂ hl ?_) v rfl
      intro x hx hname
      obtain ⟨w, hw, hnone, -⟩ := hread x (by simp [hl, hx])
      apply hnone.mp
      by_contra hne
      obtain ⟨u, rfl⟩ := Option.ne_none_iff_exists'.mp hne
      exact hlast (x, u) (List.mem_filterMap.mpr ⟨x, hx, outputWritten_of_ok hw⟩) hname
  · intro haccepted
    refine .inr ⟨?_, ?_⟩
    · intro o ho
      obtain ⟨w, hw⟩ := hall o ho
      exact not_unwritten_of_ok hw
    · intro pre o post hl hlast
      obtain ⟨w, hw, -, hiff⟩ := hread o (by simp [hl])
      apply hiff.mp
      rintro v hv
      obtain rfl : w = some v := hv
      refine haccepted (pre.filterMap (outputWritten algorithm.steps result)) o v
        (post.filterMap (outputWritten algorithm.steps result)) ?_ ?_
      · rw [hl, List.filterMap_append, List.filterMap_cons_some (outputWritten_of_ok hw)]
      · intro x hx
        obtain ⟨y, hy, hyx⟩ := List.mem_filterMap.mp hx
        obtain ⟨rfl, hyv⟩ := outputWritten_eq_some.mp hyx
        intro hname
        obtain ⟨u, hu, hnone, -⟩ := hread x.1 (by simp [hl, hy])
        rw [hnone.mpr (hlast _ hy hname), hyv] at hu
        cases hu

/-- The outputs are served as declared exactly where they can be declared so. -/
theorem servesDeclared_iff (algorithm : RatingAlgorithmDraft) (result : Context) :
    ServesDeclared algorithm result ↔ Declarable algorithm result := by
  unfold ServesDeclared
  split
  · rename_i o e hwritten
    exact (declarable_of_error hwritten).symm
  · rename_i written hwritten
    exact (declarable_of_written hwritten).symm

end AllOutputs

section Example

/-- An algorithm that reports a rate at a hundred places. -/
def rateAlgorithm : RatingAlgorithm where
  slug := "motor"
  version := 1
  inputContract := [{ name := "rate", type := .decimal }]
  outputs := [{ name := "rate_out", type := "percentage" }]
  steps := [
    { stepId := "in", consumes := [], produces := ["rate"], kind := .input "rate" .error },
    { stepId := "out", consumes := ["rate"], produces := [],
      kind := .output "rate_out" ⟨.halfEven, 100⟩ }]
  subGraphs := []
  graph_ok := by decide

def wholeRate : Context := fun key =>
  [("rate", .int 1), ("__exact__rate", .text "1")].lookup key

/-- One at a hundred places has more digits than the context. -/
theorem wholeRate_not_served :
    buildOutputs rateAlgorithm.toRatingAlgorithmDraft wholeRate = .error .arithmetic ∧
      ¬ ServesDeclared rateAlgorithm.toRatingAlgorithmDraft wholeRate := by
  have hbuild : writtenOutputs rateAlgorithm.toRatingAlgorithmDraft wholeRate =
      .error ({ name := "rate_out", type := "percentage" }, .arithmetic) := by with_unfolding_all decide
  refine ⟨by rw [buildOutputs_eq_written, hbuild]; rfl, ?_⟩
  intro h
  unfold ServesDeclared at h
  rw [hbuild] at h
  have hexact : exactRead wholeRate "rate" = some (.finite 1) := by with_unfolding_all decide
  obtain ⟨refusal, hrefusal⟩ := h ⟨"rate", ⟨.halfEven, 100⟩, by decide, .finite 1, by
    unfold outputReading
    rw [if_pos (by decide), hexact]⟩
  cases hrefusal

end Example

end GiPricing

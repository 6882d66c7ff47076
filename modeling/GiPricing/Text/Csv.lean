import Mathlib.Tactic

/-! # Comma-separated text

A writer that quotes a field where it must, a reader that goes character by character, and when the
reader gives back what the writer wrote. Both are of the default dialect with the line end `\n`.
-/

namespace GiPricing.Csv

/-- A field the writer quotes. Whether a carriage return is quoted is up to the writer. -/
def needsQuote (quotesReturn : Bool) (field : List Char) : Bool :=
  field.any fun c => c = ',' || c = '"' || c = '\n' || (quotesReturn && c = '\r')

def escape (field : List Char) : List Char := field.flatMap fun c => if c = '"' then ['"', '"'] else [c]

def writeField (quotesReturn : Bool) (field : List Char) : List Char :=
  if needsQuote quotesReturn field then '"' :: escape field ++ ['"'] else field

def writeFields (quotesReturn : Bool) : List (List Char) → List Char
  | [] => ['\n']
  | [f] => writeField quotesReturn f ++ ['\n']
  | f :: fs => writeField quotesReturn f ++ ',' :: writeFields quotesReturn fs

/-- `writerow`: a row of one empty field is quoted, for an empty line is no field. -/
def writeRow (quotesReturn : Bool) (fields : List (List Char)) : List Char :=
  if fields = [[]] then ['"', '"', '\n'] else writeFields quotesReturn fields

def write (quotesReturn : Bool) (rows : List (List (List Char))) : List Char :=
  rows.flatMap (writeRow quotesReturn)

inductive Mode
  | startRecord
  | startField
  | inField
  | inQuoted
  | quoteInQuoted
  | eatNewline
  deriving DecidableEq

def fieldLimit : ℕ := 131072

/-- The rows of a text, from a mode, a field and the fields before it in the row; `none` where the
reader raises. -/
def read : Mode → List Char → List (List Char) → List Char → Option (List (List (List Char)))
  | .startRecord, _, _, [] => some []
  | .eatNewline, _, fields, [] => some [fields]
  | _, field, fields, [] => some [fields ++ [field]]
  | mode, field, fields, c :: cs =>
    match mode with
    | .startRecord =>
      if c = '\n' then (read .startRecord [] [] cs).map ([] :: ·)
      else if c = '\r' then read .eatNewline [] [] cs
      else if c = '"' then read .inQuoted [] [] cs
      else if c = ',' then read .startField [] [[]] cs
      else read .inField [c] [] cs
    | .startField =>
      if c = '\n' then (read .startRecord [] [] cs).map ((fields ++ [field]) :: ·)
      else if c = '\r' then read .eatNewline [] (fields ++ [field]) cs
      else if c = '"' then read .inQuoted field fields cs
      else if c = ',' then read .startField [] (fields ++ [field]) cs
      else read .inField (field ++ [c]) fields cs
    | .inField =>
      if c = '\n' then (read .startRecord [] [] cs).map ((fields ++ [field]) :: ·)
      else if c = '\r' then read .eatNewline [] (fields ++ [field]) cs
      else if c = ',' then read .startField [] (fields ++ [field]) cs
      else if field.length < fieldLimit then read .inField (field ++ [c]) fields cs else none
    | .inQuoted =>
      if c = '"' then read .quoteInQuoted field fields cs
      else if field.length < fieldLimit then read .inQuoted (field ++ [c]) fields cs else none
    | .quoteInQuoted =>
      if c = '"' then
        if field.length < fieldLimit then read .inQuoted (field ++ [c]) fields cs else none
      else if c = ',' then read .startField [] (fields ++ [field]) cs
      else if c = '\n' then (read .startRecord [] [] cs).map ((fields ++ [field]) :: ·)
      else if c = '\r' then read .eatNewline [] (fields ++ [field]) cs
      else if field.length < fieldLimit then read .inField (field ++ [c]) fields cs else none
    | .eatNewline =>
      if c = '\n' then (read .startRecord [] [] cs).map (fields :: ·)
      else if c = '\r' then read .eatNewline [] fields cs
      else none

/-- `csv.reader` over a whole text. -/
def readRows (text : List Char) : Option (List (List (List Char))) := read .startRecord [] [] text

section

attribute [local simp] read

theorem read_startRecord {c : Char} {cs : List Char} (hline : c ≠ '\n') (hreturn : c ≠ '\r') :
    read .startRecord [] [] (c :: cs) = read .startField [] [] (c :: cs) := by
  simp [hline, hreturn]

end

/-- A field the reader gives back: not too long, and quoted if it has a carriage return. -/
structure Clean (quotesReturn : Bool) (field : List Char) : Prop where
  short : field.length ≤ fieldLimit
  quoted : '\r' ∈ field → needsQuote quotesReturn field = true

section RoundTrip

variable {q : Bool} {field f rest : List Char} {fields : List (List Char)} {sep : Char}

/-- What a separator after a field leads to. -/
def closing (sep : Char) (fields : List (List Char)) (rest : List Char) :
    Option (List (List (List Char))) :=
  if sep = ',' then read .startField [] fields rest
  else (read .startRecord [] [] rest).map (fields :: ·)

def IsPlain (f : List Char) : Prop := ∀ c ∈ f, c ≠ ',' ∧ c ≠ '"' ∧ c ≠ '\n' ∧ c ≠ '\r'

theorem unquoted (hq : needsQuote q f = false) : ∀ c ∈ f, c ≠ ',' ∧ c ≠ '"' ∧ c ≠ '\n' := by
  intro c hc
  have hany := List.any_eq_false.mp hq c hc
  simp only [Bool.or_eq_true, decide_eq_true_eq, not_or] at hany
  exact ⟨hany.1.1.1, hany.1.1.2, hany.1.2⟩

theorem Clean.plain (h : Clean q f) (hq : needsQuote q f = false) : IsPlain f := by
  intro c hc
  obtain ⟨hcomma, hquote, hline⟩ := unquoted hq c hc
  refine ⟨hcomma, hquote, hline, ?_⟩
  rintro rfl
  rw [h.quoted hc] at hq
  cases hq

theorem read_inField (hf : IsPlain f) (hlen : field.length + f.length ≤ fieldLimit)
    (hsep : sep = ',' ∨ sep = '\n') :
    read .inField field fields (f ++ sep :: rest) = closing sep (fields ++ [field ++ f]) rest := by
  induction f generalizing field with
  | nil => rcases hsep with rfl | rfl <;> simp [read, closing]
  | cons c f ih =>
    obtain ⟨hcomma, hquote, hline, hreturn⟩ := hf c List.mem_cons_self
    rw [List.length_cons] at hlen
    have hlt : field.length < fieldLimit := by omega
    rw [List.cons_append, read]
    simp only [hline, hreturn, hcomma, if_false, if_pos hlt]
    rw [ih (fun d hd => hf d (List.mem_cons_of_mem _ hd)) (by simp; omega), List.append_assoc,
      List.singleton_append]

theorem read_inQuoted (hlen : field.length + f.length ≤ fieldLimit)
    (hsep : sep = ',' ∨ sep = '\n') :
    read .inQuoted field fields (escape f ++ '"' :: sep :: rest) =
      closing sep (fields ++ [field ++ f]) rest := by
  induction f generalizing field with
  | nil => rcases hsep with rfl | rfl <;> simp [read, closing, escape]
  | cons c f ih =>
    rw [List.length_cons] at hlen
    have hlt : field.length < fieldLimit := by omega
    have hrest := @ih (field ++ [c]) (by simp; omega)
    rw [List.append_assoc, List.singleton_append] at hrest
    rw [← hrest]
    by_cases hquote : c = '"'
    · subst hquote
      simp [escape, read, hlt]
    · simp [escape, hquote, read, hlt]

theorem read_field (hf : Clean q f) (hsep : sep = ',' ∨ sep = '\n') :
    read .startField [] fields (writeField q f ++ sep :: rest) =
      closing sep (fields ++ [f]) rest := by
  rw [writeField]
  split_ifs with hquoted
  · have h := @read_inQuoted [] f rest fields sep (by simpa using hf.short) hsep
    rw [List.nil_append] at h
    rw [← h]
    simp [read]
  · rw [Bool.not_eq_true] at hquoted
    have hplain := hf.plain hquoted
    cases f with
    | nil => rcases hsep with rfl | rfl <;> simp [read, closing]
    | cons c f =>
      obtain ⟨hcomma, hquote, hline, hreturn⟩ := hplain c List.mem_cons_self
      have hlen := hf.short
      rw [List.length_cons] at hlen
      have h := @read_inField [c] f rest fields sep (fun d hd => hplain d (List.mem_cons_of_mem _ hd))
        (by simp; omega) hsep
      rw [List.cons_append, read]
      simp only [hline, hreturn, hcomma, hquote, if_false, List.nil_append]
      exact h

theorem read_fields {row : List (List Char)} (hrow : row ≠ []) (hclean : ∀ f ∈ row, Clean q f) :
    read .startField [] fields (writeFields q row ++ rest) =
      (read .startRecord [] [] rest).map ((fields ++ row) :: ·) := by
  induction row generalizing fields with
  | nil => exact absurd rfl hrow
  | cons f row ih =>
    have hf := hclean f List.mem_cons_self
    cases row with
    | nil =>
      rw [writeFields, List.append_assoc, List.singleton_append, read_field hf (Or.inr rfl)]
      rfl
    | cons g row =>
      rw [writeFields, List.append_assoc, List.cons_append, read_field hf (Or.inl rfl), closing,
        if_pos rfl, ih (List.cons_ne_nil g row) fun d hd => hclean d (List.mem_cons_of_mem _ hd),
        List.append_assoc, List.singleton_append]
      exact List.cons_ne_nil g row

theorem writeFields_head {row : List (List Char)} (hrow : row ≠ []) (hone : row ≠ [[]]) :
    ∃ c cs, writeFields q row = c :: cs ∧ c ≠ '\n' ∧ ((∀ f ∈ row, Clean q f) → c ≠ '\r') := by
  have hfield : ∀ f, f ≠ [] →
      ∃ c cs, writeField q f = c :: cs ∧ c ≠ '\n' ∧ (Clean q f → c ≠ '\r') := by
    intro f hne
    rw [writeField]
    split_ifs with hquoted
    · exact ⟨'"', _, rfl, by decide, fun _ => by decide⟩
    · rw [Bool.not_eq_true] at hquoted
      obtain ⟨c, cs, rfl⟩ := List.exists_cons_of_ne_nil hne
      refine ⟨c, cs, rfl, (unquoted hquoted c List.mem_cons_self).2.2, fun hf => ?_⟩
      exact (hf.plain hquoted c List.mem_cons_self).2.2.2
  match row, hrow, hone with
  | [f], _, hone =>
    have hne : f ≠ [] := fun h => hone (h ▸ rfl)
    obtain ⟨c, cs, h, hline, hreturn⟩ := hfield f hne
    exact ⟨c, cs ++ ['\n'], by rw [writeFields, h, List.cons_append], hline,
      fun hclean => hreturn (hclean f List.mem_cons_self)⟩
  | [] :: g :: row, _, _ =>
    exact ⟨',', writeFields q (g :: row), rfl, by decide, fun _ => by decide⟩
  | (c' :: f) :: g :: row, _, _ =>
    obtain ⟨c, cs, h, hline, hreturn⟩ := hfield (c' :: f) (List.cons_ne_nil c' f)
    refine ⟨c, cs ++ ',' :: writeFields q (g :: row), ?_, hline,
      fun hclean => hreturn (hclean _ List.mem_cons_self)⟩
    rw [writeFields, h, List.cons_append]
    simp

theorem read_row {row : List (List Char)} (hrow : row ≠ []) (hclean : ∀ f ∈ row, Clean q f) :
    read .startRecord [] [] (writeRow q row ++ rest) =
      (read .startRecord [] [] rest).map (row :: ·) := by
  rw [writeRow]
  split_ifs with hone
  · rw [hone]
    simp [read]
  · have h := @read_fields q rest [] row hrow hclean
    obtain ⟨c, cs, hhead, hline, hreturn⟩ := @writeFields_head q row hrow hone
    rw [hhead, List.cons_append] at h ⊢
    rw [read_startRecord hline (hreturn hclean), h, List.nil_append]

theorem readRows_write {rows : List (List (List Char))} (hrows : ∀ row ∈ rows, row ≠ [])
    (hclean : ∀ row ∈ rows, ∀ f ∈ row, Clean q f) : readRows (write q rows) = some rows := by
  rw [readRows]
  induction rows with
  | nil => rfl
  | cons row rows ih =>
    rw [write, List.flatMap_cons, ← write, read_row (hrows row List.mem_cons_self)
      (hclean row List.mem_cons_self), ih (fun r hr => hrows r (List.mem_cons_of_mem _ hr))
      fun r hr => hclean r (List.mem_cons_of_mem _ hr)]
    rfl

/-! ## Fields that are not given back -/

/-- A row read up to a field that came back another: the reader ended the row there. -/
def Cut (row cut : List (List Char)) : Prop :=
  cut = [] ∨ ∃ before f f' after, row = before ++ f :: after ∧ cut = before ++ [f'] ∧ f' ≠ f

theorem Cut.ne {row cut : List (List Char)} (h : Cut row cut) (hrow : row ≠ []) : cut ≠ row := by
  rintro rfl
  rcases h with h | ⟨before, f, f', after, hsplit, hcut, hne⟩
  · exact hrow h
  · rw [hsplit] at hcut
    have hlast := List.append_cancel_left hcut
    exact hne (List.cons.inj hlast).1.symm

/-- A cut row of full length differs in its last field. -/
theorem Cut.last {row cut : List (List Char)} (h : Cut row cut) (hrow : row ≠ [])
    (hlen : cut.length = row.length) :
    ∃ before f f', row = before ++ [f] ∧ cut = before ++ [f'] ∧ f' ≠ f := by
  rcases h with rfl | ⟨before, f, f', after, rfl, rfl, hne⟩
  · exact absurd (List.length_eq_zero_iff.mp hlen.symm) hrow
  · have hafter : after = [] := by
      simp only [List.length_append, List.length_cons, List.length_nil] at hlen
      exact List.length_eq_zero_iff.mp (by omega)
    exact ⟨before, f, f', by rw [hafter], rfl, hne⟩

variable {out : List (List (List Char))}

theorem read_eatNewline {cs : List Char} (h : read .eatNewline [] fields cs = some out) :
    out.head? = some fields := by
  induction cs with
  | nil =>
    obtain rfl := Option.some.inj h
    rfl
  | cons c cs ih =>
    rw [read] at h
    split_ifs at h with hline hreturn
    · obtain ⟨rows, -, rfl⟩ := Option.map_eq_some_iff.mp h
      rfl
    · exact ih h

theorem read_inField_dirty (hf : ∀ c ∈ f, c ≠ ',' ∧ c ≠ '"' ∧ c ≠ '\n')
    (hfield : field.length ≤ fieldLimit)
    (hdirty : field.length + f.length ≤ fieldLimit → '\r' ∈ f)
    (h : read .inField field fields (f ++ rest) = some out) :
    ∃ f', f' ≠ field ++ f ∧ out.head? = some (fields ++ [f']) := by
  induction f generalizing field with
  | nil => cases hdirty hfield
  | cons c f ih =>
    obtain ⟨hcomma, hquote, hline⟩ := hf c List.mem_cons_self
    rw [List.cons_append, read] at h
    simp only [hline, hcomma, if_false] at h
    split_ifs at h with hreturn hlt
    · exact ⟨field, by simp, read_eatNewline h⟩
    · have hdirty' : (field ++ [c]).length + f.length ≤ fieldLimit → '\r' ∈ f := by
        intro hle
        have hmem := hdirty (by simp at hle ⊢; omega)
        exact (List.mem_cons.mp hmem).resolve_left (Ne.symm hreturn)
      have hrest := ih (fun d hd => hf d (List.mem_cons_of_mem _ hd)) (by simp; omega) hdirty' h
      rwa [List.append_assoc, List.singleton_append] at hrest

theorem read_inQuoted_long (hfield : field.length ≤ fieldLimit)
    (hlong : fieldLimit < field.length + f.length) :
    read .inQuoted field fields (escape f ++ rest) = none := by
  induction f generalizing field with
  | nil => simp at hlong; omega
  | cons c f ih =>
    rw [List.length_cons] at hlong
    by_cases hlt : field.length < fieldLimit
    · have hrest := @ih (field ++ [c]) (by simp; omega) (by simp; omega)
      by_cases hquote : c = '"'
      · subst hquote
        simpa [escape, read, hlt] using hrest
      · simpa [escape, hquote, read, hlt] using hrest
    · by_cases hquote : c = '"'
      · subst hquote
        simp [escape, read, hlt]
      · simp [escape, hquote, read, hlt]

theorem read_field_dirty (hf : ¬ Clean q f)
    (h : read .startField [] fields (writeField q f ++ rest) = some out) :
    ∃ f', f' ≠ f ∧ out.head? = some (fields ++ [f']) := by
  rw [writeField] at h
  split_ifs at h with hquoted
  · have hlong : fieldLimit < ([] : List Char).length + f.length := by
      by_contra hshort
      exact hf ⟨by simpa using hshort, fun _ => hquoted⟩
    have hnone := @read_inQuoted_long [] f ('"' :: rest) fields (Nat.zero_le _) hlong
    simp [read, hnone] at h
  · rw [Bool.not_eq_true] at hquoted
    have hplain := unquoted hquoted
    cases f with
    | nil => exact absurd ⟨Nat.zero_le _, by simp⟩ hf
    | cons c f =>
      obtain ⟨hcomma, hquote, hline⟩ := hplain c List.mem_cons_self
      rw [List.cons_append, read] at h
      simp only [hline, hcomma, hquote, if_false, List.nil_append] at h
      split_ifs at h with hreturn
      · exact ⟨[], by simp, read_eatNewline h⟩
      · have hdirty : [c].length + f.length ≤ fieldLimit → '\r' ∈ f := by
          intro hle
          by_contra hmem
          refine hf ⟨by simp at hle ⊢; omega, fun hin => absurd hin ?_⟩
          simpa [Ne.symm hreturn] using hmem
        have hone : [c].length ≤ fieldLimit := by simp [fieldLimit]
        exact read_inField_dirty (fun d hd => hplain d (List.mem_cons_of_mem _ hd)) hone hdirty h

theorem read_fields_dirty {row : List (List Char)} (hrow : row ≠ [])
    (hdirty : ∃ f ∈ row, ¬ Clean q f)
    (h : read .startField [] fields (writeFields q row ++ rest) = some out) :
    ∃ before f f' after, row = before ++ f :: after ∧ f' ≠ f ∧
      out.head? = some (fields ++ (before ++ [f'])) := by
  induction row generalizing fields with
  | nil => exact absurd rfl hrow
  | cons f row ih =>
    by_cases hf : Clean q f
    · have hdirty' : ∃ g ∈ row, ¬ Clean q g := by
        obtain ⟨g, hg, hbad⟩ := hdirty
        rcases List.mem_cons.mp hg with rfl | hg
        · exact absurd hf hbad
        · exact ⟨g, hg, hbad⟩
      cases row with
      | nil =>
        obtain ⟨g, hg, -⟩ := hdirty'
        cases hg
      | cons g row =>
        rw [writeFields, List.append_assoc, List.cons_append, read_field hf (Or.inl rfl), closing,
          if_pos rfl] at h
        · obtain ⟨before, g', f', after, hsplit, hne, hhead⟩ := ih (List.cons_ne_nil g row) hdirty' h
          refine ⟨f :: before, g', f', after, by rw [hsplit, List.cons_append], hne, ?_⟩
          rw [hhead, List.append_assoc]
          rfl
        · exact List.cons_ne_nil g row
    · have hread : ∃ rest', writeFields q (f :: row) ++ rest = writeField q f ++ rest' := by
        cases row with
        | nil => exact ⟨_, by rw [writeFields, List.append_assoc]⟩
        | cons g row => exact ⟨_, by rw [writeFields, List.append_assoc]; simp⟩
      obtain ⟨rest', hrest⟩ := hread
      rw [hrest] at h
      obtain ⟨f', hne, hhead⟩ := read_field_dirty hf h
      exact ⟨[], f, f', row, rfl, hne, by simpa using hhead⟩

theorem read_row_dirty {row : List (List Char)} (hdirty : ∃ f ∈ row, ¬ Clean q f)
    (h : read .startRecord [] [] (writeRow q row ++ rest) = some out) :
    ∃ cut, out.head? = some cut ∧ Cut row cut := by
  have hrow : row ≠ [] := by
    rintro rfl
    obtain ⟨f, hf, -⟩ := hdirty
    cases hf
  have hone : row ≠ [[]] := by
    rintro rfl
    obtain ⟨f, hf, hbad⟩ := hdirty
    rw [List.mem_singleton] at hf
    subst hf
    exact hbad ⟨Nat.zero_le _, by simp⟩
  rw [writeRow, if_neg hone] at h
  obtain ⟨c, cs, hhead, hline, -⟩ := @writeFields_head q row hrow hone
  by_cases hreturn : c = '\r'
  · rw [hhead, List.cons_append, read] at h
    simp only [hreturn] at h
    exact ⟨[], read_eatNewline (by simpa using h), Or.inl rfl⟩
  · have hstart : read .startField [] [] (writeFields q row ++ rest) = some out := by
      rw [hhead, List.cons_append] at h ⊢
      rwa [← read_startRecord hline hreturn]
    obtain ⟨before, f, f', after, hsplit, hne, hout⟩ := read_fields_dirty hrow hdirty hstart
    exact ⟨before ++ [f'], hout, Or.inr ⟨before, f, f', after, hsplit, rfl, hne⟩⟩

theorem readRows_write_dirty {rows : List (List (List Char))} (hrows : ∀ row ∈ rows, row ≠ [])
    (hdirty : ∃ row ∈ rows, ∃ f ∈ row, ¬ Clean q f) (h : readRows (write q rows) = some out) :
    ∃ (i : ℕ) (row cut : List (List Char)), rows[i]? = some row ∧ out[i]? = some cut ∧
      Cut row cut := by
  rw [readRows] at h
  induction rows generalizing out with
  | nil =>
    obtain ⟨row, hrow, -⟩ := hdirty
    cases hrow
  | cons row rows ih =>
    rw [write, List.flatMap_cons, ← write] at h
    by_cases hclean : ∀ f ∈ row, Clean q f
    · rw [read_row (hrows row List.mem_cons_self) hclean] at h
      obtain ⟨out, hout, rfl⟩ := Option.map_eq_some_iff.mp h
      have hdirty' : ∃ r ∈ rows, ∃ f ∈ r, ¬ Clean q f := by
        obtain ⟨r, hr, f, hf, hbad⟩ := hdirty
        rcases List.mem_cons.mp hr with rfl | hr
        · exact absurd (hclean f hf) hbad
        · exact ⟨r, hr, f, hf, hbad⟩
      obtain ⟨i, r, cut, hr, hcut, hrow⟩ :=
        ih (fun r hr => hrows r (List.mem_cons_of_mem _ hr)) hdirty' hout
      exact ⟨i + 1, r, cut, hr, hcut, hrow⟩
    · push Not at hclean
      obtain ⟨cut, hhead, hcut⟩ := read_row_dirty hclean h
      exact ⟨0, row, cut, rfl, by rw [← List.head?_eq_getElem?, hhead], hcut⟩

end RoundTrip

/-! ## What the reader refuses -/

/-- The mode and the length of the field after one more character. -/
def advance : Mode × ℕ → Char → Mode × ℕ
  | (.startRecord, _), c =>
    if c = '\n' then (.startRecord, 0) else if c = '\r' then (.eatNewline, 0)
    else if c = '"' then (.inQuoted, 0) else if c = ',' then (.startField, 0) else (.inField, 1)
  | (.startField, n), c =>
    if c = '\n' then (.startRecord, 0) else if c = '\r' then (.eatNewline, 0)
    else if c = '"' then (.inQuoted, n) else if c = ',' then (.startField, 0) else (.inField, n + 1)
  | (.inField, n), c =>
    if c = '\n' then (.startRecord, 0) else if c = '\r' then (.eatNewline, 0)
    else if c = ',' then (.startField, 0) else (.inField, n + 1)
  | (.inQuoted, n), c => if c = '"' then (.quoteInQuoted, n) else (.inQuoted, n + 1)
  | (.quoteInQuoted, n), c =>
    if c = '"' then (.inQuoted, n + 1) else if c = ',' then (.startField, 0)
    else if c = '\n' then (.startRecord, 0) else if c = '\r' then (.eatNewline, 0)
    else (.inField, n + 1)
  | (.eatNewline, _), c => if c = '\n' then (.startRecord, 0) else (.eatNewline, 0)

/-- A character at which the reader raises: one after a carriage return outside quotes that ends no
line, or one more than a field may have. -/
def Stuck : Mode × ℕ → Char → Prop
  | (.eatNewline, _), c => c ≠ '\n' ∧ c ≠ '\r'
  | (.inField, n), c => fieldLimit ≤ n ∧ c ≠ '\n' ∧ c ≠ '\r' ∧ c ≠ ','
  | (.inQuoted, n), c => fieldLimit ≤ n ∧ c ≠ '"'
  | (.quoteInQuoted, n), c => fieldLimit ≤ n ∧ c ≠ ',' ∧ c ≠ '\n' ∧ c ≠ '\r'
  | (.startRecord, _), _ | (.startField, _), _ => False

/-- Some character of the text is one at which the reader raises. -/
def RaisesFrom (state : Mode × ℕ) (text : List Char) : Prop :=
  ∃ before c after, text = before ++ c :: after ∧ Stuck (before.foldl advance state) c

theorem raisesFrom_nil {state : Mode × ℕ} : ¬ RaisesFrom state [] := by
  rintro ⟨before, c, after, h, -⟩
  simp at h

theorem raisesFrom_cons {state : Mode × ℕ} {c : Char} {cs : List Char} :
    RaisesFrom state (c :: cs) ↔ Stuck state c ∨ RaisesFrom (advance state c) cs := by
  constructor
  · rintro ⟨before, d, after, h, hstuck⟩
    cases before with
    | nil =>
      obtain ⟨rfl, -⟩ := List.cons.inj h
      exact Or.inl hstuck
    | cons b before =>
      obtain ⟨rfl, hrest⟩ := List.cons.inj h
      exact Or.inr ⟨before, d, after, hrest, hstuck⟩
  · rintro (hstuck | ⟨before, d, after, rfl, hstuck⟩)
    · exact ⟨[], c, cs, rfl, hstuck⟩
    · exact ⟨c :: before, d, after, rfl, hstuck⟩

theorem read_eq_none {mode : Mode} {field : List Char} {fields : List (List Char)}
    {cs : List Char} :
    read mode field fields cs = none ↔ RaisesFrom (mode, field.length) cs := by
  induction cs generalizing mode field fields with
  | nil =>
    refine iff_of_false ?_ raisesFrom_nil
    cases mode <;> simp [read]
  | cons c cs ih =>
    rw [raisesFrom_cons]
    cases mode <;> simp only [read, advance, Stuck] <;> split_ifs <;>
      simp_all [Option.map_eq_none_iff]

theorem readRows_eq_none {text : List Char} :
    readRows text = none ↔ RaisesFrom (.startRecord, 0) text := read_eq_none

end GiPricing.Csv

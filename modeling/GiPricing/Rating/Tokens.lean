import Mathlib.Data.List.TakeWhile
import GiPricing.Rating.Inline

/-! # The tokens of a renamed text

A renaming rewrites the text of a token in place, and the result is scanned again later. What is
read at the head of a text depends on the rest through one character, so a name that takes the
place of a name leaves the boundaries of its neighbours where they were.
-/

namespace GiPricing

/-! ## The texts of the tokens -/

def NumberText (w : List Char) : Prop :=
  ∃ ds, ds ≠ [] ∧ (∀ c ∈ ds, isDigit c = true) ∧
    (w = ds ∨ ∃ fs, fs ≠ [] ∧ (∀ c ∈ fs, isDigit c = true) ∧ w = ds ++ '.' :: fs)

def StringText (w : List Char) : Prop :=
  ∃ s : List Char, (∀ c ∈ s, c ≠ '\'' ∧ c ≠ '\n') ∧ w = '\'' :: s ++ ['\'']

/-- `_NAME.fullmatch`. -/
def NameText (w : List Char) : Prop :=
  ∃ c s, w = c :: s ∧ isWordStart c = true ∧ ∀ d ∈ s, isNameChar d = true

/-- The rest of a text does not begin with a character of the kind. -/
def Stops (p : Char → Bool) (r : List Char) : Prop := ∀ c ∈ r.head?, p c = false

theorem takeWhile_stops {p : Char → Bool} {r : List Char} (h : Stops p r) :
    r.takeWhile p = [] ∧ r.dropWhile p = r := by
  cases r with
  | nil => exact ⟨rfl, rfl⟩
  | cons c r =>
    have hc : p c = false := h c rfl
    exact ⟨List.takeWhile_cons_of_neg (by simp [hc]), List.dropWhile_cons_of_neg (by simp [hc])⟩

theorem takeWhile_append_stops {p : Char → Bool} {w r : List Char} (hw : ∀ c ∈ w, p c = true)
    (h : Stops p r) : (w ++ r).takeWhile p = w ∧ (w ++ r).dropWhile p = r := by
  rw [List.takeWhile_append_of_pos hw, List.dropWhile_append_of_pos hw, (takeWhile_stops h).1,
    (takeWhile_stops h).2, List.append_nil]
  exact ⟨rfl, rfl⟩

theorem stops_dropWhile (p : Char → Bool) (cs : List Char) : Stops p (cs.dropWhile p) := by
  intro c hc
  cases hd : cs.dropWhile p with
  | nil => simp [hd] at hc
  | cons d t =>
    obtain rfl : d = c := by simpa [hd] using hc
    have hnot := List.head_dropWhile_not (p := p) (l := cs) (by simp [hd])
    simpa [hd] using hnot

theorem forall_of_all {α : Type*} {P : α → Prop} [DecidablePred P] {l : List α}
    (h : (l.all fun x => decide (P x)) = true) : ∀ x ∈ l, P x := fun x hx =>
  of_decide_eq_true (List.all_eq_true.mp h x hx)

theorem mem_takeWhile {p : Char → Bool} {cs : List Char} : ∀ c ∈ cs.takeWhile p, p c = true :=
  fun _ hc => List.mem_takeWhile_imp hc

theorem matchNumber_append {w r : List Char} (hw : NumberText w)
    (hr : Stops (fun c => isDigit c || c = '.') r) : matchNumber (w ++ r) = some (w, r) := by
  obtain ⟨ds, hne, hds, hcase⟩ := hw
  have hdigit : Stops isDigit r := by
    intro c hc
    have := hr c hc
    simp only [Bool.or_eq_false_iff] at this
    exact this.1
  obtain ⟨d, ds', rfl⟩ := List.exists_cons_of_ne_nil hne
  rcases hcase with rfl | ⟨fs, hfne, hfs, rfl⟩
  · obtain ⟨htake, hdrop⟩ := takeWhile_append_stops hds hdigit
    unfold matchNumber
    rw [htake, hdrop]
    cases r with
    | nil => rfl
    | cons c r =>
      have hdot : c ≠ '.' := by
        have := hr c rfl
        simp only [Bool.or_eq_false_iff, decide_eq_false_iff_not] at this
        exact this.2
      split
      · simp_all
      · simp_all
      · simp_all
  · have hstop : Stops isDigit ('.' :: (fs ++ r)) := by
      intro c hc
      obtain rfl : '.' = c := by simpa using hc
      decide
    obtain ⟨htake, hdrop⟩ := takeWhile_append_stops hds hstop
    obtain ⟨hftake, hfdrop⟩ := takeWhile_append_stops hfs hdigit
    unfold matchNumber
    rw [show d :: ds' ++ '.' :: fs ++ r = d :: ds' ++ '.' :: (fs ++ r) by simp, htake, hdrop]
    simp only [hftake, hfdrop]
    rw [if_neg (by simpa using hfne)]

theorem of_matchNumber {cs w r : List Char} (h : matchNumber cs = some (w, r)) :
    cs = w ++ r ∧ NumberText w ∧ Stops isDigit r := by
  unfold matchNumber at h
  have hcs : cs.takeWhile isDigit ++ cs.dropWhile isDigit = cs := List.takeWhile_append_dropWhile
  have hstop := stops_dropWhile isDigit cs
  have hds : ∀ c ∈ cs.takeWhile isDigit, isDigit c = true := mem_takeWhile
  split at h
  · cases h
  · rename_i t hdrop hne
    rw [hdrop] at hcs hstop
    split_ifs at h with hempty
    · obtain ⟨rfl, rfl⟩ := Prod.mk.inj (Option.some.inj h)
      exact ⟨hcs.symm, ⟨_, hne, hds, .inl rfl⟩, hstop⟩
    · obtain ⟨rfl, rfl⟩ := Prod.mk.inj (Option.some.inj h)
      refine ⟨?_, ⟨_, hne, hds, .inr ⟨_, by simpa using hempty, mem_takeWhile, rfl⟩⟩,
        stops_dropWhile isDigit t⟩
      rw [List.append_assoc, List.cons_append, List.takeWhile_append_dropWhile, hcs]
  · rename_i hne hdot
    obtain ⟨rfl, rfl⟩ := Prod.mk.inj (Option.some.inj h)
    exact ⟨hcs.symm, ⟨_, hne, hds, .inl rfl⟩, hstop⟩

theorem matchString_append {w : List Char} (hw : StringText w) (r : List Char) :
    matchString (w ++ r) = some (w, r) := by
  obtain ⟨s, hs, rfl⟩ := hw
  have hinside : ∀ c ∈ s, (decide (c ≠ '\'') && decide (c ≠ '\n')) = true :=
    fun c hc => by simpa using hs c hc
  have hstop : Stops (fun c => decide (c ≠ '\'') && decide (c ≠ '\n')) ('\'' :: r) := by
    intro c hc
    obtain rfl : '\'' = c := by simpa using hc
    decide
  obtain ⟨htake, hdrop⟩ := takeWhile_append_stops hinside hstop
  unfold matchString
  simp only [List.cons_append, List.append_assoc, List.nil_append]
  rw [htake, hdrop]
  rfl

theorem of_matchString {cs w r : List Char} (h : matchString cs = some (w, r)) :
    cs = w ++ r ∧ StringText w := by
  unfold matchString at h
  split at h
  · rename_i t
    dsimp only at h
    split at h
    · rename_i r' hdrop
      obtain ⟨rfl, rfl⟩ := Prod.mk.inj (Option.some.inj h)
      refine ⟨?_, _, fun c hc => by simpa using List.mem_takeWhile_imp hc, rfl⟩
      simp only [List.cons_append, List.append_assoc, List.nil_append, List.cons.injEq, true_and]
      rw [← hdrop, List.takeWhile_append_dropWhile]
    · cases h
  · cases h

theorem matchName_append {w r : List Char} (hw : NameText w) (hr : Stops isNameChar r) :
    matchName (w ++ r) = some (w, r) := by
  obtain ⟨c, s, rfl, hc, hs⟩ := hw
  obtain ⟨htake, hdrop⟩ := takeWhile_append_stops hs hr
  simp only [matchName, List.cons_append, hc, if_true]
  rw [htake, hdrop]

theorem of_matchName {cs w r : List Char} (h : matchName cs = some (w, r)) :
    cs = w ++ r ∧ NameText w ∧ Stops isNameChar r := by
  match cs, h with
  | c :: t, h =>
    simp only [matchName] at h
    split_ifs at h with hc
    obtain ⟨rfl, rfl⟩ := Prod.mk.inj (Option.some.inj h)
    exact ⟨by simp, ⟨c, _, rfl, hc, mem_takeWhile⟩, stops_dropWhile _ _⟩

theorem nameText_iff {w : List Char} : NameText w ↔ ∃ v, matchName w = some (v, []) := by
  constructor
  · intro h
    refine ⟨w, ?_⟩
    have := matchName_append (r := []) h (by intro c hc; simp at hc)
    rwa [List.append_nil] at this
  · rintro ⟨v, h⟩
    obtain ⟨rfl, hv, -⟩ := of_matchName h
    rwa [List.append_nil]

/-! ## Characters that begin a token -/

theorem digitZeros_cases : ∀ z ∈ digitZeros, z = 48 ∨ 1632 ≤ z := by decide

theorem isDigit_ascii {c : Char} (hc : c.toNat < 128) : isDigit c = true ↔ '0' ≤ c ∧ c ≤ '9' := by
  have hle : ('0' ≤ c ∧ c ≤ '9') ↔ 48 ≤ c.toNat ∧ c.toNat ≤ 57 := by
    simp only [Char.le_def, UInt32.le_iff_toNat_le]
    exact Iff.rfl
  rw [hle, isDigit, List.any_eq_true]
  constructor
  · rintro ⟨z, hz, h⟩
    simp only [Bool.and_eq_true, decide_eq_true_eq] at h
    rcases digitZeros_cases z hz with rfl | hz <;> omega
  · intro h
    exact ⟨48, by decide, by simp only [Bool.and_eq_true, decide_eq_true_eq]; omega⟩

theorem wordStart_toNat {c : Char} (h : isWordStart c = true) :
    65 ≤ c.toNat ∧ c.toNat ≤ 90 ∨ 97 ≤ c.toNat ∧ c.toNat ≤ 122 ∨ c.toNat = 95 := by
  simp only [isWordStart, isNameStart, Bool.or_eq_true, Bool.and_eq_true, decide_eq_true_eq,
    Char.le_def, UInt32.le_iff_toNat_le] at h
  rcases h with (h | h) | rfl
  · exact .inl h
  · exact .inr (.inl h)
  · exact .inr (.inr rfl)

theorem wordStart_plain {c : Char} (h : isWordStart c = true) :
    isSpace c = false ∧ isDigit c = false ∧ c ≠ '\'' ∧ c ≠ '.' ∧ c ≠ '(' ∧ c ≠ '=' ∧ c ≠ '?' ∧
      isNameChar c = true := by
  have hn := wordStart_toNat h
  have hsymbol : ∀ d : Char, d.toNat < 65 → c ≠ d := by
    rintro d hd rfl
    omega
  refine ⟨?_, ?_, hsymbol _ (by decide), hsymbol _ (by decide), hsymbol _ (by decide),
    hsymbol _ (by decide), hsymbol _ (by decide), ?_⟩
  · simp only [isSpace, Bool.or_eq_false_iff, Bool.and_eq_false_iff, decide_eq_false_iff_not]
    omega
  · rw [Bool.eq_false_iff, ne_eq, isDigit_ascii (by omega)]
    simp only [Char.le_def, UInt32.le_iff_toNat_le]
    intro hd
    have h9 : c.toNat ≤ 57 := hd.2
    omega
  · simp only [isWordStart, Bool.or_eq_true] at h
    simp only [isNameChar, Bool.or_eq_true]
    tauto

/-! ## What is read at the head of a text -/

/-- The piece stands at the head of the text that it and the rest make. -/
inductive Lexeme : Piece → List Char → Prop
  | gap {c : Char} {r : List Char} : isSpace c = true → Lexeme (.gap c) r
  | number {w r : List Char} : NumberText w → Stops (fun c => isDigit c || c = '.') r →
      isSpace (w.headD ' ') = false → Lexeme (.token w) r
  | string {w r : List Char} : StringText w → Lexeme (.token w) r
  | name {w r : List Char} : NameText w → Stops isNameChar r → String.ofList w ≠ "in" →
      (called r = true → functions.contains (String.ofList w) = true ∨
        wordOperators.contains (String.ofList w) = true) → Lexeme (.token w) r
  | symbol {w r : List Char} : matchSymbol (w ++ r) = some (w, r) → Lexeme (.token w) r
  | bracket {c : Char} {r : List Char} : structureChars.contains c = true → Lexeme (.token [c]) r

theorem matchNumber_eq_none {c : Char} {t : List Char} (h : isDigit c = false) :
    matchNumber (c :: t) = none := by
  unfold matchNumber
  rw [List.takeWhile_cons_of_neg (by simp [h])]

theorem matchString_eq_none {c : Char} {t : List Char} (h : c ≠ '\'') :
    matchString (c :: t) = none := by
  unfold matchString
  split
  · rename_i heq
    exact absurd (List.cons.inj heq).1 h
  · rfl

theorem matchName_eq_none {c : Char} {t : List Char} (h : isWordStart c = false) :
    matchName (c :: t) = none := by
  simp [matchName, h]

theorem symbol_plain : ∀ op ∈ symbolOperators, ∃ c t, op.toList = c :: t ∧ isSpace c = false ∧
    isDigit c = false ∧ c ≠ '\'' ∧ isWordStart c = false := by
  intro op hop
  simp only [symbolOperators, List.mem_cons, List.not_mem_nil, or_false] at hop
  rcases hop with rfl | rfl | rfl | rfl | rfl | rfl | rfl | rfl | rfl | rfl | rfl | rfl | rfl <;>
    exact ⟨_, _, rfl, by decide, by decide, by decide, by decide⟩

theorem of_matchSymbol {cs w r : List Char} (h : matchSymbol cs = some (w, r)) :
    cs = w ++ r ∧ ∃ op ∈ symbolOperators, w = op.toList := by
  obtain ⟨op, hop, heq⟩ := Option.map_eq_some_iff.mp h
  obtain ⟨rfl, rfl⟩ := Prod.mk.inj heq
  have hfound : op.toList.isPrefixOf cs = true := by simpa using List.find?_some hop
  obtain ⟨t, rfl⟩ := List.isPrefixOf_iff_prefix.mp hfound
  exact ⟨by rw [List.drop_left], op, List.mem_of_find?_eq_some hop, rfl⟩

theorem structure_plain : ∀ c ∈ structureChars, isSpace c = false ∧ isDigit c = false ∧
    c ≠ '\'' ∧ isWordStart c = false := forall_of_all (by decide)

theorem matchSymbol_structure {c : Char} (hc : c ∈ structureChars) (t : List Char) :
    matchSymbol (c :: t) = none := by
  have hne : ∀ c ∈ structureChars, ∀ op ∈ symbolOperators, op.toList.head? ≠ some c :=
    forall_of_all (by decide)
  rw [matchSymbol, Option.map_eq_none_iff, List.find?_eq_none]
  intro op hop hprefix
  obtain ⟨d, u, hd, -⟩ := symbol_plain op hop
  obtain ⟨v, hv⟩ := List.isPrefixOf_iff_prefix.mp hprefix
  refine hne c hc op hop ?_
  rw [hd] at hv ⊢
  rw [(List.cons.inj hv).1]
  rfl

theorem Lexeme.nextPiece {p : Piece} {r : List Char} (h : Lexeme p r) :
    nextPiece (p.text ++ r) = some (.ok (p, r)) := by
  cases h with
  | gap hc => simp [GiPricing.nextPiece, Piece.text, hc]
  | @number w _ hw hr hspace =>
    have hmatch := matchNumber_append hw hr
    obtain ⟨ds, hne, -, hcase⟩ := hw
    obtain ⟨c, t, hct⟩ : ∃ c t, w = c :: t := by
      obtain ⟨d, ds', rfl⟩ := List.exists_cons_of_ne_nil hne
      rcases hcase with rfl | ⟨fs, -, -, rfl⟩ <;> exact ⟨_, _, rfl⟩
    subst hct
    have hc : isSpace c = false := hspace
    simp only [GiPricing.nextPiece, Piece.text, List.cons_append, hc, Bool.false_eq_true, if_false]
    rw [← List.cons_append, hmatch]
  | string hw =>
    have hmatch := matchString_append hw r
    obtain ⟨s, -, rfl⟩ := hw
    simp only [GiPricing.nextPiece, Piece.text, List.cons_append,
      show isSpace '\'' = false by decide, Bool.false_eq_true, if_false,
      matchNumber_eq_none (show isDigit '\'' = false by decide)]
    rw [show '\'' :: s ++ ['\''] ++ r = '\'' :: (s ++ ['\''] ++ r) from rfl] at hmatch
    rw [hmatch]
    rfl
  | name hw hr hin hcalled =>
    have hmatch := matchName_append hw hr
    obtain ⟨c, s, rfl, hc, -⟩ := hw
    obtain ⟨hspace, hdigit, hquote, -⟩ := wordStart_plain hc
    rw [List.cons_append] at hmatch
    simp only [GiPricing.nextPiece, Piece.text, List.cons_append, hspace, Bool.false_eq_true,
      if_false, matchNumber_eq_none hdigit, matchString_eq_none hquote, if_neg hquote, hmatch,
      if_neg hin]
    rw [if_neg]
    intro h
    simp only [Bool.and_eq_true, Bool.not_eq_true'] at h
    rcases hcalled h.1.1 with hf | hf
    · rw [hf] at h
      exact absurd h.1.2 (by decide)
    · rw [hf] at h
      exact absurd h.2 (by decide)
  | @symbol w _ h =>
    obtain ⟨-, op, hop, rfl⟩ := of_matchSymbol h
    obtain ⟨c, t, hct, hspace, hdigit, hquote, hword⟩ := symbol_plain op hop
    rw [hct, List.cons_append] at h
    simp only [GiPricing.nextPiece, Piece.text, hct, List.cons_append, hspace, Bool.false_eq_true,
      if_false, matchNumber_eq_none hdigit, matchString_eq_none hquote, if_neg hquote,
      matchName_eq_none hword, h]
  | @bracket c _ hc =>
    obtain ⟨hspace, hdigit, hquote, hword⟩ := structure_plain c (by simpa using hc)
    simp only [GiPricing.nextPiece, Piece.text, List.cons_append, List.nil_append, hspace,
      Bool.false_eq_true, if_false, matchNumber_eq_none hdigit, matchString_eq_none hquote,
      if_neg hquote, matchName_eq_none hword, matchSymbol_structure (by simpa using hc), hc,
      if_true]

theorem NumberText.ne_nil {w : List Char} (h : NumberText w) : w ≠ [] := by
  obtain ⟨ds, hne, -, rfl | ⟨fs, -, -, rfl⟩⟩ := h
  · exact hne
  · exact List.append_ne_nil_of_right_ne_nil _ (List.cons_ne_nil _ _)

theorem Lexeme.text_ne_nil {p : Piece} {r : List Char} (h : Lexeme p r) : p.text ≠ [] := by
  cases h with
  | gap _ => exact List.cons_ne_nil _ _
  | number hw _ _ => exact hw.ne_nil
  | string hw =>
    obtain ⟨s, -, rfl⟩ := hw
    exact List.cons_ne_nil _ _
  | name hw _ _ _ =>
    obtain ⟨c, s, rfl, -⟩ := hw
    exact List.cons_ne_nil _ _
  | symbol h =>
    obtain ⟨-, op, hop, rfl⟩ := of_matchSymbol h
    obtain ⟨c, t, hct, -⟩ := symbol_plain op hop
    rw [Piece.text, hct]
    exact List.cons_ne_nil _ _
  | bracket _ => exact List.cons_ne_nil _ _

/-- What is next in a text is read at its head, unless a point follows a number. -/
theorem lexeme_of_nextPiece {cs r : List Char} {p : Piece}
    (h : GiPricing.nextPiece cs = some (.ok (p, r))) :
    cs = p.text ++ r ∧ p.text ≠ [] ∧ (r.head? ≠ some '.' → Lexeme p r) := by
  match cs, h with
  | c :: t, h =>
    simp only [GiPricing.nextPiece, Option.some.injEq] at h
    by_cases hspace : isSpace c = true
    · rw [if_pos hspace] at h
      obtain ⟨rfl, rfl⟩ := Prod.mk.inj (Except.ok.inj h)
      exact ⟨rfl, List.cons_ne_nil _ _, fun _ => .gap hspace⟩
    rw [if_neg hspace] at h
    split at h
    · rename_i w r' hnum
      obtain ⟨rfl, rfl⟩ := Prod.mk.inj (Except.ok.inj h)
      obtain ⟨heq, hw, hstop⟩ := of_matchNumber hnum
      refine ⟨heq, hw.ne_nil, fun hdot => .number hw (fun d hd => ?_) ?_⟩
      · rw [Bool.or_eq_false_iff, decide_eq_false_iff_not]
        refine ⟨hstop d hd, ?_⟩
        rintro rfl
        exact hdot hd
      · obtain ⟨ds, hne, -, hcase⟩ := hw
        obtain ⟨e, es, rfl⟩ := List.exists_cons_of_ne_nil hne
        have hec : e = c := by
          rcases hcase with rfl | ⟨fs, -, -, rfl⟩ <;> exact (List.cons.inj heq).1.symm
        rcases hcase with rfl | ⟨fs, -, -, rfl⟩ <;> simpa [hec] using hspace
    split at h
    · rename_i w r' hstr
      obtain ⟨rfl, rfl⟩ := Prod.mk.inj (Except.ok.inj h)
      obtain ⟨heq, hw⟩ := of_matchString hstr
      have hread : Lexeme (.token w) r' := .string hw
      exact ⟨heq, hread.text_ne_nil, fun _ => hread⟩
    by_cases hquote : c = '\''
    · rw [if_pos hquote] at h
      cases h
    rw [if_neg hquote] at h
    split at h
    · rename_i w r' hname
      obtain ⟨heq, hw, hstop⟩ := of_matchName hname
      split_ifs at h with hin hcall
      obtain ⟨rfl, rfl⟩ := Prod.mk.inj (Except.ok.inj h)
      have hread : Lexeme (.token w) r' := .name hw hstop hin fun hc => by
        rw [hc] at hcall
        by_contra hno
        rw [not_or, Bool.not_eq_true, Bool.not_eq_true] at hno
        exact hcall (by rw [hno.1, hno.2]; rfl)
      exact ⟨heq, hread.text_ne_nil, fun _ => hread⟩
    split at h
    · rename_i w r' hsym
      obtain ⟨rfl, rfl⟩ := Prod.mk.inj (Except.ok.inj h)
      obtain ⟨heq, -⟩ := of_matchSymbol hsym
      have hread : Lexeme (.token w) r' := .symbol (heq ▸ hsym)
      exact ⟨heq, hread.text_ne_nil, fun _ => hread⟩
    · split_ifs at h with hc
      obtain ⟨rfl, rfl⟩ := Prod.mk.inj (Except.ok.inj h)
      exact ⟨rfl, List.cons_ne_nil _ _, fun _ => .bracket hc⟩

/-! ## Scans -/

/-- A text that is cut into the pieces with nothing refused. -/
inductive Scanned : List Char → List Piece → Prop
  | nil : Scanned [] []
  | cons {p : Piece} {r : List Char} {ps : List Piece} : Lexeme p r → Scanned r ps →
      Scanned (p.text ++ r) (p :: ps)

theorem scanFrom_of_scanned {cs : List Char} {ps : List Piece} (h : Scanned cs ps) :
    ∀ {n : ℕ}, cs.length ≤ n → scanFrom n cs = (ps, none) := by
  induction h with
  | nil =>
    intro n _
    cases n <;> rfl
  | @cons p r ps hp _ ih =>
    intro n hn
    have hpos := List.length_pos_iff.mpr hp.text_ne_nil
    rw [List.length_append] at hn
    obtain ⟨m, rfl⟩ : ∃ m, n = m + 1 := ⟨n - 1, by omega⟩
    have hrest : scanFrom m r = (ps, none) := ih (by omega)
    simp only [scanFrom, hp.nextPiece, hrest]

theorem nextPiece_point (t : List Char) : nextPiece ('.' :: t) = some (.error ['.']) := by
  have hsymbol : matchSymbol ('.' :: t) = none := by
    have hne : ∀ op ∈ symbolOperators, op.toList.head? ≠ some '.' := by decide
    rw [matchSymbol, Option.map_eq_none_iff, List.find?_eq_none]
    intro op hop hprefix
    obtain ⟨d, u, hd, -⟩ := symbol_plain op hop
    obtain ⟨v, hv⟩ := List.isPrefixOf_iff_prefix.mp hprefix
    refine hne op hop ?_
    rw [hd] at hv ⊢
    rw [(List.cons.inj hv).1]
    rfl
  simp only [nextPiece, show isSpace '.' = false by decide, Bool.false_eq_true, if_false,
    matchNumber_eq_none (show isDigit '.' = false by decide),
    matchString_eq_none (show '.' ≠ '\'' by decide), if_neg (show '.' ≠ '\'' by decide),
    matchName_eq_none (show isWordStart '.' = false by decide), hsymbol,
    show structureChars.contains '.' = false by decide]

theorem scanned_of_scanFrom : ∀ {n : ℕ} {cs : List Char} {ps : List Piece}, cs.length ≤ n →
    scanFrom n cs = (ps, none) → Scanned cs ps
  | 0, cs, ps, hn, h => by
    obtain rfl := List.length_eq_zero_iff.mp (Nat.le_zero.mp hn)
    obtain rfl := (Prod.mk.inj h).1
    exact .nil
  | n + 1, cs, ps, hn, h => by
    simp only [scanFrom] at h
    cases hnext : nextPiece cs with
    | none =>
      rw [hnext] at h
      obtain rfl := (Prod.mk.inj h).1
      cases cs with
      | nil => exact .nil
      | cons c t => simp [nextPiece] at hnext
    | some next =>
      rw [hnext] at h
      match next, h with
      | .error w, h => cases (Prod.mk.inj h).2
      | .ok (p, r), h =>
        obtain ⟨hps, hrefused⟩ := Prod.mk.inj h
        obtain ⟨rfl, hne, hread⟩ := lexeme_of_nextPiece hnext
        have hpos := List.length_pos_iff.mpr hne
        rw [List.length_append] at hn
        have hp : Lexeme p r := by
          refine hread fun hhead => ?_
          obtain ⟨t, rfl⟩ : ∃ t, r = '.' :: t := List.head?_eq_some_iff.mp hhead
          rw [List.length_cons] at hn
          obtain ⟨m, rfl⟩ : ∃ m, n = m + 1 := ⟨n - 1, by omega⟩
          simp only [scanFrom, nextPiece_point] at hrefused
          cases hrefused
        rw [← hps]
        exact .cons hp (scanned_of_scanFrom (by omega) (Prod.ext rfl hrefused))

theorem scan_eq_ok {text : String} {ps : List Piece} :
    scan text = (ps, none) ↔ Scanned text.toList ps :=
  ⟨scanned_of_scanFrom le_rfl, fun h => scanFrom_of_scanned h le_rfl⟩

theorem Scanned.text {cs : List Char} {ps : List Piece} (h : Scanned cs ps) :
    cs = ps.flatMap Piece.text := by
  induction h with
  | nil => rfl
  | cons _ _ ih => rw [List.flatMap_cons, ← ih]

/-! ## Renaming -/

/-- The heads of two rests are alike: equal, or both begin a name. -/
def Alike (r r' : List Char) : Prop :=
  r.head? = r'.head? ∨ ∃ a b, r.head? = some a ∧ r'.head? = some b ∧ isWordStart a = true ∧
    isWordStart b = true

theorem Alike.stops {p : Char → Bool} {r r' : List Char} (h : Alike r r')
    (hp : ∀ c, isWordStart c = true → p c = false) (hr : Stops p r) : Stops p r' := by
  intro c hc
  rcases h with heq | ⟨a, b, -, hb, -, hword⟩
  · exact hr c (heq ▸ hc)
  · obtain rfl : b = c := by simpa [hb] using hc
    exact hp b hword

theorem Alike.stops_name {r r' : List Char} (h : Alike r r') (hr : Stops isNameChar r) :
    Stops isNameChar r' := by
  intro c hc
  rcases h with heq | ⟨a, b, ha, -, hword, -⟩
  · exact hr c (heq ▸ hc)
  · have hno := hr a ha
    rw [(wordStart_plain hword).2.2.2.2.2.2.2] at hno
    cases hno

/-- A name that the mapping renames, with what takes its place. -/
def Renames (mapping : String → Option String) (t : List Char) (image : String) : Prop :=
  NameText t ∧ keepWords.contains (String.ofList t) = false ∧ mapping (String.ofList t) = some image

/-- What takes the place of a name is one name token. -/
def CleanImage (image : String) : Prop := NameText image.toList ∧ image ≠ "in"

theorem renamedToken_of_renames {mapping : String → Option String} {t : List Char} {image : String}
    (h : Renames mapping t image) : renamedToken mapping t = image.toList := by
  obtain ⟨hname, hkeep, himage⟩ := h
  have hmatch := matchName_append (r := []) hname (by intro c hc; simp at hc)
  rw [List.append_nil] at hmatch
  simp only [renamedToken, hmatch, hkeep, himage]
  rfl

theorem renamedToken_cases_of (mapping : String → Option String) (t : List Char) :
    renamedToken mapping t = t ∨ ∃ image, Renames mapping t image := by
  by_cases hname : NameText t
  · have hmatch := matchName_append (r := []) hname (by intro c hc; simp at hc)
    rw [List.append_nil] at hmatch
    cases hkeep : keepWords.contains (String.ofList t) with
    | true =>
      left
      simp only [renamedToken, hmatch, hkeep]
      rfl
    | false =>
      cases himage : mapping (String.ofList t) with
      | none =>
        left
        simp only [renamedToken, hmatch, hkeep, himage]
        rfl
      | some image => exact .inr ⟨image, hname, hkeep, himage⟩
  · left
    unfold renamedToken
    split
    · rename_i v hmatch
      exact absurd (nameText_iff.mpr ⟨v, hmatch⟩) hname
    · rfl

def Piece.renamed (mapping : String → Option String) : Piece → Piece
  | .gap c => .gap c
  | .token t => .token (renamedToken mapping t)

def renamedText (mapping : String → Option String) (ps : List Piece) : List Char :=
  (ps.map (Piece.renamed mapping)).flatMap Piece.text

/-- Every name that is renamed has a clean image. -/
def CleanRenaming (mapping : String → Option String) (ps : List Piece) : Prop :=
  ∀ t, .token t ∈ ps → ∀ image, Renames mapping t image → CleanImage image

theorem not_nameText {c : Char} {t : List Char} (h : isWordStart c = false) :
    ¬ NameText (c :: t) := by
  rintro ⟨d, s, heq, hd, -⟩
  obtain ⟨rfl, -⟩ := List.cons.inj heq
  rw [h] at hd
  cases hd

theorem renamedToken_of_not_name {mapping : String → Option String} {t : List Char}
    (h : ¬ NameText t) : renamedToken mapping t = t :=
  (renamedToken_cases_of mapping t).resolve_right fun ⟨_, hr⟩ => h hr.1

theorem NumberText.not_nameText {w : List Char} (h : NumberText w) : ¬ NameText w := by
  rintro ⟨c, s, rfl, hc, -⟩
  obtain ⟨ds, hne, hds, hcase⟩ := h
  obtain ⟨d, ds', rfl⟩ := List.exists_cons_of_ne_nil hne
  have hcd : c = d := by
    rcases hcase with h | ⟨fs, -, -, h⟩ <;> exact (List.cons.inj h).1
  have hdigit := hds d List.mem_cons_self
  rw [← hcd, (wordStart_plain hc).2.1] at hdigit
  cases hdigit

theorem symbol_chars : ∀ op ∈ symbolOperators, (∃ x, op.toList = [x]) ∨
    ∃ x y, op.toList = [x, y] ∧ (y = '=' ∨ y = '?') := by
  intro op hop
  simp only [symbolOperators, List.mem_cons, List.not_mem_nil, or_false] at hop
  rcases hop with rfl | rfl | rfl | rfl | rfl | rfl | rfl | rfl | rfl | rfl | rfl | rfl | rfl <;>
    first
    | exact .inl ⟨_, rfl⟩
    | exact .inr ⟨_, _, rfl, by decide⟩

theorem Alike.head_eq_iff {r r' : List Char} (h : Alike r r') {y : Char} (hy : y = '=' ∨ y = '?') :
    r.head? = some y ↔ r'.head? = some y := by
  rcases h with heq | ⟨a, b, ha, hb, hwa, hwb⟩
  · rw [heq]
  · obtain ⟨-, -, -, -, -, hae, haq, -⟩ := wordStart_plain hwa
    obtain ⟨-, -, -, -, -, hbe, hbq, -⟩ := wordStart_plain hwb
    rw [ha, hb, Option.some_inj, Option.some_inj]
    rcases hy with rfl | rfl
    · exact iff_of_false hae hbe
    · exact iff_of_false haq hbq

theorem prefix_pair {x y : Char} {l : List Char} :
    [x, y].isPrefixOf l = true ↔ ∃ t, l = x :: t ∧ t.head? = some y := by
  rw [List.isPrefixOf_iff_prefix]
  constructor
  · rintro ⟨t, rfl⟩
    exact ⟨y :: t, rfl, rfl⟩
  · rintro ⟨t, rfl, hy⟩
    obtain ⟨u, rfl⟩ := List.head?_eq_some_iff.mp hy
    exact ⟨u, rfl⟩

theorem matchSymbol_alike {w r r' : List Char} (h : Alike r r')
    (hw : matchSymbol (w ++ r) = some (w, r)) : matchSymbol (w ++ r') = some (w, r') := by
  obtain ⟨-, op, hop, rfl⟩ := of_matchSymbol hw
  have hsame : ∀ op' ∈ symbolOperators,
      op'.toList.isPrefixOf (op.toList ++ r) = op'.toList.isPrefixOf (op.toList ++ r') := by
    intro op' hop'
    rw [Bool.eq_iff_iff]
    rcases symbol_chars op hop with ⟨c, hc⟩ | ⟨c, d, hc, -⟩ <;>
      rcases symbol_chars op' hop' with ⟨x, hx⟩ | ⟨x, y, hx, hy⟩ <;> rw [hc, hx]
    · simp
    · rw [prefix_pair, prefix_pair]
      simp only [List.cons_append, List.nil_append, List.cons.injEq, exists_eq_left', and_assoc,
        exists_and_left, h.head_eq_iff hy]
    · simp
    · simp
  have hfind : symbolOperators.find? (fun op' => op'.toList.isPrefixOf (op.toList ++ r')) =
      symbolOperators.find? (fun op' => op'.toList.isPrefixOf (op.toList ++ r)) :=
    (List.find?_congr hsame).symm
  obtain ⟨found, hfound, heq⟩ := Option.map_eq_some_iff.mp hw
  have htext : found.toList = op.toList := (Prod.mk.inj heq).1
  rw [matchSymbol, hfind, hfound, Option.map_some, htext, List.drop_left]

/-- A piece that is read before a rest is read, renamed, before a rest that is alike. -/
theorem Lexeme.renamed {mapping : String → Option String} {p : Piece} {r r' : List Char}
    (h : Lexeme p r) (halike : Alike r r') (hcalled : called r' = called r)
    (hclean : ∀ t, p = .token t → ∀ image, Renames mapping t image → CleanImage image) :
    Lexeme (p.renamed mapping) r' := by
  cases h with
  | gap hc => exact .gap hc
  | number hw hr hspace =>
    rw [Piece.renamed, renamedToken_of_not_name hw.not_nameText]
    refine .number hw (halike.stops (fun c hc => ?_) hr) hspace
    obtain ⟨-, hdigit, -, hdot, -⟩ := wordStart_plain hc
    simp [hdigit, hdot]
  | @string w _ hw =>
    have hno : ¬ NameText w := by
      obtain ⟨s, -, rfl⟩ := hw
      exact not_nameText (by decide)
    rw [Piece.renamed, renamedToken_of_not_name hno]
    exact .string hw
  | @name w _ hw hr hin hcall =>
    have hstop := halike.stops_name hr
    rcases renamedToken_cases_of mapping w with heq | ⟨image, himage⟩
    · rw [Piece.renamed, heq]
      exact .name hw hstop hin (hcalled ▸ hcall)
    · obtain ⟨hname, hne⟩ := hclean w rfl image himage
      rw [Piece.renamed, renamedToken_of_renames himage]
      refine .name hname hstop (by rwa [String.ofList_toList]) fun hc => ?_
      have hkeep := himage.2.1
      rw [hcalled] at hc
      simp only [keepWords, List.contains_eq_mem, List.mem_append, decide_eq_false_iff_not,
        not_or] at hkeep
      rcases hcall hc with hf | hf
      · exact absurd (by simpa using hf) hkeep.1.1
      · exact absurd (by simpa using hf) hkeep.2
  | @symbol w _ hw =>
    have hno : ¬ NameText w := by
      obtain ⟨-, op, hop, rfl⟩ := of_matchSymbol hw
      obtain ⟨c, t, hct, -, -, -, hword⟩ := symbol_plain op hop
      rw [hct]
      exact not_nameText hword
    rw [Piece.renamed, renamedToken_of_not_name hno]
    exact .symbol (matchSymbol_alike halike hw)
  | @bracket c _ hc =>
    have hno : ¬ NameText [c] := not_nameText (structure_plain c (by simpa using hc)).2.2.2
    rw [Piece.renamed, renamedToken_of_not_name hno]
    exact .bracket hc

theorem called_cons_of_space {c : Char} {r : List Char} (h : isSpace c = true) :
    called (c :: r) = called r := by
  rw [called, List.dropWhile_cons_of_pos h, called]

theorem called_cons_of_plain {c : Char} {r : List Char} (h : isSpace c = false) :
    called (c :: r) = decide (c = '(') := by
  rw [called, List.dropWhile_cons_of_neg (by simp [h])]
  split
  · rename_i heq
    simp [(List.cons.inj heq).1]
  · rename_i hne
    have hc : c ≠ '(' := fun hc => hne r (by rw [hc])
    simp [hc]

theorem Lexeme.head_plain {t r : List Char} (h : Lexeme (.token t) r) :
    ∃ c s, t = c :: s ∧ isSpace c = false := by
  cases h with
  | number hw _ hspace =>
    obtain ⟨c, s, rfl⟩ := List.exists_cons_of_ne_nil hw.ne_nil
    exact ⟨c, s, rfl, hspace⟩
  | string hw =>
    obtain ⟨s, -, rfl⟩ := hw
    exact ⟨_, _, rfl, by decide⟩
  | name hw _ _ _ =>
    obtain ⟨c, s, rfl, hc, -⟩ := hw
    exact ⟨c, s, rfl, (wordStart_plain hc).1⟩
  | symbol hw =>
    obtain ⟨-, op, hop, rfl⟩ := of_matchSymbol hw
    obtain ⟨c, s, hcs, hspace, -⟩ := symbol_plain op hop
    exact ⟨c, s, hcs, hspace⟩
  | bracket hc => exact ⟨_, _, rfl, (structure_plain _ (by simpa using hc)).1⟩

/-- A renaming leaves the heads of a scanned text alike, and what is called called. -/
theorem Scanned.alike {mapping : String → Option String} {cs : List Char} {ps : List Piece}
    (h : Scanned cs ps) (hclean : CleanRenaming mapping ps) :
    Alike cs (renamedText mapping ps) ∧ called (renamedText mapping ps) = called cs := by
  induction h with
  | nil => exact ⟨.inl rfl, rfl⟩
  | @cons p r ps hp hscan ih =>
    obtain ⟨-, hcalled⟩ := ih fun t ht => hclean t (List.mem_cons_of_mem _ ht)
    have htext : renamedText mapping (p :: ps) =
        (p.renamed mapping).text ++ renamedText mapping ps := rfl
    rw [htext]
    cases p with
    | gap c =>
      have hc : isSpace c = true := by
        cases hp with
        | gap hc => exact hc
      refine ⟨.inl rfl, ?_⟩
      simp only [Piece.renamed, Piece.text, List.cons_append, List.nil_append]
      rw [called_cons_of_space hc, called_cons_of_space hc, hcalled]
    | token t =>
      obtain ⟨c, s, rfl, hspace⟩ := hp.head_plain
      rcases renamedToken_cases_of mapping (c :: s) with heq | ⟨image, himage⟩
      · simp only [Piece.renamed, heq, Piece.text, List.cons_append]
        refine ⟨.inl rfl, ?_⟩
        rw [called_cons_of_plain hspace, called_cons_of_plain hspace]
      · obtain ⟨⟨d, u, hd, hword, -⟩, -⟩ := hclean _ List.mem_cons_self image himage
        obtain ⟨c', s', hcs, hc, -⟩ := himage.1
        obtain ⟨rfl, rfl⟩ := List.cons.inj hcs
        simp only [Piece.renamed, renamedToken_of_renames himage, hd, Piece.text, List.cons_append]
        refine ⟨.inr ⟨c, d, rfl, rfl, hc, hword⟩, ?_⟩
        obtain ⟨hsd, -, -, -, hpd, -⟩ := wordStart_plain hword
        obtain ⟨-, -, -, -, hpc, -⟩ := wordStart_plain hc
        rw [called_cons_of_plain hspace, called_cons_of_plain hsd]
        simp [hpd, hpc]

/-- The renamed text is scanned into the renamed pieces. -/
theorem Scanned.renamed {mapping : String → Option String} {cs : List Char} {ps : List Piece}
    (h : Scanned cs ps) (hclean : CleanRenaming mapping ps) :
    Scanned (renamedText mapping ps) (ps.map (Piece.renamed mapping)) := by
  induction h with
  | nil => exact .nil
  | @cons p r ps hp hscan ih =>
    have hrest : CleanRenaming mapping ps := fun t ht => hclean t (List.mem_cons_of_mem _ ht)
    obtain ⟨halike, hcalled⟩ := hscan.alike hrest
    refine .cons (hp.renamed halike hcalled fun t ht => ?_) (ih hrest)
    exact hclean t (ht ▸ List.mem_cons_self)

end GiPricing

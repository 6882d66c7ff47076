import GiPricing.Rating.Rename

/-! # The two lexers

The names a step reads are found by a second lexer, which blanks the string literals and then looks
for identifiers. On a text whose literals it ends where the scanner does, it finds the name tokens
that stand free.
-/

namespace GiPricing

/-! ## String literals -/

/-- No backslash escapes the quote that ends the literal. -/
def unescaped : List Char → Bool
  | [] => true
  | ['\\'] => false
  | '\\' :: _ :: t => unescaped t
  | _ :: t => unescaped t

theorem afterString_quote (t : List Char) : afterString '\'' ('\'' :: t) = some t := by
  rw [afterString.eq_def]
  simp

theorem afterString_escape {e : Char} (he : e ≠ '\n') (t : List Char) :
    afterString '\'' ('\\' :: e :: t) = afterString '\'' t := by
  rw [afterString.eq_def]
  simp [he]

theorem afterString_plain {c : Char} (hq : c ≠ '\'') (hc : c ≠ '\\') (t : List Char) :
    afterString '\'' (c :: t) = afterString '\'' t := by
  rw [afterString.eq_def]
  simp [hq, hc]

theorem afterString_append {r : List Char} : ∀ {s : List Char}, unescaped s = true →
    (∀ c ∈ s, c ≠ '\'' ∧ c ≠ '\n') → afterString '\'' (s ++ '\'' :: r) = some r
  | [], _, _ => afterString_quote r
  | [c], h, hs => by
    have hc : c ≠ '\\' := by
      rintro rfl
      cases h
    obtain ⟨hq, -⟩ := hs c List.mem_cons_self
    rw [List.cons_append, afterString_plain hq hc]
    exact afterString_quote r
  | c :: d :: t, h, hs => by
    obtain ⟨hq, -⟩ := hs c List.mem_cons_self
    by_cases hc : c = '\\'
    · subst hc
      obtain ⟨-, hd⟩ := hs d (by simp)
      rw [List.cons_append, List.cons_append, afterString_escape hd]
      exact afterString_append (s := t) h fun e he => hs e (by simp [he])
    · have h' : unescaped (d :: t) = true := by
        simpa [unescaped, hc] using h
      rw [List.cons_append, afterString_plain hq hc]
      exact afterString_append h' fun e he => hs e (List.mem_cons_of_mem _ he)

/-- What the second lexer leaves of a piece: a string literal becomes a blank. -/
def Piece.blanked : Piece → List Char
  | .token ('\'' :: _) => [' ']
  | p => p.text

/-- Both lexers end the string literals of a text in the same places. -/
def StringsAgree (ps : List Piece) : Prop :=
  ∀ s, .token ('\'' :: s ++ ['\'']) ∈ ps → unescaped s = true

theorem blankStrings_plain {r : List Char} : ∀ {w : List Char} {n : ℕ},
    (∀ c ∈ w, c ≠ '\'' ∧ c ≠ '"') → (w ++ r).length ≤ n →
      blankStrings n (w ++ r) = w ++ blankStrings (n - w.length) r
  | [], n, _, _ => by simp
  | c :: w, n, hw, hn => by
    rw [List.cons_append, List.length_cons] at hn
    obtain ⟨m, rfl⟩ : ∃ m, n = m + 1 := ⟨n - 1, by omega⟩
    obtain ⟨hq, hd⟩ := hw c List.mem_cons_self
    have hrest := blankStrings_plain (r := r) (w := w) (n := m)
      (fun d h => hw d (List.mem_cons_of_mem _ h)) (by omega)
    rw [List.cons_append, blankStrings]
    simp only [hq, hd, decide_false, Bool.or_self, Bool.false_eq_true, if_false, hrest,
      List.cons_append, List.length_cons, Nat.add_sub_add_right]

/-- A piece that is no string literal holds no quote. -/
theorem Lexeme.plain {p : Piece} {r : List Char} (h : Lexeme p r) :
    (∃ s, p = .token ('\'' :: s ++ ['\'']) ∧ ∀ c ∈ s, c ≠ '\'' ∧ c ≠ '\n') ∨
      p.blanked = p.text ∧ ∀ c ∈ p.text, c ≠ '\'' ∧ c ≠ '"' := by
  have hblank : ∀ w : List Char, (∀ c ∈ w, c ≠ '\'' ∧ c ≠ '"') →
      (Piece.token w).blanked = (Piece.token w).text := by
    intro w hw
    match w, hw with
    | [], _ => rfl
    | c :: w, hw =>
      have hc := (hw c List.mem_cons_self).1
      unfold Piece.blanked
      split
      · rename_i heq
        exact absurd (List.cons.inj (Piece.token.inj heq)).1 hc
      · rfl
  have hplain : ∀ w : List Char, (∀ c ∈ w, c ≠ '\'' ∧ c ≠ '"') →
      (Piece.token w).blanked = (Piece.token w).text ∧ ∀ c ∈ (Piece.token w).text,
        c ≠ '\'' ∧ c ≠ '"' := fun w hw => ⟨hblank w hw, hw⟩
  cases h with
  | @gap c _ hc =>
    refine .inr ⟨rfl, fun d hd => ?_⟩
    obtain rfl : d = c := by simpa [Piece.text] using hd
    constructor <;> rintro rfl <;> exact absurd hc (by decide)
  | @number w _ hw _ _ =>
    refine .inr (hplain w fun c hc => ?_)
    have hdigits : isDigit c = true ∨ c = '.' := by
      obtain ⟨ds, -, hds, rfl | ⟨fs, -, hfs, rfl⟩⟩ := hw
      · exact .inl (hds c hc)
      · rcases List.mem_append.mp hc with hc | hc
        · exact .inl (hds c hc)
        · rcases List.mem_cons.mp hc with rfl | hc
          · exact .inr rfl
          · exact .inl (hfs c hc)
    constructor <;> rintro rfl <;> exact absurd hdigits (by decide)
  | string hw =>
    obtain ⟨s, hs, rfl⟩ := hw
    exact .inl ⟨s, rfl, hs⟩
  | @name w _ hw _ _ _ =>
    refine .inr (hplain w fun c hc => ?_)
    have hname := hw.all c hc
    constructor <;> rintro rfl <;> exact absurd hname (by decide)
  | @symbol w _ hw =>
    obtain ⟨-, op, hop, rfl⟩ := of_matchSymbol hw
    have hall : (symbolOperators.all fun op =>
        op.toList.all fun c => decide (c ≠ '\'' ∧ c ≠ '"')) = true := by decide
    exact .inr (hplain _ (forall_of_all (List.all_eq_true.mp hall op hop)))
  | @bracket c _ hc =>
    have hall : ∀ c ∈ structureChars, c ≠ '\'' ∧ c ≠ '"' := forall_of_all (by decide)
    refine .inr (hplain _ fun d hd => ?_)
    obtain rfl := List.mem_singleton.mp hd
    exact hall _ (by simpa using hc)

/-- The text that is searched for names is the blanked pieces. -/
theorem Scanned.blankStrings {cs : List Char} {ps : List Piece} (h : Scanned cs ps)
    (hs : StringsAgree ps) : ∀ {n : ℕ}, cs.length ≤ n →
      GiPricing.blankStrings n cs = ps.flatMap Piece.blanked := by
  induction h with
  | nil =>
    intro n _
    cases n <;> rfl
  | @cons p r ps hp hscan ih =>
    intro n hn
    have hrest : StringsAgree ps := fun s hm => hs s (List.mem_cons_of_mem _ hm)
    rcases hp.plain with ⟨s, rfl, hplain⟩ | ⟨hblank, hplain⟩
    · have hafter := afterString_append (r := r) (hs s List.mem_cons_self) hplain
      have htext : (Piece.token ('\'' :: s ++ ['\''])).text ++ r = '\'' :: (s ++ '\'' :: r) := by
        simp [Piece.text]
      rw [htext] at hn ⊢
      rw [List.length_cons, List.length_append, List.length_cons] at hn
      obtain ⟨m, rfl⟩ : ∃ m, n = m + 1 := ⟨n - 1, by omega⟩
      rw [GiPricing.blankStrings]
      simp only [decide_true, Bool.true_or, if_true, hafter]
      rw [ih hrest (by omega)]
      rfl
    · rw [blankStrings_plain hplain hn, List.flatMap_cons, hblank]
      rw [List.length_append] at hn
      rw [ih hrest (by omega)]

/-! ## Names that stand free -/

def startsWithDigit : List Piece → Bool
  | .token (c :: _) :: _ => isDigit c
  | _ => false

instance (w : List Char) : Decidable (NameText w) :=
  decidable_of_iff (matchName w = some (w, [])) (by
    constructor
    · intro h
      exact nameText_iff.mpr ⟨w, h⟩
    · intro h
      have hmatch := matchName_append (r := []) h (by intro c hc; simp at hc)
      rwa [List.append_nil] at hmatch)

/-- The name tokens that stand free: not directly after a number or before a digit outside ASCII,
and not before an opening parenthesis, white space and string literals apart. -/
def freeFrom : Bool → List Piece → List (List Char)
  | _, [] => []
  | _, .gap _ :: ps => freeFrom false ps
  | blocked, .token t :: ps =>
    if NameText t then
      if !blocked && !called (ps.flatMap Piece.blanked) && !startsWithDigit ps then
        t :: freeFrom true ps
      else freeFrom true ps
    else freeFrom (t.head?.any isDigit) ps

def freeNames (text : String) : List (List Char) := freeFrom false (scan text).1

def blocks (prior : Option Char) : Bool := prior.any fun p => isWordChar p || p = '.' || p = '$'

/-! ## The names that are found -/

theorem isDigit_wordChar {c : Char} (h : isDigit c = true) : isWordChar c = true := by
  unfold isWordChar
  split_ifs with hc
  · have hd := (isDigit_ascii hc).mp h
    simp [isNameChar, hd.1, hd.2]
  · simp [h]

theorem isNameChar_lt {c : Char} (h : isNameChar c = true) : c.toNat < 128 := by
  simp only [isNameChar, isNameStart, Bool.or_eq_true, Bool.and_eq_true, decide_eq_true_eq,
    Char.le_def, UInt32.le_iff_toNat_le] at h
  rcases h with ((h | h) | h) | rfl
  · exact lt_of_le_of_lt h.2 (by decide)
  · exact lt_of_le_of_lt h.2 (by decide)
  · exact lt_of_le_of_lt h.2 (by decide)
  · decide

theorem isNameChar_wordChar {c : Char} (h : isNameChar c = true) : isWordChar c = true := by
  rwa [isWordChar, if_pos (isNameChar_lt h)]

def wideSpaces : List ℕ :=
  [133, 160, 5760, 8192, 8193, 8194, 8195, 8196, 8197, 8198, 8199, 8200, 8201, 8202, 8232, 8233,
    8239, 8287, 12288]

set_option maxRecDepth 20000 in
theorem wideSpaces_plain : (wideSpaces.all fun n =>
    !(digitZeros.any fun z => z ≤ n && n < z + 10) &&
      !(alnumRanges.any fun r => r.1 ≤ n && n ≤ r.2)) = true := by
  decide

theorem isSpace_wordChar {c : Char} (h : isSpace c = true) : isWordChar c = false := by
  simp only [isSpace, Bool.or_eq_true, Bool.and_eq_true, decide_eq_true_eq] at h
  by_cases hc : c.toNat < 128
  · rw [isWordChar, if_pos hc]
    by_contra hn
    rw [Bool.not_eq_false] at hn
    simp only [isNameChar, isNameStart, Bool.or_eq_true, Bool.and_eq_true, decide_eq_true_eq,
      Char.le_def, UInt32.le_iff_toNat_le] at hn
    have hnat : 65 ≤ c.toNat ∧ c.toNat ≤ 90 ∨ 97 ≤ c.toNat ∧ c.toNat ≤ 122 ∨
        48 ≤ c.toNat ∧ c.toNat ≤ 57 ∨ c.toNat = 95 := by
      rcases hn with ((h1 | h1) | h1) | rfl
      · exact .inl h1
      · exact .inr (.inl h1)
      · exact .inr (.inr (.inl h1))
      · exact .inr (.inr (.inr rfl))
    omega
  · have hwide : c.toNat ∈ wideSpaces := by
      simp only [wideSpaces, List.mem_cons, List.not_mem_nil, or_false]
      omega
    have hplain := List.all_eq_true.mp wideSpaces_plain _ hwide
    simp only [Bool.and_eq_true, Bool.not_eq_true'] at hplain
    rw [isWordChar, if_neg hc, isDigit, hplain.1, hplain.2]
    rfl

theorem space_plain {c : Char} (h : isSpace c = true) :
    isWordChar c = false ∧ isWordStart c = false ∧ c ≠ '.' ∧ c ≠ '$' := by
  have hword := isSpace_wordChar h
  refine ⟨hword, ?_, ?_, ?_⟩
  · by_contra hw
    rw [Bool.not_eq_false] at hw
    rw [isNameChar_wordChar (wordStart_plain hw).2.2.2.2.2.2.2] at hword
    cases hword
  · rintro rfl
    exact absurd h (by decide)
  · rintro rfl
    exact absurd h (by decide)

theorem namesFrom_skip {r : List Char} : ∀ {w : List Char} {n : ℕ} {prior : Option Char},
    (∀ c ∈ w, isWordStart c = false) → (w ++ r).length ≤ n →
      namesFrom n prior (w ++ r) = namesFrom (n - w.length) (w.getLast?.or prior) r
  | [], n, prior, _, _ => by simp
  | c :: w, n, prior, hw, hn => by
    rw [List.cons_append, List.length_cons] at hn
    obtain ⟨m, rfl⟩ : ∃ m, n = m + 1 := ⟨n - 1, by omega⟩
    have hc := hw c List.mem_cons_self
    have hrest : namesFrom m (some c) (w ++ r) =
        namesFrom (m - w.length) (w.getLast?.or (some c)) r :=
      namesFrom_skip (fun d h => hw d (List.mem_cons_of_mem _ h)) (by omega)
    rw [List.cons_append, namesFrom]
    simp only [hc, Bool.false_and, Bool.false_eq_true, if_false]
    rw [hrest, List.length_cons, Nat.add_sub_add_right]
    congr 1
    cases w with
    | nil => rfl
    | cons d w =>
      rw [List.getLast?_cons_cons, List.getLast?_eq_some_getLast (List.cons_ne_nil d w)]
      rfl

theorem namesFrom_word {r : List Char} : ∀ {w : List Char} {n : ℕ} {prior : Option Char},
    blocks prior = true → (∀ c ∈ w, isNameChar c = true) → (w ++ r).length ≤ n →
      namesFrom n prior (w ++ r) = namesFrom (n - w.length) (w.getLast?.or prior) r
  | [], n, prior, _, _, _ => by simp
  | c :: w, n, prior, hb, hw, hn => by
    rw [List.cons_append, List.length_cons] at hn
    obtain ⟨m, rfl⟩ : ∃ m, n = m + 1 := ⟨n - 1, by omega⟩
    have hc := hw c List.mem_cons_self
    have hblocks : blocks (some c) = true := by simp [blocks, isNameChar_wordChar hc]
    have hrest := namesFrom_word (r := r) (w := w) (n := m) hblocks
      (fun d h => hw d (List.mem_cons_of_mem _ h)) (by omega)
    have hprior : (prior.any fun p => isWordChar p || p = '.' || p = '$') = true := hb
    rw [List.cons_append, namesFrom]
    simp only [hprior, Bool.not_true, Bool.and_false, Bool.false_and, Bool.false_eq_true, if_false]
    rw [hrest, List.length_cons, Nat.add_sub_add_right]
    congr 1
    cases w with
    | nil => rfl
    | cons d w =>
      rw [List.getLast?_cons_cons, List.getLast?_eq_some_getLast (List.cons_ne_nil d w)]
      rfl

/-- After a name token the next character is a word character exactly when a digit follows. -/
theorem head_blanked {cs : List Char} {ps : List Piece} (h : Scanned cs ps)
    (hstop : Stops isNameChar cs) :
    Stops isNameChar (ps.flatMap Piece.blanked) ∧
      (ps.flatMap Piece.blanked).head?.any isWordChar = startsWithDigit ps := by
  cases h with
  | nil => exact ⟨by intro c hc; simp at hc, rfl⟩
  | @cons p r ps hp _ =>
    rcases hp.plain with ⟨s, rfl, -⟩ | ⟨hblank, -⟩
    · refine ⟨?_, ?_⟩
      · intro c hc
        obtain rfl : ' ' = c := by simpa [Piece.blanked] using hc
        decide
      · simp only [List.flatMap_cons, Piece.blanked, List.cons_append, List.nil_append,
          List.head?_cons, Option.any_some, startsWithDigit]
        decide
    · have hhead : ((p :: ps).flatMap Piece.blanked).head? = (p.text ++ r).head? := by
        obtain ⟨c, t, hct⟩ := List.exists_cons_of_ne_nil hp.text_ne_nil
        rw [List.flatMap_cons, hblank, hct]
        rfl
      refine ⟨fun c hc => hstop c (hhead ▸ hc), ?_⟩
      rw [hhead]
      cases hp with
      | gap hc => simp [Piece.text, startsWithDigit, (space_plain hc).1]
      | @number w _ hw _ _ =>
        obtain ⟨ds, hne, hds, hcase⟩ := hw
        obtain ⟨d, ds', rfl⟩ := List.exists_cons_of_ne_nil hne
        have hd := hds d List.mem_cons_self
        rcases hcase with rfl | ⟨fs, -, -, rfl⟩ <;>
          simp [Piece.text, startsWithDigit, hd, isDigit_wordChar hd]
      | string hw =>
        obtain ⟨s, -, rfl⟩ := hw
        simp only [Piece.text, List.cons_append, List.head?_cons, Option.any_some, startsWithDigit]
        decide
      | name hw _ _ _ =>
        obtain ⟨c, s, rfl, hc, -⟩ := hw
        have hno := hstop c rfl
        rw [(wordStart_plain hc).2.2.2.2.2.2.2] at hno
        cases hno
      | symbol hw =>
        obtain ⟨-, op, hop, rfl⟩ := of_matchSymbol hw
        have hall : (symbolOperators.all fun op => op.toList.all fun c =>
            decide (isWordChar c = false ∧ isDigit c = false)) = true := by decide
        obtain ⟨c, t, hct, -⟩ := symbol_plain op hop
        have hc := forall_of_all (List.all_eq_true.mp hall op hop) c
          (by rw [hct]; exact List.mem_cons_self)
        simp [Piece.text, hct, startsWithDigit, hc.1, hc.2]
      | bracket hc =>
        have hall : ∀ c ∈ structureChars, isWordChar c = false ∧ isDigit c = false :=
          forall_of_all (by decide)
        have hc' := hall _ (by simpa using hc)
        simp [Piece.text, startsWithDigit, hc'.1, hc'.2]

/-- A token that is no name begins no name, and blocks the next one only if it is a number. -/
theorem Lexeme.no_name {t r : List Char} (h : Lexeme (.token t) r) (hname : ¬ NameText t) :
    (∀ c ∈ (Piece.token t).blanked, isWordStart c = false) ∧
      blocks (Piece.token t).blanked.getLast? = t.head?.any isDigit := by
  rcases h.plain with ⟨s, hs, -⟩ | ⟨hblank, -⟩
  · obtain rfl := Piece.token.inj hs
    have hblanked : (Piece.token ('\'' :: s ++ ['\''])).blanked = [' '] := rfl
    rw [hblanked]
    refine ⟨fun c hc => ?_, ?_⟩
    · obtain rfl : c = ' ' := by simpa using hc
      decide
    · show blocks (some ' ') = isDigit '\''
      decide
  · rw [hblank]
    cases h with
    | number hw _ _ =>
      have hstart : ∀ c, isDigit c = true → isWordStart c = false := by
        intro c hc
        by_contra hno
        rw [Bool.not_eq_false] at hno
        rw [(wordStart_plain hno).2.1] at hc
        cases hc
      have hblocks : ∀ {l : List Char}, l ≠ [] → (∀ c ∈ l, isDigit c = true) →
          blocks l.getLast? = true := by
        intro l hl hd
        rw [List.getLast?_eq_some_getLast hl]
        simp [blocks, isDigit_wordChar (hd _ (List.getLast_mem hl))]
      obtain ⟨ds, hne, hds, rfl | ⟨fs, hfne, hfs, rfl⟩⟩ := hw
      · refine ⟨fun c hc => hstart c (hds c hc), ?_⟩
        rw [Piece.text, hblocks hne hds]
        obtain ⟨d, ds', rfl⟩ := List.exists_cons_of_ne_nil hne
        simp [hds d List.mem_cons_self]
      · refine ⟨fun c hc => ?_, ?_⟩
        · rcases List.mem_append.mp hc with hc | hc
          · exact hstart c (hds c hc)
          · rcases List.mem_cons.mp hc with rfl | hc
            · decide
            · exact hstart c (hfs c hc)
        · have hlast : (ds ++ '.' :: fs).getLast? = fs.getLast? := by
            rw [List.getLast?_append_of_ne_nil _ (List.cons_ne_nil _ _)]
            obtain ⟨f, fs', rfl⟩ := List.exists_cons_of_ne_nil hfne
            rw [List.getLast?_cons_cons]
          rw [Piece.text, hlast, hblocks hfne hfs]
          obtain ⟨d, ds', rfl⟩ := List.exists_cons_of_ne_nil hne
          simp [hds d List.mem_cons_self]
    | string hw =>
      obtain ⟨s, -, rfl⟩ := hw
      simp [Piece.blanked, Piece.text] at hblank
    | name hw _ _ _ => exact absurd hw hname
    | symbol hw =>
      obtain ⟨-, op, hop, rfl⟩ := of_matchSymbol hw
      have hstart : (symbolOperators.all fun op =>
          op.toList.all fun c => decide (isWordStart c = false)) = true := by decide
      have hblocks : ∀ op ∈ symbolOperators,
          blocks op.toList.getLast? = op.toList.head?.any isDigit := by decide
      exact ⟨forall_of_all (List.all_eq_true.mp hstart op hop), hblocks op hop⟩
    | bracket hc =>
      have hall : ∀ c ∈ structureChars, isWordStart c = false ∧
          blocks (some c) = isDigit c := forall_of_all (by decide)
      have hc' := hall _ (by simpa using hc)
      refine ⟨fun d hd => ?_, hc'.2⟩
      obtain rfl := List.mem_singleton.mp hd
      exact hc'.1

/-- The names found in the blanked pieces are the name tokens that stand free. -/
theorem Scanned.namesFrom {cs : List Char} {ps : List Piece} (h : Scanned cs ps) :
    ∀ {n : ℕ} {prior : Option Char}, (ps.flatMap Piece.blanked).length ≤ n →
      GiPricing.namesFrom n prior (ps.flatMap Piece.blanked) = freeFrom (blocks prior) ps := by
  induction h with
  | nil =>
    intro n prior _
    cases n <;> rfl
  | @cons p r ps hp hscan ih =>
    intro n prior hn
    rw [List.flatMap_cons] at hn ⊢
    have hskip : (∀ c ∈ p.blanked, isWordStart c = false) → ∀ b,
        blocks (p.blanked.getLast?.or prior) = b →
          GiPricing.namesFrom n prior (p.blanked ++ ps.flatMap Piece.blanked) = freeFrom b ps := by
      intro hw b hb
      rw [namesFrom_skip hw hn, ih (by rw [List.length_append] at hn; omega), hb]
    cases p with
    | gap c =>
      have hc : isSpace c = true := by
        cases hp with
        | gap hc => exact hc
      obtain ⟨hword, hstart, hdot, hdollar⟩ := space_plain hc
      refine hskip (fun d hd => ?_) false ?_
      · obtain rfl : d = c := by simpa [Piece.blanked, Piece.text] using hd
        exact hstart
      · simp [Piece.blanked, Piece.text, blocks, hword, hdot, hdollar]
    | token t =>
      by_cases hname : NameText t
      · obtain ⟨c, s, rfl, hc, hs⟩ := hname
        have hname : NameText (c :: s) := ⟨c, s, rfl, hc, hs⟩
        have hstop : Stops isNameChar r := by
          cases hp with
          | number hw _ _ => exact absurd hname hw.not_nameText
          | string hw =>
            obtain ⟨u, -, hu⟩ := hw
            rw [hu] at hname
            exact absurd hname (not_nameText (by decide))
          | name _ hr _ _ => exact hr
          | symbol hw =>
            obtain ⟨-, op, hop, hw⟩ := of_matchSymbol hw
            obtain ⟨d, u, hdu, -, -, -, hword⟩ := symbol_plain op hop
            rw [hw, hdu] at hname
            exact absurd hname (not_nameText hword)
          | bracket hb =>
            exact absurd hname (not_nameText (structure_plain _ (by simpa using hb)).2.2.2)
        obtain ⟨hstop', hdigit⟩ := head_blanked hscan hstop
        obtain ⟨-, -, hquote, -⟩ := wordStart_plain hc
        have hblank : (Piece.token (c :: s)).blanked = c :: s := by
          unfold Piece.blanked
          split
          · rename_i heq
            exact absurd (List.cons.inj (Piece.token.inj heq)).1 hquote
          · rfl
        rw [hblank] at hn ⊢
        rw [List.cons_append, List.length_cons, List.length_append] at hn
        obtain ⟨m, rfl⟩ : ∃ m, n = m + 1 := ⟨n - 1, by omega⟩
        obtain ⟨htake, hdrop⟩ := takeWhile_append_stops hs hstop'
        have hlast : ∀ d, (c :: s).getLast? = some d → blocks (some d) = true := by
          intro d hd
          have hmem := List.mem_of_getLast? hd
          simp [blocks, isNameChar_wordChar (hname.all d hmem)]
        obtain ⟨d, hd⟩ : ∃ d, (c :: s).getLast? = some d :=
          ⟨_, List.getLast?_eq_some_getLast (List.cons_ne_nil c s)⟩
        have hrest : ∀ {k : ℕ}, (ps.flatMap Piece.blanked).length ≤ k →
            GiPricing.namesFrom k (c :: s).getLast? (ps.flatMap Piece.blanked) =
              freeFrom true ps := by
          intro k hk
          rw [ih hk, hd, hlast d hd]
        rw [List.cons_append, GiPricing.namesFrom, htake, hdrop, freeFrom, if_pos hname]
        have hcond : (isWordStart c && !(prior.any fun p => isWordChar p || p = '.' || p = '$') &&
            !called (ps.flatMap Piece.blanked) &&
              !((ps.flatMap Piece.blanked).head?.any isWordChar)) =
            (!blocks prior && !called (ps.flatMap Piece.blanked) && !startsWithDigit ps) := by
          rw [hc, hdigit, Bool.true_and]
          rfl
        simp only [hcond]
        split_ifs with hfree
        · rw [hrest (by omega)]
        · have hblocks : blocks (some c) = true := by
            simp [blocks, isNameChar_wordChar (wordStart_plain hc).2.2.2.2.2.2.2]
          rw [namesFrom_word hblocks hs (by rw [List.length_append]; omega)]
          have hor : s.getLast?.or (some c) = (c :: s).getLast? := by
            cases s with
            | nil => rfl
            | cons e s =>
              rw [List.getLast?_cons_cons, List.getLast?_eq_some_getLast (List.cons_ne_nil e s)]
              rfl
          rw [hor, hrest (by omega)]
      · rw [freeFrom, if_neg hname]
        obtain ⟨hchars, hblocks⟩ := hp.no_name hname
        refine hskip hchars _ ?_
        rw [← hblocks]
        obtain ⟨c, hc⟩ : ∃ c, (Piece.token t).blanked.getLast? = some c := by
          rcases hp.plain with ⟨s, hs, -⟩ | ⟨hblank, -⟩
          · rw [hs]
            exact ⟨' ', rfl⟩
          · rw [hblank]
            exact ⟨_, List.getLast?_eq_some_getLast hp.text_ne_nil⟩
        rw [hc]
        rfl

/-! ## Declared reads -/

def RatingStep.undeclared (s : RatingStep) : List String :=
  (s.referencedNames.filter fun n => !s.consumes.contains n).dedup.insertionSort (· ≤ ·)

/-- A `RATING_STEP_UNDECLARED_READ` on the field `consumes`, with what its message names. -/
structure UndeclaredRead where
  stepId : String
  undeclared : List String
  deriving DecidableEq, Repr

/-- `_check_declared_reads`: the step types it reads are those of the interior steps. -/
def checkDeclaredReads (algo : RatingAlgorithmDraft) : List UndeclaredRead :=
  (algo.steps.filter RatingStep.isInterior).filterMap fun s =>
    if s.undeclared = [] then none else some ⟨s.stepId, s.undeclared⟩

theorem RatingStep.mem_undeclared {s : RatingStep} {w : String} :
    w ∈ s.undeclared ↔ w ∉ s.consumes ∧ (w ∈ s.readTexts.flatMap namesIn ∨ w ∈ s.featureNames) := by
  simp only [undeclared, referencedNames, List.mem_insertionSort, List.mem_dedup, List.mem_filter,
    List.mem_append, List.contains_eq_mem, Bool.not_eq_true', decide_eq_false_iff_not]
  tauto

theorem RatingStep.interior_of_readTexts {s : RatingStep} {text : String}
    (h : text ∈ s.readTexts) : s.isInterior = true := by
  rcases s with ⟨_, _, _, kind, _, _⟩
  cases kind with
  | input => simp [readTexts, authored] at h
  | output => simp [readTexts, authored] at h
  | _ => rfl

theorem reported_of_mem_namesIn {algo : RatingAlgorithmDraft} {s : RatingStep} {text w : String}
    (hs : s ∈ algo.steps) (ht : text ∈ s.readTexts) (hw : w ∈ namesIn text)
    (hdeclared : w ∉ s.consumes) :
    ∃ issue ∈ checkDeclaredReads algo, issue.stepId = s.stepId ∧ w ∈ issue.undeclared := by
  have hmem : w ∈ s.undeclared :=
    RatingStep.mem_undeclared.mpr ⟨hdeclared, .inl (List.mem_flatMap.mpr ⟨text, ht, hw⟩)⟩
  refine ⟨⟨s.stepId, s.undeclared⟩, ?_, rfl, hmem⟩
  refine List.mem_filterMap.mpr
    ⟨s, List.mem_filter.mpr ⟨hs, RatingStep.interior_of_readTexts ht⟩, ?_⟩
  rw [if_neg (List.ne_nil_of_mem hmem)]

/-! ## Agreement -/

/-- A text reads a name: it is a name token, and no function or keyword. -/
def ReadsWord (text w : String) : Prop :=
  w.toList ∈ tokens text ∧ NameText w.toList ∧ w ∉ functions ∧ w ∉ referenceKeywords

instance (text w : String) : Decidable (ReadsWord text w) :=
  inferInstanceAs (Decidable (_ ∧ _ ∧ _ ∧ _))

/-- The second lexer finds the names that the text reads, and a step that evaluates the text has
each of them reported that it does not declare. -/
structure LexersAgree (text : String) : Prop where
  names : ∀ w, w ∈ namesIn text ↔ ReadsWord text w
  reported : ∀ (algo : RatingAlgorithmDraft), ∀ s ∈ algo.steps, text ∈ s.readTexts →
    ∀ w, ReadsWord text w → w ∉ s.consumes →
      ∃ issue ∈ checkDeclaredReads algo, issue.stepId = s.stepId ∧ w ∈ issue.undeclared

/-- Both lexers end the text's literals alike, each name it reads stands free somewhere, and no
function does. -/
structure ReadsFree (text : String) : Prop where
  strings : StringsAgree (scan text).1
  names : ∀ w, ReadsWord text w → w.toList ∈ freeNames text
  functions : ∀ t ∈ freeNames text, String.ofList t ∉ functions

theorem freeFrom_subset : ∀ {ps : List Piece} {b : Bool} {t : List Char}, t ∈ freeFrom b ps →
    .token t ∈ ps ∧ NameText t
  | [], _, _, h => by cases h
  | .gap c :: ps, b, t, h => by
    have htail : t ∈ freeFrom false ps := h
    obtain ⟨hm, hn⟩ := freeFrom_subset htail
    exact ⟨List.mem_cons_of_mem _ hm, hn⟩
  | .token u :: ps, b, t, h => by
    have htail : ∀ b', t ∈ freeFrom b' ps → .token t ∈ Piece.token u :: ps ∧ NameText t := by
      intro b' h'
      obtain ⟨hm, hn⟩ := freeFrom_subset h'
      exact ⟨List.mem_cons_of_mem _ hm, hn⟩
    rw [freeFrom] at h
    split_ifs at h with hu hfree
    · rcases List.mem_cons.mp h with rfl | h
      · exact ⟨List.mem_cons_self, hu⟩
      · exact htail _ h
    · exact htail _ h
    · exact htail _ h

theorem mem_namesIn {text : String} {ps : List Piece} (h : scan text = (ps, none))
    (hs : StringsAgree ps) {w : String} :
    w ∈ namesIn text ↔ w.toList ∈ freeNames text ∧ w ∉ referenceKeywords := by
  have hscan := scan_eq_ok.mp h
  have hblank := hscan.blankStrings hs (n := text.toList.length) le_rfl
  have hnames : namesFrom (ps.flatMap Piece.blanked).length none (ps.flatMap Piece.blanked) =
      freeFrom (blocks none) ps := hscan.namesFrom le_rfl
  rw [namesIn, freeNames, h]
  dsimp only
  rw [hblank, hnames, List.mem_filter, List.mem_map, show blocks none = false from rfl]
  simp only [List.contains_eq_mem, Bool.not_eq_true', decide_eq_false_iff_not]
  refine and_congr_left fun _ => ⟨?_, fun hw => ⟨_, hw, String.ofList_toList⟩⟩
  rintro ⟨t, ht, rfl⟩
  rwa [String.toList_ofList]

/-- On an accepted text the lexers agree when its names stand free, and only then if they end its
literals alike: past a literal that ends elsewhere the second lexer is out of step, and may still
find the same names. -/
theorem lexersAgree_iff (text : String) (h : checkAllowList text = none) :
    (ReadsFree text → LexersAgree text) ∧
      (StringsAgree (scan text).1 → LexersAgree text → ReadsFree text) := by
  obtain ⟨ps, hscan⟩ := scanned_of_accepted h
  have hps : (scan text).1 = ps := by rw [hscan]
  constructor
  · intro hfree
    have hnames : ∀ w, w ∈ namesIn text ↔ ReadsWord text w := by
      intro w
      rw [mem_namesIn hscan (hps ▸ hfree.strings)]
      constructor
      · rintro ⟨hw, hkey⟩
        have hfun := hfree.functions _ hw
        rw [String.ofList_toList] at hfun
        rw [freeNames, hps] at hw
        obtain ⟨hm, hn⟩ := freeFrom_subset hw
        exact ⟨(mem_tokens hscan).mpr hm, hn, hfun, hkey⟩
      · intro hw
        exact ⟨hfree.names w hw, hw.2.2.2⟩
    refine ⟨hnames, ?_⟩
    intro algo s hs ht w hw hdeclared
    exact reported_of_mem_namesIn hs ht ((hnames w).mpr hw) hdeclared
  · intro hstrings hagree
    have hfound : ∀ {w}, w ∈ namesIn text ↔ w.toList ∈ freeNames text ∧ w ∉ referenceKeywords :=
      mem_namesIn hscan (hps ▸ hstrings)
    have hdisjoint : ∀ w ∈ functions, w ∉ referenceKeywords := by decide
    refine ⟨hstrings, ?_, ?_⟩
    · intro w hw
      exact (hfound.mp ((hagree.names w).mpr hw)).1
    · intro t ht hfun
      have hw : String.ofList t ∈ namesIn text :=
        hfound.mpr ⟨by rwa [String.toList_ofList], hdisjoint _ hfun⟩
      exact ((hagree.names _).mp hw).2.2.1 hfun

theorem lexersAgree_base : LexersAgree "base * 2 + 'a b'" := by
  have hscan : (scan "base * 2 + 'a b'").1 =
      [.token "base".toList, .gap ' ', .token ['*'], .gap ' ', .token ['2'], .gap ' ',
        .token ['+'], .gap ' ', .token "'a b'".toList] := by decide
  refine (lexersAgree_iff _ (by decide)).1 ⟨?_, ?_, by decide⟩
  · intro s hm
    rw [hscan] at hm
    have hs : '\'' :: s ++ ['\''] = "'a b'".toList := by simpa using hm
    have hs' : s ++ ['\''] = ['a', ' ', 'b'] ++ ['\''] := by simpa using hs
    obtain rfl := List.append_cancel_right hs'
    rfl
  · rintro w ⟨ht, hname, -, -⟩
    have hfree : ∀ t ∈ tokens "base * 2 + 'a b'", NameText t →
        t ∈ freeNames "base * 2 + 'a b'" := by decide
    exact hfree _ ht hname

/-- A name glued to a number is a token of the text and no name that is read, so that the step that
reads it undeclared is not reported. -/
theorem not_lexersAgree_glued : checkAllowList "2load" = none ∧ ReadsWord "2load" "load" ∧
    namesIn "2load" = [] ∧
    checkDeclaredReads ⟨"tariff", 1, [], [],
      [⟨"loaded", [], ["loaded"], .expression "2load" "decimal", "loaded", none⟩], []⟩ = [] ∧
    ¬ LexersAgree "2load" := by
  refine ⟨by decide, by decide, by decide, by decide, fun h => ?_⟩
  have hw := (h.names "load").mpr (by decide)
  exact absurd hw (by decide)

end GiPricing

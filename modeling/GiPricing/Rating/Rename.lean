import GiPricing.Rating.Tokens

/-! # Renaming by token

The enforced vocabulary of an authored text, and what scanning gives of an accepted text that an
inlined mount renames.
-/

namespace GiPricing

/-- `_tokenize`: the tokens of a text. -/
def tokens (text : String) : List (List Char) :=
  (scan text).1.filterMap fun
    | .token t => some t
    | .gap _ => none

/-! ## The allow-list -/

def arrayFunctions : List String := ["min", "max"]

/-- The brackets and commas of the array argument of a call, from the tokens after its opening
bracket with their positions; or the construct that is refused. -/
def arrayTokens (name : String) :
    List (String × ℕ) → ℤ → ℤ → List ℕ → Except String (List ℕ)
  | [], _, _, _ => .error "["
  | (token, j) :: rest, brackets, parens, owned =>
    if token = "[" then arrayTokens name rest (brackets + 1) parens owned
    else if token = "(" then arrayTokens name rest brackets (parens + 1) owned
    else if token = ")" then arrayTokens name rest brackets (parens - 1) owned
    else if token = "," ∧ brackets = 1 ∧ parens = 0 then
      arrayTokens name rest brackets parens (j :: owned)
    else if token = "]" then
      if brackets - 1 = 0 then
        if (rest.map Prod.fst).take 1 = [")"] then .ok (j :: owned) else .error name
      else arrayTokens name rest (brackets - 1) parens owned
    else arrayTokens name rest brackets parens owned

/-- `_array_argument`: the structure that belongs to the `min` or `max` at a position. -/
def arrayArgument (numbered : List (String × ℕ)) (name : String) (start : ℕ) :
    Except String (List ℕ) :=
  if ((numbered.drop (start + 1)).take 2).map Prod.fst = ["(", "["] then
    arrayTokens name (numbered.drop (start + 3)) 1 0 [start + 2]
  else .error name

/-- The structure that the function at a position owns, or the construct that is refused. -/
def callStructure (numbered : List (String × ℕ)) (token : String) (index : ℕ) :
    Except String (List ℕ) :=
  let after (n : ℕ) := ((numbered.drop (index + 1)).take n).map Prod.fst
  if arrayFunctions.contains token then
    if after 1 = ["("] then arrayArgument numbered token index else .error token
  else if token = "number" ∧ after 2 = ["(", ")"] then .error token
  else .ok []

/-- `check_allow_list`: the first construct that is not on the list. -/
def checkAllowList (text : String) : Option String :=
  match scan text with
  | (_, some w) => some (String.ofList w)
  | (_, none) =>
    let numbered := ((tokens text).map String.ofList).zipIdx
    match numbered.mapM fun e => callStructure numbered e.1 e.2 with
    | .error construct => some construct
    | .ok owned =>
      (numbered.find? fun e =>
        ["[", "]", ","].contains e.1 && !owned.flatten.contains e.2).map Prod.fst

theorem scanned_of_accepted {text : String} (h : checkAllowList text = none) :
    ∃ ps, scan text = (ps, none) := by
  unfold checkAllowList at h
  split at h
  · cases h
  · rename_i ps hscan
    exact ⟨ps, hscan⟩

example : checkAllowList "max([ncd, 1])" = none := by decide

/-! ## The tokens of a renamed text -/

theorem mem_tokens {text : String} {ps : List Piece} (h : scan text = (ps, none)) {t : List Char} :
    t ∈ tokens text ↔ .token t ∈ ps := by
  rw [tokens, h, List.mem_filterMap]
  constructor
  · rintro ⟨p, hp, heq⟩
    cases p with
    | gap c => cases heq
    | token u => exact Option.some.inj heq ▸ hp
  · intro ht
    exact ⟨_, ht, rfl⟩

theorem NameText.all {w : List Char} (h : NameText w) : ∀ c ∈ w, isNameChar c = true := by
  obtain ⟨c, s, rfl, hc, hs⟩ := h
  intro d hd
  rcases List.mem_cons.mp hd with rfl | hd
  · exact (wordStart_plain hc).2.2.2.2.2.2.2
  · exact hs d hd

theorem base_nodup : ([("base", "base price")].map Prod.fst).Nodup := by decide

end GiPricing

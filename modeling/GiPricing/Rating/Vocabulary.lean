import GiPricing.Rating.Algorithm
import GiPricing.Text.Char

/-! # Authored texts

The tokenizer of the enforced vocabulary, the renaming of name tokens, and the names a
text reads. Renaming is by token: everything between the tokens is kept as written.
-/

namespace GiPricing

/-! ## Characters -/

/-- `[A-Za-z_]`, the first character of a name token. -/
def isWordStart (c : Char) : Bool := isNameStart c || c = '_'

/-! ## Tokens -/

def functions : List String := ["min", "max", "abs", "number"]
def literalWords : List String := ["true", "false", "null"]
def wordOperators : List String := ["and", "or", "not"]

def symbolOperators : List String :=
  ["==", "!=", "<=", ">=", "??", "+", "-", "*", "/", "<", ">", "?", ":"]

def structureChars : List Char := ['(', ')', '[', ']', ',']

def keepWords : List String := functions ++ literalWords ++ wordOperators

/-- `\d+(?:\.\d+)?` at the head of a text, with the rest. -/
def matchNumber (cs : List Char) : Option (List Char × List Char) :=
  match cs.takeWhile isDigit, cs.dropWhile isDigit with
  | [], _ => none
  | ds, '.' :: r =>
    if (r.takeWhile isDigit).isEmpty then some (ds, '.' :: r)
    else some (ds ++ '.' :: r.takeWhile isDigit, r.dropWhile isDigit)
  | ds, r => some (ds, r)

/-- `'[^'\n]*'` at the head of a text, with the rest. -/
def matchString : List Char → Option (List Char × List Char)
  | '\'' :: t =>
    let inside := fun c => c ≠ '\'' && c ≠ '\n'
    match t.dropWhile inside with
    | '\'' :: r => some ('\'' :: t.takeWhile inside ++ ['\''], r)
    | _ => none
  | _ => none

/-- `[A-Za-z_][A-Za-z0-9_]*` at the head of a text, with the rest. -/
def matchName : List Char → Option (List Char × List Char)
  | c :: t => if isWordStart c then some (c :: t.takeWhile isNameChar, t.dropWhile isNameChar)
    else none
  | [] => none

def matchSymbol (cs : List Char) : Option (List Char × List Char) :=
  (symbolOperators.find? fun op => op.toList.isPrefixOf cs).map fun op =>
    (op.toList, cs.drop op.toList.length)

/-- The text goes on with an opening parenthesis: `text[i:].lstrip().startswith("(")`. -/
def called (rest : List Char) : Bool := match rest.dropWhile isSpace with
  | '(' :: _ => true
  | _ => false

/-- A scanned text, cut into white space and tokens. -/
inductive Piece
  | gap (c : Char)
  | token (t : List Char)
  deriving DecidableEq, Repr

def Piece.text : Piece → List Char
  | gap c => [c]
  | token t => t

/-- What a scan meets next: a piece and the rest, or a construct that is refused. -/
def nextPiece : List Char → Option (Except (List Char) (Piece × List Char))
  | [] => none
  | c :: t => some <|
    if isSpace c then .ok (.gap c, t)
    else match matchNumber (c :: t) with
    | some (w, r) => .ok (.token w, r)
    | none => match matchString (c :: t) with
      | some (w, r) => .ok (.token w, r)
      | none =>
        if c = '\'' then .error [c]
        else match matchName (c :: t) with
        | some (w, r) =>
          let word := String.ofList w
          if word = "in" then .error w
          else if called r && !functions.contains word && !wordOperators.contains word then .error w
          else .ok (.token w, r)
        | none => match matchSymbol (c :: t) with
          | some (w, r) => .ok (.token w, r)
          | none => if structureChars.contains c then .ok (.token [c], t) else .error [c]

/-- The pieces of a text and the first refused construct, with fuel for every character. -/
def scanFrom : ℕ → List Char → List Piece × Option (List Char)
  | 0, _ => ([], none)
  | n + 1, cs => match nextPiece cs with
    | none => ([], none)
    | some (.error w) => ([], some w)
    | some (.ok (p, r)) => (p :: (scanFrom n r).1, (scanFrom n r).2)

def scan (text : String) : List Piece × Option (List Char) :=
  scanFrom text.toList.length text.toList

/-- `token in mapping and token not in keep and _NAME.fullmatch(token)`. -/
def renamedToken (mapping : String → Option String) (t : List Char) : List Char :=
  match matchName t with
  | some (_, []) =>
    if keepWords.contains (String.ofList t) then t
    else ((mapping (String.ofList t)).map String.toList).getD t
  | _ => t

/-- Replace each name token that the mapping maps; a text with a refused construct is kept. -/
def renameTokens (text : String) (mapping : String → Option String) : String :=
  match scan text with
  | (_, some _) => text
  | (pieces, none) => String.ofList <| pieces.flatMap fun
    | .gap c => [c]
    | .token t => renamedToken mapping t

/-! ## The names a text reads -/

/-- The rest of a text after a string literal opened by `quote`, a backslash escaping the
character after it. -/
def afterString (quote : Char) : List Char → Option (List Char)
  | [] => none
  | c :: t =>
    if c = quote then some t
    else if c = '\\' then match t with
      | [] => none
      | e :: t' => if e = '\n' then none else afterString quote t'
    else afterString quote t

/-- The text with each string literal replaced by a blank, with fuel for every character. -/
def blankStrings : ℕ → List Char → List Char
  | 0, cs => cs
  | _, [] => []
  | n + 1, c :: t =>
    if c = '\'' || c = '"' then match afterString c t with
      | some r => ' ' :: blankStrings n r
      | none => c :: blankStrings n t
    else c :: blankStrings n t

/-- `\w` -/
def isWordChar (c : Char) : Bool :=
  if c.toNat < 128 then isNameChar c
  else isDigit c || alnumRanges.any fun r => r.1 ≤ c.toNat && c.toNat ≤ r.2

/-- The names of a text without string literals. `prior` is the character before the text: a
name is not preceded by a word character, `.` or `$`, and is not called. -/
def namesFrom : ℕ → Option Char → List Char → List (List Char)
  | 0, _, _ => []
  | _, _, [] => []
  | n + 1, prior, c :: t =>
    let w := c :: t.takeWhile isNameChar
    let r := t.dropWhile isNameChar
    let blocked := prior.any fun p => isWordChar p || p = '.' || p = '$'
    if isWordStart c && !blocked && !called r && !(r.head?.any isWordChar) then
      w :: namesFrom n w.getLast? r
    else namesFrom n (some c) t

def referenceKeywords : List String := ["true", "false", "null", "and", "or", "not", "in"]

/-- The names a text reads: identifiers outside string literals that are no keyword, member or
call. -/
def namesIn (text : String) : List String :=
  let cs := blankStrings text.toList.length text.toList
  ((namesFrom cs.length none cs).map String.ofList).filter fun w => !referenceKeywords.contains w

def stampedDate : String := "effective_date"

def RatingStep.readTexts (s : RatingStep) : List String := match s.kind with
  | .lookup _ key asAt _ => key ++ (if asAt = stampedDate then [] else [asAt])
  | _ => s.authored

/-- Declared `consumes`, the names its evaluated fields read and the keys of its feature map. -/
def RatingStep.referencedNames (s : RatingStep) : List String :=
  s.consumes ++ s.readTexts.flatMap namesIn ++ s.featureNames

example : renameTokens "ncd * ncd_2" (fun n => if n = "ncd" then some "m__ncd" else none) =
    "m__ncd * ncd_2" := by decide

end GiPricing

import GiPricing.Score.Value

/-! # Dates and literals

The texts the wire is written in: dates, quoted literals, JSON strings and the text of a
value.
-/

namespace GiPricing

open Decimal

def padded (width n : ℕ) : List Char :=
  let digits := Nat.toDigits 10 n
  List.replicate (width - digits.length) '0' ++ digits

/-! ## Dates -/

def isLeap (year : ℕ) : Bool := year % 4 = 0 && (year % 100 ≠ 0 || year % 400 = 0)

def daysInMonth (year month : ℕ) : ℕ :=
  if month = 2 then if isLeap year then 29 else 28
  else if month ∈ [4, 6, 9, 11] then 30 else 31

structure Date where
  year : ℕ
  month : ℕ
  day : ℕ
  year_ok : 1 ≤ year ∧ year ≤ 9999
  month_ok : 1 ≤ month ∧ month ≤ 12
  day_ok : 1 ≤ day ∧ day ≤ daysInMonth year month
  deriving DecidableEq, Repr

namespace Date

def rank (d : Date) : ℕ := (d.year * 12 + d.month) * 32 + d.day

instance : LE Date := ⟨fun a b => a.rank ≤ b.rank⟩
instance : LT Date := ⟨fun a b => a.rank < b.rank⟩
instance (a b : Date) : Decidable (a ≤ b) := inferInstanceAs (Decidable (a.rank ≤ b.rank))
instance (a b : Date) : Decidable (a < b) := inferInstanceAs (Decidable (a.rank < b.rank))

def isoformat (d : Date) : String :=
  String.ofList (padded 4 d.year ++ '-' :: padded 2 d.month ++ '-' :: padded 2 d.day)

def ofParts? (year month day : ℕ) : Option Date :=
  if h : (1 ≤ year ∧ year ≤ 9999) ∧ (1 ≤ month ∧ month ≤ 12) ∧
      1 ≤ day ∧ day ≤ daysInMonth year month then
    some ⟨year, month, day, h.1, h.2.1, h.2.2⟩
  else none

/-- A strict `YYYY-MM-DD` calendar date. -/
def ofIso? (s : String) : Option Date :=
  match s.toList with
  | [y₁, y₂, y₃, y₄, '-', m₁, m₂, '-', d₁, d₂] =>
    if [y₁, y₂, y₃, y₄, m₁, m₂, d₁, d₂].all Char.isDigit then
      ofParts? (digitsValue [y₁, y₂, y₃, y₄]) (digitsValue [m₁, m₂]) (digitsValue [d₁, d₂])
    else none
  | _ => none

example : (ofIso? "2024-02-29").map isoformat = some "2024-02-29" ∧ ofIso? "2023-02-29" = none := by
  decide

end Date

/-! ## Literals -/

/-- `value.replace("'", "\\'")` between single quotes. -/
def singleQuoted (value : String) : String :=
  String.ofList ('\'' :: (value.toList.flatMap fun c => if c = '\'' then ['\\', '\''] else [c]) ++ ['\''])

def hex4 (n : ℕ) : List Char :=
  let digits := Nat.toDigits 16 n
  '\\' :: 'u' :: (List.replicate (4 - digits.length) '0' ++ digits)

/-- A character of a JSON string, every character outside printable ASCII escaped. -/
def jsonChar (c : Char) : List Char :=
  let n := c.toNat
  if c = '"' then ['\\', '"']
  else if c = '\\' then ['\\', '\\']
  else if c = '\n' then ['\\', 'n']
  else if c = '\r' then ['\\', 'r']
  else if c = '\t' then ['\\', 't']
  else if n = 12 then ['\\', 'f']
  else if n = 8 then ['\\', 'b']
  else if 32 ≤ n ∧ n ≤ 126 then [c]
  else if n < 65536 then hex4 n
  else hex4 (55296 + (n - 65536) / 1024) ++ hex4 (56320 + (n - 65536) % 1024)

/-- `json.dumps` of a text. -/
def jsonText (s : String) : String := String.ofList ('"' :: s.toList.flatMap jsonChar ++ ['"'])

/-! ## The text of a value -/

def fractionDigits (q : ℚ) : ℕ :=
  ((List.range (Nat.log2 q.den + 1)).find? fun k => 10 ^ k % q.den = 0).getD 0

/-- The text of a float whose shortest decimal is the given number: positional from `1e-4` up to
`1e16`, else with an exponent. -/
def floatText : Number → String
  | .nan _ => "nan"
  | .infinite negative => if negative then "-inf" else "inf"
  | .finite q =>
    let k := fractionDigits q
    let digits := Nat.toDigits 10 (q.num.natAbs * (10 ^ k / q.den))
    let point : ℤ := digits.length - k
    let significant := (digits.reverse.dropWhile (· = '0')).reverse
    let sign := if q < 0 then ['-'] else []
    String.ofList <| sign ++
      if q = 0 then ['0', '.', '0']
      else if 16 < point ∨ point < -3 then
        let e := point - 1
        let fraction := significant.tail
        significant.take 1 ++ (if fraction = [] then [] else '.' :: fraction) ++
          'e' :: (if e < 0 then '-' else '+') :: padded 2 e.natAbs
      else if point ≤ 0 then
        '0' :: '.' :: (List.replicate point.natAbs '0' ++ significant)
      else
        let n := point.toNat
        let fraction := significant.drop n
        significant.take n ++ List.replicate (n - significant.length) '0' ++
          '.' :: if fraction = [] then ['0'] else fraction

/-- `str(value)` of a stored value; a stored value is never a decimal. -/
def Value.str : Value → String
  | .null => "None"
  | .bool true => "True"
  | .bool false => "False"
  | .int n => toString n
  | .float x => floatText x
  | .decimal x => floatText x
  | .text s => s
  | .compound json _ => json

end GiPricing

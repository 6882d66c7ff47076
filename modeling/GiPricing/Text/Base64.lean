import GiPricing.Text.Char

/-! # Base64

The URL-safe base64 text of a sequence of bytes, and the decoder of the standard library, which passes
over the characters that are not of the alphabet.
-/

namespace GiPricing.Base64

def alphabet : List Char :=
  "ABCDEFGHIJKLMNOPQRSTUVWXYZabcdefghijklmnopqrstuvwxyz0123456789-_".toList

def char (n : ℕ) : Char := alphabet.getD n 'A'

/-- Six bits of a character: `+` and `/` are read as `-` and `_` are. -/
def sextet (c : Char) : Option ℕ :=
  if c = '+' then some 62 else if c = '/' then some 63 else alphabet.idxOf? c

/-- The characters of a text before its padding. -/
def body : List UInt8 → List Char
  | [] => []
  | [a] => [char (a.toNat / 4), char (a.toNat % 4 * 16)]
  | [a, b] => [char (a.toNat / 4), char (a.toNat % 4 * 16 + b.toNat / 16), char (b.toNat % 16 * 4)]
  | a :: b :: c :: rest =>
    char (a.toNat / 4) :: char (a.toNat % 4 * 16 + b.toNat / 16) ::
      char (b.toNat % 16 * 4 + c.toNat / 64) :: char (c.toNat % 64) :: body rest

def missing (n : ℕ) : ℕ := (4 - n % 4) % 4

/-- `urlsafe_b64encode`. -/
def encode (bytes : List UInt8) : List Char :=
  body bytes ++ List.replicate (missing (body bytes).length) '='

/-- The loop of `a2b_base64`: how many characters of a group of four are read, the bits of the last one
that are left, and how many pads follow it. -/
def readFrom : ℕ → ℕ → ℕ → List Char → Option (List UInt8)
  | quad, _, _, [] => if quad = 0 then some [] else none
  | quad, left, pads, c :: rest =>
    if c = '=' then
      if quad < 2 then readFrom quad left pads rest
      else if 4 ≤ quad + (pads + 1) then some []
      else readFrom quad left (pads + 1) rest
    else match sextet c with
      | none => readFrom quad left pads rest
      | some n => match quad with
        | 0 => readFrom 1 n 0 rest
        | 1 => (readFrom 2 (n % 16) 0 rest).map (UInt8.ofNat (left * 4 + n / 16) :: ·)
        | 2 => (readFrom 3 (n % 4) 0 rest).map (UInt8.ofNat (left * 16 + n / 4) :: ·)
        | _ => (readFrom 0 0 0 rest).map (UInt8.ofNat (left * 64 + n) :: ·)

/-- `urlsafe_b64decode`: a text of ASCII characters is read. -/
def decode (text : List Char) : Option (List UInt8) :=
  if text.all fun c => c.toNat < 128 then readFrom 0 0 0 text else none

/-! ## What is encoded is read -/

theorem alphabet_eq : alphabet =
    ['A', 'B', 'C', 'D', 'E', 'F', 'G', 'H', 'I', 'J', 'K', 'L', 'M', 'N', 'O', 'P', 'Q', 'R', 'S',
      'T', 'U', 'V', 'W', 'X', 'Y', 'Z', 'a', 'b', 'c', 'd', 'e', 'f', 'g', 'h', 'i', 'j', 'k', 'l',
      'm', 'n', 'o', 'p', 'q', 'r', 's', 't', 'u', 'v', 'w', 'x', 'y', 'z', '0', '1', '2', '3', '4',
      '5', '6', '7', '8', '9', '-', '_'] := String.toList_ofList

theorem length_alphabet : alphabet.length = 64 := by rw [alphabet_eq]; rfl

theorem nodup_alphabet : alphabet.Nodup := by
  have hcodes : (alphabet.map Char.toNat).Nodup := by rw [alphabet_eq]; decide
  exact hcodes.of_map _

theorem mem_alphabet {c : Char} (hc : c ∈ alphabet) :
    c ≠ '+' ∧ c ≠ '/' ∧ c ≠ '=' ∧ c.toNat < 128 := by
  have hall : alphabet.all fun c => c ≠ '+' ∧ c ≠ '/' ∧ c ≠ '=' ∧ c.toNat < 128 := by
    rw [alphabet_eq]
    decide
  exact of_decide_eq_true (List.all_eq_true.mp hall c hc)

theorem sextet_char :
    ∀ n < 64, sextet (char n) = some n ∧ char n ≠ '=' ∧ (char n).toNat < 128 := by
  intro n hn
  have hlt : n < alphabet.length := by rwa [length_alphabet]
  have hchar : char n = alphabet[n] := by simp [char, hlt]
  obtain ⟨hplus, hslash, hpad, hascii⟩ := mem_alphabet (List.getElem_mem hlt)
  rw [hchar]
  refine ⟨?_, hpad, hascii⟩
  rw [sextet, if_neg hplus, if_neg hslash, List.idxOf?_eq_some_iff]
  exact ⟨hlt, rfl, fun j hj h => absurd (nodup_alphabet.getElem_inj_iff.mp h) hj.ne⟩

section

variable {n : ℕ} (hn : n < 64) (left pads : ℕ) (rest : List Char)

include hn

attribute [local simp] readFrom

theorem readFrom_zero_char :
    readFrom 0 left pads (char n :: rest) = readFrom 1 n 0 rest := by
  obtain ⟨hs, he, -⟩ := sextet_char n hn
  simp [hs, he]

theorem readFrom_one_char : readFrom 1 left pads (char n :: rest) =
    (readFrom 2 (n % 16) 0 rest).map (UInt8.ofNat (left * 4 + n / 16) :: ·) := by
  obtain ⟨hs, he, -⟩ := sextet_char n hn
  simp [hs, he]

theorem readFrom_two_char : readFrom 2 left pads (char n :: rest) =
    (readFrom 3 (n % 4) 0 rest).map (UInt8.ofNat (left * 16 + n / 4) :: ·) := by
  obtain ⟨hs, he, -⟩ := sextet_char n hn
  simp [hs, he]

theorem readFrom_three_char : readFrom 3 left pads (char n :: rest) =
    (readFrom 0 0 0 rest).map (UInt8.ofNat (left * 64 + n) :: ·) := by
  obtain ⟨hs, he, -⟩ := sextet_char n hn
  simp [hs, he]

end

theorem ofNat_eq {a : UInt8} {n : ℕ} (h : n = a.toNat) : UInt8.ofNat n = a := by
  rw [h, UInt8.ofNat_toNat]

theorem body_cons (a b c : UInt8) (rest : List UInt8) :
    (body (a :: b :: c :: rest)).length = (body rest).length + 4 := by simp [body]

theorem missing_add_four (n : ℕ) : missing (n + 4) = missing n := by
  unfold missing; omega

theorem readFrom_encode (bytes : List UInt8) : readFrom 0 0 0 (encode bytes) = some bytes := by
  fun_induction body bytes with
  | case1 => decide
  | case2 a =>
    have ha := a.toNat_lt
    have hbyte : UInt8.ofNat (a.toNat / 4 * 4 + a.toNat % 4 * 16 / 16) = a := ofNat_eq (by omega)
    have hpad : encode [a] = [char (a.toNat / 4), char (a.toNat % 4 * 16), '=', '='] := rfl
    rw [hpad, readFrom_zero_char (by omega), readFrom_one_char (by omega), hbyte]
    simp [readFrom]
  | case3 a b =>
    have ha := a.toNat_lt
    have hb := b.toNat_lt
    have h₁ : UInt8.ofNat (a.toNat / 4 * 4 + (a.toNat % 4 * 16 + b.toNat / 16) / 16) = a :=
      ofNat_eq (by omega)
    have h₂ : UInt8.ofNat ((a.toNat % 4 * 16 + b.toNat / 16) % 16 * 16 + b.toNat % 16 * 4 / 4) = b :=
      ofNat_eq (by omega)
    have hpad : encode [a, b] = [char (a.toNat / 4), char (a.toNat % 4 * 16 + b.toNat / 16),
      char (b.toNat % 16 * 4), '='] := rfl
    rw [hpad, readFrom_zero_char (by omega), readFrom_one_char (by omega),
      readFrom_two_char (by omega), h₁, h₂]
    simp [readFrom]
  | case4 a b c rest ih =>
    have ha := a.toNat_lt
    have hb := b.toNat_lt
    have hc := c.toNat_lt
    have h₁ : UInt8.ofNat (a.toNat / 4 * 4 + (a.toNat % 4 * 16 + b.toNat / 16) / 16) = a :=
      ofNat_eq (by omega)
    have h₂ : UInt8.ofNat ((a.toNat % 4 * 16 + b.toNat / 16) % 16 * 16 +
        (b.toNat % 16 * 4 + c.toNat / 64) / 4) = b := ofNat_eq (by omega)
    have h₃ : UInt8.ofNat ((b.toNat % 16 * 4 + c.toNat / 64) % 4 * 64 + c.toNat % 64) = c :=
      ofNat_eq (by omega)
    have hstep : encode (a :: b :: c :: rest) = char (a.toNat / 4) ::
        char (a.toNat % 4 * 16 + b.toNat / 16) :: char (b.toNat % 16 * 4 + c.toNat / 64) ::
        char (c.toNat % 64) :: encode rest := by
      rw [encode, encode, body_cons, missing_add_four]
      rfl
    rw [hstep, readFrom_zero_char (by omega), readFrom_one_char (by omega),
      readFrom_two_char (by omega), readFrom_three_char (by omega), ih, h₁, h₂, h₃]
    rfl

theorem body_chars (bytes : List UInt8) : ∀ c ∈ body bytes, c ≠ '=' ∧ c.toNat < 128 := by
  have hchar : ∀ {n : ℕ}, n < 64 → char n ≠ '=' ∧ (char n).toNat < 128 :=
    fun hn => (sextet_char _ hn).2
  fun_induction body bytes with
  | case1 => simp
  | case2 a =>
    have ha := a.toNat_lt
    simp only [List.forall_mem_cons]
    exact ⟨hchar (by omega), hchar (by omega), by simp⟩
  | case3 a b =>
    have ha := a.toNat_lt
    have hb := b.toNat_lt
    simp only [List.forall_mem_cons]
    exact ⟨hchar (by omega), hchar (by omega), hchar (by omega), by simp⟩
  | case4 a b c rest ih =>
    have ha := a.toNat_lt
    have hb := b.toNat_lt
    have hc := c.toNat_lt
    simp only [List.forall_mem_cons]
    exact ⟨hchar (by omega), hchar (by omega), hchar (by omega), hchar (by omega), ih⟩

theorem decode_encode (bytes : List UInt8) : decode (encode bytes) = some bytes := by
  rw [decode, if_pos, readFrom_encode]
  simp only [List.all_eq_true, decide_eq_true_eq]
  intro c hc
  rcases List.mem_append.mp hc with hc | hc
  · exact (body_chars bytes c hc).2
  · rw [List.eq_of_mem_replicate hc]; decide

/-! ## Without the padding -/

/-- `rstrip("=")`. -/
def stripped (text : List Char) : List Char := (text.reverse.dropWhile (· = '=')).reverse

/-- `text + "=" * (-len(text) % 4)`. -/
def padded (text : List Char) : List Char := text ++ List.replicate (missing text.length) '='

theorem stripped_encode (bytes : List UInt8) : stripped (encode bytes) = body bytes := by
  rw [stripped, encode, List.reverse_append, List.reverse_replicate,
    List.dropWhile_append_of_pos (by simp [List.mem_replicate])]
  cases hb : (body bytes).reverse with
  | nil => rw [List.reverse_eq_nil_iff.mp hb]; rfl
  | cons c l =>
    have hc := (body_chars bytes c (List.mem_reverse.mp (hb ▸ List.mem_cons_self))).1
    rw [List.dropWhile_cons_of_neg (by simpa using hc), ← hb, List.reverse_reverse]

theorem decode_padded_stripped (bytes : List UInt8) :
    decode (padded (stripped (encode bytes))) = some bytes := by
  rw [stripped_encode, padded, ← encode, decode_encode]

example : String.ofList (stripped (encode "1000".toUTF8.data.toList)) = "MTAwMA" := by decide

end GiPricing.Base64

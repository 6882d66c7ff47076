import GiPricing.Failure.Except
import GiPricing.Governance.Approvals
import GiPricing.Score.Positional

/-! # The text of a reference

A reference is written `type:slug@version`. The parser accepts that text, and the same with a line
feed after it.
-/

namespace GiPricing.Governance

open Failure

def artifactTypes : List String :=
  ["dataset", "dataset_version", "validation_rule", "validation_rule_set", "reference_table", "factor",
    "banding", "grouping", "model", "custom_objective", "custom_metric", "peril_structure",
    "rating_algorithm", "sub_graph", "rate_table", "rating_version", "optimisation_run", "gipp_check",
    "monitor", "dossier", "regression_suite", "deployment"]

def typeChar (c : Char) : Bool := c.isLower || c = '_'

def slugStart (c : Char) : Bool := c.isLower || c.isDigit

def slugChar (underscore : Bool) (c : Char) : Bool := slugStart c || c = '-' || (underscore && c = '_')

/-- `_SLUG`, or `_FACTOR_SLUG` where an underscore is admitted. -/
def slugMatches (underscore : Bool) : List Char → Bool
  | [] => false
  | c :: cs => slugStart c && cs.all (slugChar underscore) && 1 ≤ cs.length && cs.length ≤ 62

def slugIsAdmitted (artifact_type slug : String) : Bool :=
  slugMatches (artifact_type = "factor") slug.toList

def versionMatches : List Char → Bool
  | [] => false
  | c :: cs => c != '0' && (c :: cs).all Char.isDigit

/-- `_REF_RE.match`, by the groups. A group ends at the first character that is none of its own, and
`$` stands at the end or before a last line feed. -/
def matchRef (raw : List Char) : Option (List Char × List Char × List Char) :=
  let type := raw.takeWhile typeChar
  match raw.dropWhile typeChar with
  | ':' :: rest =>
    let slug := rest.takeWhile (slugChar true)
    match rest.dropWhile (slugChar true) with
    | '@' :: rest =>
      let version := rest.takeWhile Char.isDigit
      let tail := rest.dropWhile Char.isDigit
      if type ≠ [] ∧ slugMatches true slug ∧ versionMatches version ∧ (tail = [] ∨ tail = ['\n']) then
        some (type, slug, version)
      else none
    | _ => none
  | _ => none

inductive RefError
  | form
  | unknownType
  | slugGrammar
  /-- `int` refuses a text of more than 4300 digits. -/
  | tooManyDigits
  deriving DecidableEq

namespace ArtifactRef

def parse (raw : String) : Except RefError ArtifactRef := do
  let groups ← require (matchRef raw.toList) .form
  ensure (String.ofList groups.1 ∈ artifactTypes) .unknownType
  ensure (slugIsAdmitted (String.ofList groups.1) (String.ofList groups.2.1) = true) .slugGrammar
  ensure (groups.2.2.length ≤ 4300) .tooManyDigits
  return ⟨String.ofList groups.1, String.ofList groups.2.1, Nat.ofDigitChars 10 groups.2.2 0⟩

def str (r : ArtifactRef) : String := r.type ++ ":" ++ r.slug ++ "@" ++ toString r.version

/-- A reference that its model lets be built. -/
structure Built (r : ArtifactRef) : Prop where
  type : r.type ∈ artifactTypes
  slug : slugIsAdmitted r.type r.slug = true
  version : 1 ≤ r.version
  digits : (Nat.toDigits 10 r.version).length ≤ 4300

end ArtifactRef

/-! ## The grammar -/

variable {type slug version tail : List Char}

theorem takeWhile_group {q : Char → Bool} {c : Char} {group : List Char} (rest : List Char)
    (hgroup : group.all q = true) (hc : q c = false) :
    (group ++ c :: rest).takeWhile q = group ∧ (group ++ c :: rest).dropWhile q = c :: rest := by
  rw [List.all_eq_true] at hgroup
  rw [List.takeWhile_append_of_pos hgroup, List.dropWhile_append_of_pos hgroup,
    List.takeWhile_cons_of_neg (by simp [hc]), List.dropWhile_cons_of_neg (by simp [hc]),
    List.append_nil]
  exact ⟨rfl, rfl⟩

theorem slugChar_mono {underscore : Bool} {c : Char} (h : slugChar underscore c = true) :
    slugChar true c = true := by
  simp only [slugChar, Bool.or_eq_true, Bool.and_eq_true, Bool.true_and] at h ⊢
  tauto

theorem slugMatches_mono {underscore : Bool} (h : slugMatches underscore slug = true) :
    slugMatches true slug = true ∧ slug.all (slugChar true) = true := by
  cases slug with
  | nil => cases h
  | cons c cs =>
    simp only [slugMatches, List.all_cons, Bool.and_eq_true, List.all_eq_true] at h ⊢
    obtain ⟨⟨⟨hc, hcs⟩, hlow⟩, hhigh⟩ := h
    have hcs' : ∀ x ∈ cs, slugChar true x = true := fun x hx => slugChar_mono (hcs x hx)
    exact ⟨⟨⟨⟨hc, hcs'⟩, hlow⟩, hhigh⟩, by simp [slugChar, hc], hcs'⟩

theorem versionMatches_all (h : versionMatches version = true) : version.all Char.isDigit = true := by
  cases version with
  | nil => cases h
  | cons c cs => exact (Bool.and_eq_true_iff.mp h).2

/-- The groups are the only way to read the text by the pattern. -/
theorem matchRef_eq_some {raw : List Char} : matchRef raw = some (type, slug, version) ↔
    ∃ tail, (tail = [] ∨ tail = ['\n']) ∧
      raw = type ++ ':' :: (slug ++ '@' :: (version ++ tail)) ∧ type ≠ [] ∧
        type.all typeChar = true ∧ slugMatches true slug = true ∧ versionMatches version = true := by
  constructor
  · intro h
    simp only [matchRef] at h
    split at h
    · rename_i rest hrest
      split at h
      · rename_i rest' hrest'
        split_ifs at h with hok
        simp only [Option.some.injEq, Prod.mk.injEq] at h
        obtain ⟨rfl, rfl, rfl⟩ := h
        refine ⟨_, hok.2.2.2, ?_, hok.1, List.all_takeWhile, hok.2.1, hok.2.2.1⟩
        rw [List.takeWhile_append_dropWhile, ← hrest', List.takeWhile_append_dropWhile, ← hrest,
          List.takeWhile_append_dropWhile]
      · cases h
    · cases h
  · rintro ⟨tail, htail, rfl, hne, htype, hslug, hversion⟩
    obtain ⟨htake, hdrop⟩ := takeWhile_group (slug ++ '@' :: (version ++ tail)) htype
      (show typeChar ':' = false by decide)
    obtain ⟨htake', hdrop'⟩ := takeWhile_group (version ++ tail) (slugMatches_mono hslug).2
      (show slugChar true '@' = false by decide)
    have hdigits : (version ++ tail).takeWhile Char.isDigit = version ∧
        (version ++ tail).dropWhile Char.isDigit = tail := by
      rcases htail with rfl | rfl
      · rw [List.append_nil]
        have hall := List.all_eq_true.mp (versionMatches_all hversion)
        exact ⟨List.takeWhile_eq_self_iff.mpr hall, List.dropWhile_eq_nil_iff.mpr hall⟩
      · exact takeWhile_group [] (versionMatches_all hversion) (by decide)
    simp only [matchRef, htake, hdrop, htake', hdrop', hdigits.1, hdigits.2]
    rw [if_pos ⟨hne, hslug, hversion, htail⟩]

/-! ## Versions -/

theorem toDigits_ofDigitChars (h : versionMatches version = true) :
    0 < Nat.ofDigitChars 10 version 0 ∧ Nat.toDigits 10 (Nat.ofDigitChars 10 version 0) = version := by
  induction version using List.reverseRecOn with
  | nil => cases h
  | append_singleton ds c ih =>
    obtain ⟨d, hd, rfl⟩ := asciiDigit_of_isDigit
      (List.all_eq_true.mp (versionMatches_all h) c (by simp))
    rw [Nat.ofDigitChars_append, Nat.ofDigitChars_cons_digitChar_of_lt_ten hd, Nat.ofDigitChars_nil]
    cases ds with
    | nil =>
      have hne : d ≠ 0 := by
        rintro rfl
        simp [versionMatches] at h
      rw [Nat.ofDigitChars_nil, mul_zero, zero_add, Nat.toDigits_of_lt_base hd]
      exact ⟨Nat.pos_of_ne_zero hne, rfl⟩
    | cons x xs =>
      simp only [versionMatches, List.cons_append, List.all_cons, List.all_append,
        Bool.and_eq_true] at h ih
      obtain ⟨hpos, hdigits⟩ := ih ⟨h.1, h.2.1, h.2.2.1⟩
      rw [← Nat.toDigits_append_toDigits (by norm_num) hpos hd, hdigits, Nat.toDigits_of_lt_base hd]
      exact ⟨by omega, rfl⟩

theorem versionMatches_toDigits (n : ℕ) (hn : 1 ≤ n) : versionMatches (Nat.toDigits 10 n) = true := by
  induction n using Nat.strongRecOn with
  | ind n ih =>
    rw [Nat.toDigits_eq_if (by norm_num)]
    split_ifs with hlt
    · have hne : Nat.digitChar n ≠ '0' := fun h => by
        rw [Nat.digitChar_eq_zero] at h
        omega
      simp [versionMatches, hne, Nat.isDigit_digitChar, hlt]
    · have hfront := ih (n / 10) (by omega) (by omega)
      have hlast : (Nat.digitChar (n % 10)).isDigit = true := by
        rw [Nat.isDigit_digitChar]
        simpa using Nat.mod_lt n (by norm_num)
      cases hds : Nat.toDigits 10 (n / 10) with
      | nil => exact absurd hds Nat.toDigits_ne_nil
      | cons x xs =>
        rw [hds] at hfront
        simp only [versionMatches, List.cons_append, List.all_cons, List.all_append, List.all_nil,
          Bool.and_eq_true] at hfront ⊢
        exact ⟨hfront.1, hfront.2.1, hfront.2.2, hlast, trivial⟩

/-! ## The round trip -/

namespace ArtifactRef

variable {r : ArtifactRef}

theorem toList_str : r.str.toList =
    r.type.toList ++ ':' :: (r.slug.toList ++ '@' :: Nat.toDigits 10 r.version) := by
  simp [str]

theorem typeChar_artifactTypes : ∀ t ∈ artifactTypes, t.toList ≠ [] ∧ t.toList.all typeChar = true := by
  decide

/-- The parser reads exactly the references that can be built, from the text of each and from that
text with a line feed after it. -/
theorem parse_iff (raw : String) (r : ArtifactRef) :
    parse raw = .ok r ↔ r.Built ∧ (raw = r.str ∨ raw = r.str ++ "\n") := by
  constructor
  · intro h
    simp only [parse, require_bind_eq_ok, ensure_bind_eq_ok, pure_eq_ok] at h
    obtain ⟨⟨type, slug, version⟩, hmatch, htype, hslug, hlong, rfl⟩ := h
    obtain ⟨tail, htail, hraw, -, -, -, hversion⟩ := matchRef_eq_some.mp hmatch
    obtain ⟨hpos, hdigits⟩ := toDigits_ofDigitChars hversion
    refine ⟨⟨htype, hslug, hpos, by simpa [hdigits] using hlong⟩, ?_⟩
    rcases htail with rfl | rfl
    · refine Or.inl (String.toList_inj.mp ?_)
      simp [toList_str, hraw, hdigits]
    · refine Or.inr (String.toList_inj.mp ?_)
      simp [toList_str, hraw, hdigits]
  · rintro ⟨⟨htype, hslug, hversion, hlong⟩, hraw⟩
    obtain ⟨hne, hchars⟩ := typeChar_artifactTypes r.type htype
    have hmatch : matchRef raw.toList = some (r.type.toList, r.slug.toList, Nat.toDigits 10 r.version) := by
      refine matchRef_eq_some.mpr ⟨if raw = r.str then [] else ['\n'], ?_, ?_, hne, hchars,
        (slugMatches_mono hslug).1, versionMatches_toDigits r.version hversion⟩
      · split_ifs <;> simp
      · rcases hraw with rfl | rfl
        · simp [toList_str]
        · have hmore : r.str ++ "\n" ≠ r.str := fun h => by
            simpa using congrArg (fun s => s.toList.length) h
          simp [toList_str, hmore]
    simp only [parse, require_bind_eq_ok, ensure_bind_eq_ok, pure_eq_ok]
    exact ⟨_, hmatch, by simpa using htype, by simpa using hslug, hlong, by simp⟩

end ArtifactRef

end GiPricing.Governance

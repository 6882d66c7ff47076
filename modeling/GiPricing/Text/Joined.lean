import Mathlib.Data.List.Infix
import Mathlib.Tactic

/-! # Texts joined by a separator

Parts are joined by a separator `b c b` whose ends are equal, so that two of its occurrences can
overlap. The text determines the parts, among all lists of as many parts, exactly when no part
holds a separator or opens one with the separator that stands next to it.
-/

namespace GiPricing.Joining

variable {α : Type*}

def joined (b c : α) : List (List α) → List α
  | [] => []
  | [x] => x
  | x :: y :: xs => x ++ b :: c :: b :: joined b c (y :: xs)

/-- No part holds the separator, ends as it begins before one, or begins as it ends after one. -/
def Separable (b c : α) : List (List α) → Prop
  | [] => True
  | [x] => ¬ [b, c, b] <:+: x
  | x :: y :: xs =>
    ¬ [b, c, b] <:+: x ∧ ¬ [b, c] <:+ x ∧ ¬ [c, b] <+: y ∧ Separable b c (y :: xs)

def decidableSeparable [DecidableEq α] (b c : α) : ∀ xs, Decidable (Separable b c xs)
  | [] => inferInstanceAs (Decidable True)
  | [x] => inferInstanceAs (Decidable (¬ [b, c, b] <:+: x))
  | x :: y :: xs =>
    have : Decidable (Separable b c (y :: xs)) := decidableSeparable b c (y :: xs)
    inferInstanceAs (Decidable (¬ [b, c, b] <:+: x ∧ ¬ [b, c] <:+ x ∧ ¬ [c, b] <+: y ∧
      Separable b c (y :: xs)))

instance [DecidableEq α] (b c : α) (xs : List (List α)) : Decidable (Separable b c xs) :=
  decidableSeparable b c xs

variable {b c : α}

theorem joined_cons (x : List α) {xs : List (List α)} (h : xs ≠ []) :
    joined b c (x :: xs) = x ++ b :: c :: b :: joined b c xs := by
  cases xs with
  | nil => exact absurd rfl h
  | cons y ys => rfl

theorem joined_append (p x : List α) (xs : List (List α)) :
    joined b c ((p ++ x) :: xs) = p ++ joined b c (x :: xs) := by
  cases xs with
  | nil => rfl
  | cons y ys => simp [joined]

theorem sep_split (hbc : b ≠ c) {w R X : List α}
    (h : b :: c :: b :: R = w ++ b :: c :: b :: X) :
    w = [] ∧ R = X ∨ w = [b, c] ∧ R = c :: b :: X ∨
      ∃ w', w = b :: c :: b :: w' ∧ R = w' ++ b :: c :: b :: X := by
  match w, h with
  | [], h => exact .inl ⟨rfl, by simpa using h⟩
  | [_], h =>
    simp only [List.cons_append, List.nil_append, List.cons.injEq] at h
    exact absurd h.2.1.symm hbc
  | [p, q], h =>
    simp only [List.cons_append, List.nil_append, List.cons.injEq] at h
    obtain ⟨rfl, rfl, -, rfl⟩ := h
    exact .inr (.inl ⟨rfl, rfl⟩)
  | p :: q :: r :: w', h =>
    simp only [List.cons_append, List.cons.injEq] at h
    obtain ⟨rfl, rfl, rfl, rfl⟩ := h
    exact .inr (.inr ⟨w', rfl, rfl⟩)

theorem joined_start (hbc : b ≠ c) {x X : List α} {xs : List (List α)} (hx : ¬ [c, b] <+: x)
    (h : joined b c (x :: xs) = c :: b :: X) :
    x = [c] ∧ ∃ y ys, xs = y :: ys ∧ X = c :: b :: joined b c (y :: ys) := by
  cases xs with
  | nil => exact absurd ⟨X, h.symm⟩ hx
  | cons y ys =>
    match x, hx, h with
    | [], _, h =>
      simp only [joined, List.nil_append, List.cons.injEq] at h
      exact absurd h.1 hbc
    | [p], _, h =>
      simp only [joined, List.cons_append, List.nil_append, List.cons.injEq] at h
      obtain ⟨rfl, -, rfl⟩ := h
      exact ⟨rfl, y, ys, rfl, rfl⟩
    | p :: q :: x', hx, h =>
      simp only [joined, List.cons_append, List.cons.injEq] at h
      obtain ⟨rfl, rfl, -⟩ := h
      exact absurd ⟨x', rfl⟩ hx

mutual

/-- No reading of a readable list's text has more parts, and no other one has as many. -/
theorem reading_unique (hbc : b ≠ c) : ∀ {xs ys : List (List α)}, xs ≠ [] → Separable b c xs →
    joined b c ys = joined b c xs →
      ys.length ≤ xs.length ∧ (ys.length = xs.length → ys = xs)
  | xs, [], hne, _, _ => by
    refine ⟨Nat.zero_le _, fun h => absurd ?_ hne⟩
    exact List.length_eq_zero_iff.mp h.symm
  | [x], [y], _, _, h => by simpa [joined] using h
  | [x], y :: z :: zs, _, hx, h => absurd ⟨y, joined b c (z :: zs), by simpa [joined] using h⟩ hx
  | x :: x' :: xs, [y], _, _, _ => by simp
  | x :: x' :: xs, y :: y' :: ys, _, hr, h => by
    obtain ⟨hsep, hend, hstart, hrest⟩ := hr
    simp only [joined] at h
    obtain ⟨w, rfl, hw⟩ | ⟨w, rfl, hw⟩ := List.append_eq_append_iff.mp h
    -- the first part of the reading is a beginning of the first part
    · obtain ⟨rfl, heq⟩ | ⟨rfl, -⟩ | ⟨w', rfl, -⟩ := sep_split hbc hw
      · obtain ⟨hle, hsame⟩ := reading_unique hbc (List.cons_ne_nil x' xs) hrest heq
        refine ⟨by simpa using hle, fun hlen => ?_⟩
        rw [hsame (by simpa using hlen), List.append_nil]
      · exact absurd ⟨y, rfl⟩ hend
      · exact absurd ⟨y, w', by simp⟩ hsep
    -- the first part of the reading runs past it
    · obtain ⟨rfl, heq⟩ | ⟨rfl, heq⟩ | ⟨w', rfl, heq⟩ := sep_split hbc hw
      · obtain ⟨hle, hsame⟩ := reading_unique hbc (List.cons_ne_nil x' xs) hrest heq.symm
        refine ⟨by simpa using hle, fun hlen => ?_⟩
        rw [hsame (by simpa using hlen), List.append_nil]
      · obtain ⟨rfl, z, zs, rfl, hX⟩ := joined_start hbc hstart heq
        have hshort := reading_shifted hbc hrest.2.2.1 hrest.2.2.2 hX
        simp only [List.length_cons] at hshort ⊢
        omega
      · have hlong : joined b c (w' :: y' :: ys) = joined b c (x' :: xs) := heq.symm
        have hle := (reading_unique hbc (List.cons_ne_nil x' xs) hrest hlong).1
        simp only [List.length_cons] at hle ⊢
        omega
termination_by xs => (xs.length, 0)

theorem reading_shifted (hbc : b ≠ c) : ∀ {x : List α} {xs ys : List (List α)}, ¬ [c, b] <+: x →
    Separable b c (x :: xs) → joined b c ys = c :: b :: joined b c (x :: xs) →
      ys.length ≤ (x :: xs).length
  | _, _, [], _, _, _ => by simp
  | _, _, [_], _, _, _ => by simp
  | x, xs, y :: z :: zs, hx, hr, h => by
    match y, h with
    | [], h =>
      simp only [joined, List.nil_append, List.cons.injEq] at h
      exact absurd h.1 hbc
    | [p], h =>
      simp only [joined, List.cons_append, List.nil_append, List.cons.injEq] at h
      obtain ⟨rfl, u, us, rfl, hX⟩ := joined_start hbc hx h.2.2.symm
      have hshort := reading_shifted hbc hr.2.2.1 hr.2.2.2 hX
      simp only [List.length_cons] at hshort ⊢
      omega
    | p :: q :: y', h =>
      simp only [joined, List.cons_append, List.cons.injEq] at h
      have hrest : joined b c (y' :: z :: zs) = joined b c (x :: xs) := h.2.2
      simpa using (reading_unique hbc (List.cons_ne_nil x xs) hr hrest).1
termination_by _ xs => (xs.length + 1, 1)

end

/-- A list that is not readable has another reading with as many parts. -/
theorem exists_other_reading : ∀ {xs : List (List α)}, 2 ≤ xs.length → ¬ Separable b c xs →
    ∃ ys, ys.length = xs.length ∧ joined b c ys = joined b c xs ∧ ys ≠ xs
  | [], h, _ | [_], h, _ => by simp at h
  | x :: y :: xs, _, hr => by
    simp only [Separable, not_and_or, not_not] at hr
    obtain ⟨u, v, rfl⟩ | ⟨u, rfl⟩ | ⟨v, rfl⟩ | hrest := hr
    · refine ⟨u :: (v ++ b :: c :: b :: y) :: xs, by simp, ?_, by simp⟩
      simp only [joined]
      rw [show v ++ b :: c :: b :: y = (v ++ [b, c, b]) ++ y by simp, joined_append]
      simp
    · refine ⟨u :: (c :: b :: y) :: xs, by simp, ?_, by simp⟩
      simp only [joined]
      rw [show c :: b :: y = [c, b] ++ y from rfl, joined_append]
      simp
    · refine ⟨(x ++ [b, c]) :: v :: xs, by simp, ?_, by simp⟩
      simp only [joined]
      rw [joined_append]
      simp
    · cases xs with
      | nil =>
        obtain ⟨u, v, rfl⟩ := not_not.mp hrest
        exact ⟨[x ++ b :: c :: b :: u, v], by simp, by simp [joined], by simp⟩
      | cons z zs =>
        obtain ⟨ys, hlen, hjoin, hne⟩ := exists_other_reading (by simp) hrest
        have hys : ys ≠ [] := by
          rintro rfl
          simp at hlen
        refine ⟨x :: ys, by simp [hlen], ?_, by simpa using hne⟩
        rw [joined_cons x hys, hjoin]
        rfl

theorem separable_iff (hbc : b ≠ c) {xs : List (List α)} (h : 2 ≤ xs.length) :
    Separable b c xs ↔
      ∀ ys : List (List α), ys.length = xs.length → joined b c ys = joined b c xs → ys = xs := by
  constructor
  · intro hr ys hlen hjoin
    refine (reading_unique hbc ?_ hr hjoin).2 hlen
    rintro rfl
    simp at h
  · intro hall
    by_contra hr
    obtain ⟨ys, hlen, hjoin, hne⟩ := exists_other_reading h hr
    exact hne (hall ys hlen hjoin)

end GiPricing.Joining

/-! # Lines of bytes

The lines of a sequence of bytes, as the standard library splits them.
-/

namespace GiPricing.Lines

/-- The lines after the start of one, which is kept in reverse. -/
def splitFrom (line : List UInt8) : List UInt8 → List (List UInt8)
  | [] => if line = [] then [] else [line.reverse]
  | 13 :: 10 :: rest => line.reverse :: splitFrom [] rest
  | b :: rest =>
    if b = 10 ∨ b = 13 then line.reverse :: splitFrom [] rest else splitFrom (b :: line) rest

/-- `bytes.splitlines`. -/
def split (content : List UInt8) : List (List UInt8) := splitFrom [] content

def join (lines : List (List UInt8)) : List UInt8 := lines.flatMap (· ++ [10])

def Single (line : List UInt8) : Prop := ∀ b ∈ line, b ≠ 10 ∧ b ≠ 13

instance (line : List UInt8) : Decidable (Single line) := inferInstanceAs (Decidable (∀ _ ∈ _, _))

theorem Single.append {line line' : List UInt8} (h : Single line) (h' : Single line') :
    Single (line ++ line') := fun b hb => (List.mem_append.mp hb).elim (h b) (h' b)

theorem splitFrom_line {line : List UInt8} (hline : Single line) (start rest : List UInt8) :
    splitFrom start (line ++ 10 :: rest) = (start.reverse ++ line) :: splitFrom [] rest := by
  induction line generalizing start with
  | nil => simp [splitFrom]
  | cons b line ih =>
    obtain ⟨h10, h13⟩ := hline b List.mem_cons_self
    have hstep : splitFrom start (b :: (line ++ 10 :: rest)) =
        splitFrom (b :: start) (line ++ 10 :: rest) := by
      rw [splitFrom.eq_3 _ _ _ fun _ h => absurd h h13, if_neg (by simp [h10, h13])]
    rw [List.cons_append, hstep, ih fun c hc => hline c (List.mem_cons_of_mem _ hc)]
    simp

theorem split_join {lines : List (List UInt8)} (h : ∀ line ∈ lines, Single line) :
    split (join lines) = lines := by
  induction lines with
  | nil => rfl
  | cons line lines ih =>
    have hjoin : join (line :: lines) = line ++ 10 :: join lines := by simp [join]
    rw [split, hjoin, splitFrom_line (h line List.mem_cons_self), List.reverse_nil, List.nil_append,
      ← split, ih fun l hl => h l (List.mem_cons_of_mem _ hl)]

end GiPricing.Lines

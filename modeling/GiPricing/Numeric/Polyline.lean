import Mathlib.Tactic

/-! # Polylines

The line through neighbouring points of a list, and where it crosses a level.
-/

namespace GiPricing.Polyline

variable {K : Type*} [Field K] [LinearOrder K]

@[ext] structure Point (K : Type*) where
  x : K
  y : K
  deriving DecidableEq

def Point.line (p q : Point K) (x : K) : K := p.y + (x - p.x) / (q.x - p.x) * (q.y - p.y)

/-- Where the line through two points meets a level, the middle where it is flat. -/
def Point.crossing (t : K) (p q : Point K) : K :=
  p.x + (if q.y ≠ p.y then (t - p.y) / (q.y - p.y) else 1 / (1 + 1)) * (q.x - p.x)

inductive On : List (Point K) → K → K → Prop
  | here {p q : Point K} {rest : List (Point K)} {x : K} (hp : p.x ≤ x) (hq : x ≤ q.x) :
      On (p :: q :: rest) x (p.line q x)
  | there {p : Point K} {rest : List (Point K)} {x y : K} (h : On rest x y) : On (p :: rest) x y

/-- The line from one point to the next rises to the level or through it. -/
def Rises (t : K) (p q : Point K) : Prop := p.y ≤ t ∧ t ≤ q.y

/-- The line from one point to the next falls to the level or through it. -/
def Falls (t : K) (p q : Point K) : Prop := q.y ≤ t ∧ t ≤ p.y

instance (t : K) : DecidableRel (Rises t) := fun _ _ => inferInstanceAs (Decidable (_ ∧ _))

instance (t : K) : DecidableRel (Falls t) := fun _ _ => inferInstanceAs (Decidable (_ ∧ _))

/-- The points of a list from left to right. -/
def Ascending (l : List (Point K)) : Prop := l.Pairwise fun p q => p.x < q.x

def crossings (t : K) (R : Point K → Point K → Prop) [DecidableRel R] : List (Point K) → List K
  | p :: q :: rest => (if R p q then [p.crossing t q] else []) ++ crossings t R (q :: rest)
  | _ => []

/-- Some neighbours are in a relation. -/
def Somewhere (R : Point K → Point K → Prop) (l : List (Point K)) : Prop :=
  ∃ p q, [p, q] <:+: l ∧ R p q

variable {t x y c : K} {p q b : Point K} {l l' pre post rest : List (Point K)}
  {R : Point K → Point K → Prop} [DecidableRel R]

omit [Field K] [LinearOrder K] [DecidableRel R] in
theorem somewhere_cons_cons : Somewhere R (p :: q :: rest) ↔ R p q ∨ Somewhere R (q :: rest) := by
  constructor
  · rintro ⟨a, b, h, hR⟩
    rcases List.infix_cons_iff.mp h with h | h
    · obtain ⟨hap, h⟩ := List.cons_prefix_cons.mp h
      obtain ⟨hbq, -⟩ := List.cons_prefix_cons.mp h
      exact Or.inl (hap ▸ hbq ▸ hR)
    · exact Or.inr ⟨a, b, h, hR⟩
  · rintro (hR | ⟨a, b, h, hR⟩)
    · exact ⟨p, q, ⟨[], rest, rfl⟩, hR⟩
    · exact ⟨a, b, h.trans (List.suffix_cons p _).isInfix, hR⟩

theorem crossings_eq_nil : crossings t R l = [] ↔ ¬ Somewhere R l := by
  induction l with
  | nil => simp [crossings, Somewhere]
  | cons p l ih =>
    cases l with
    | nil =>
      simp only [crossings, true_iff]
      rintro ⟨a, b, h, -⟩
      have hlength := h.length_le
      simp at hlength
    | cons q rest =>
      rw [crossings, List.append_eq_nil_iff, ih, somewhere_cons_cons]
      split_ifs with hR <;> simp [hR]

theorem crossings_append :
    crossings t R (l ++ b :: rest) = crossings t R (l ++ [b]) ++ crossings t R (b :: rest) := by
  induction l with
  | nil => simp [crossings]
  | cons p l ih =>
    cases l with
    | nil => simp [crossings]
    | cons q l =>
      simp only [List.cons_append, crossings] at ih ⊢
      rw [ih, List.append_assoc]

theorem on_append (h : On (l ++ b :: rest) x y) : On (l ++ [b]) x y ∨ On (b :: rest) x y := by
  induction l with
  | nil => exact Or.inr h
  | cons p l ih =>
    cases l with
    | nil =>
      cases h with
      | here hp hq => exact Or.inl (.here hp hq)
      | there h => exact Or.inr h
    | cons q l =>
      cases h with
      | here hp hq => exact Or.inl (.here hp hq)
      | there h => exact (ih h).imp_left .there

theorem On.ne_singleton : ¬ On [p] x y := by
  intro h
  cases h with
  | there h => cases h

omit [Field K] in
theorem Ascending.tail (h : Ascending (p :: l)) : Ascending l := (List.pairwise_cons.mp h).2

omit [Field K] in
theorem Ascending.lt (h : Ascending (p :: q :: rest)) : p.x < q.x :=
  (List.pairwise_cons.mp h).1 q List.mem_cons_self

omit [Field K] in
theorem Ascending.left (h : Ascending (l ++ b :: rest)) : Ascending (l ++ [b]) :=
  h.sublist (by simp)

omit [Field K] in
theorem Ascending.right (h : Ascending (l ++ b :: rest)) : Ascending (b :: rest) :=
  h.sublist (List.sublist_append_right _ _)

omit [Field K] in
theorem Ascending.lt_of_mem_left (h : Ascending (l ++ b :: rest)) (hp : p ∈ l) : p.x < b.x :=
  (List.pairwise_append.mp h).2.2 p hp b List.mem_cons_self

omit [Field K] in
theorem Ascending.lt_of_mem_right (h : Ascending (l ++ b :: rest)) (hp : p ∈ rest) : b.x < p.x :=
  (List.pairwise_cons.mp h.right).1 p hp

section Ordered

variable [IsStrictOrderedRing K]

omit [LinearOrder K] [IsStrictOrderedRing K] in
theorem line_left : p.line q p.x = p.y := by
  simp [Point.line]

theorem line_right (h : p.x < q.x) : p.line q q.x = q.y := by
  rw [Point.line, div_self (sub_pos.mpr h).ne']
  ring

theorem le_line (h : p.x < q.x) (hp : t ≤ p.y) (hq : t ≤ q.y) (hpx : p.x ≤ x) (hxq : x ≤ q.x) :
    t ≤ p.line q x := by
  have hd : 0 < q.x - p.x := sub_pos.mpr h
  have h0 : 0 ≤ (x - p.x) / (q.x - p.x) := div_nonneg (sub_nonneg.mpr hpx) hd.le
  have h1 : (x - p.x) / (q.x - p.x) ≤ 1 := (div_le_one hd).mpr (by linarith)
  rw [Point.line]
  nlinarith

theorem lt_line (h : p.x < q.x) (hp : t < p.y) (hq : t < q.y) (hpx : p.x ≤ x) (hxq : x ≤ q.x) :
    t < p.line q x := by
  have hmin : t < min p.y q.y := lt_min hp hq
  exact hmin.trans_le (le_line h (min_le_left _ _) (min_le_right _ _) hpx hxq)

/-- What a crossing of neighbours on either side of the level is. -/
theorem crossing_spec (h : p.x < q.x) (hR : Rises t p q ∨ Falls t p q) :
    p.x ≤ p.crossing t q ∧ p.crossing t q ≤ q.x ∧ p.line q (p.crossing t q) = t := by
  have hd : 0 < q.x - p.x := sub_pos.mpr h
  set f := if q.y ≠ p.y then (t - p.y) / (q.y - p.y) else 1 / (1 + 1) with hf
  have hcross : p.crossing t q = p.x + f * (q.x - p.x) := rfl
  have hbounds : 0 ≤ f ∧ f ≤ 1 ∧ f * (q.y - p.y) = t - p.y := by
    rw [hf]
    split_ifs with hne
    · have hy : q.y - p.y ≠ 0 := sub_ne_zero.mpr hne
      refine ⟨?_, ?_, div_mul_cancel₀ _ hy⟩
      · rcases hR with ⟨hp, hq⟩ | ⟨hq, hp⟩
        · exact div_nonneg (by linarith) (by linarith)
        · exact div_nonneg_of_nonpos (by linarith) (by linarith)
      · rcases hR with ⟨hp, hq⟩ | ⟨hq, hp⟩
        · have hpos : 0 < q.y - p.y := lt_of_le_of_ne (by linarith) hy.symm
          exact (div_le_one hpos).mpr (by linarith)
        · have hneg : q.y - p.y < 0 := lt_of_le_of_ne (by linarith) hy
          exact (div_le_one_of_neg hneg).mpr (by linarith)
    · have heq : q.y = p.y := not_not.mp hne
      have ht : t = p.y := by
        rcases hR with ⟨hp, hq⟩ | ⟨hq, hp⟩ <;> linarith
      rw [heq, ht]
      norm_num
  obtain ⟨h0, h1, hy⟩ := hbounds
  refine ⟨?_, ?_, ?_⟩
  · rw [hcross]
    nlinarith
  · rw [hcross]
    nlinarith
  · rw [hcross, Point.line, add_sub_cancel_left, mul_div_assoc, div_self hd.ne', mul_one, hy]
    ring

omit [IsStrictOrderedRing K] in
theorem On.le_of_ascending (h : On (p :: l) x y) (hl : Ascending (p :: l)) : p.x ≤ x := by
  induction l generalizing p with
  | nil => exact absurd h On.ne_singleton
  | cons q l ih =>
    cases h with
    | here hp hq => exact hp
    | there h => exact hl.lt.le.trans (ih h hl.tail)

omit [IsStrictOrderedRing K] in
theorem On.ge_of_ascending (h : On (l ++ [b]) x y) (hl : Ascending (l ++ [b])) : x ≤ b.x := by
  induction l with
  | nil => exact absurd h On.ne_singleton
  | cons p l ih =>
    have hb := (List.pairwise_cons.mp hl).1
    cases l with
    | nil =>
      cases h with
      | here hp hq => exact hq
      | there h => exact absurd h On.ne_singleton
    | cons q l =>
      cases h with
      | here hp hq =>
        have hq' := (List.pairwise_cons.mp (List.pairwise_cons.mp hl).2).1 b (by simp)
        exact hq.trans hq'.le
      | there h => exact ih h hl.tail

omit [IsStrictOrderedRing K] in
theorem On.eq_first (h : On (p :: l) p.x y) (hl : Ascending (p :: l)) : y = p.y := by
  cases l with
  | nil => exact absurd h On.ne_singleton
  | cons q l =>
    cases h with
    | here hp hq => exact line_left
    | there h => exact absurd (h.le_of_ascending hl.tail) (not_le.mpr hl.lt)

theorem On.eq_last (h : On (l ++ [b]) b.x y) (hl : Ascending (l ++ [b])) : y = b.y := by
  induction l with
  | nil => exact absurd h On.ne_singleton
  | cons p l ih =>
    cases l with
    | nil =>
      cases h with
      | here hp hq => exact line_right hl.lt
      | there h => exact absurd h On.ne_singleton
    | cons q l =>
      cases h with
      | here hp hq =>
        have hq' := (List.pairwise_cons.mp (List.pairwise_cons.mp hl).2).1 b (by simp)
        exact absurd hq (not_le.mpr hq')
      | there h => exact ih h hl.tail

theorem On.lt_of_forall (h : On l x y) (hl : Ascending l) (hall : ∀ p ∈ l, t < p.y) : t < y := by
  induction h with
  | @here p q rest x hp hq =>
    exact lt_line hl.lt (hall p List.mem_cons_self) (hall q (by simp)) hp hq
  | there _ ih => exact ih hl.tail fun p hp => hall p (List.mem_cons_of_mem _ hp)

/-- Each crossing lies on the polyline, at the level. -/
theorem on_of_mem_crossings (hR : ∀ p q, R p q → Rises t p q ∨ Falls t p q) (hl : Ascending l)
    (hc : c ∈ crossings t R l) : On l c t := by
  induction l with
  | nil => cases hc
  | cons p l ih =>
    cases l with
    | nil => cases hc
    | cons q rest =>
      rcases List.mem_append.mp hc with hc | hc
      · split_ifs at hc with hpq
        · obtain rfl := List.mem_singleton.mp hc
          obtain ⟨hp, hq, hline⟩ := crossing_spec hl.lt (hR p q hpq)
          have hon : On (p :: q :: rest) (p.crossing t q) (p.line q (p.crossing t q)) := .here hp hq
          rwa [hline] at hon
        · cases hc
      · exact .there (ih hl.tail hc)

/-! ## Where nothing rises or falls -/

omit [Field K] [IsStrictOrderedRing K] in
theorem lt_of_not_rises (hnone : ¬ Somewhere (Rises t) (l ++ [b])) (hb : t < b.y) :
    ∀ p ∈ l ++ [b], t < p.y := by
  induction l with
  | nil => simpa using hb
  | cons p l ih =>
    obtain ⟨q, rest, hq⟩ : ∃ q rest, l ++ [b] = q :: rest := by
      cases l with
      | nil => exact ⟨b, [], rfl⟩
      | cons q l => exact ⟨q, l ++ [b], rfl⟩
    rw [List.cons_append, hq, somewhere_cons_cons, not_or, ← hq] at hnone
    have hrest := ih hnone.2
    intro r hr
    rcases List.mem_cons.mp hr with rfl | hr
    · have hqy : t < q.y := hrest q (by rw [hq]; exact List.mem_cons_self)
      by_contra hle
      exact hnone.1 ⟨not_lt.mp hle, hqy.le⟩
    · exact hrest r hr

omit [Field K] [IsStrictOrderedRing K] in
theorem lt_of_not_falls (hnone : ¬ Somewhere (Falls t) (b :: l)) (hb : t < b.y) :
    ∀ p ∈ b :: l, t < p.y := by
  induction l generalizing b with
  | nil => simpa using hb
  | cons q l ih =>
    rw [somewhere_cons_cons, not_or] at hnone
    have hq : t < q.y := by
      by_contra hle
      exact hnone.1 ⟨not_lt.mp hle, hb.le⟩
    intro r hr
    rcases List.mem_cons.mp hr with rfl | hr
    · exact hb
    · exact ih hnone.2 hq r hr

omit [Field K] [IsStrictOrderedRing K] in
theorem not_falls_of_lt (hnone : ¬ Somewhere (Rises t) (b :: l)) (hb : b.y < t) :
    ¬ Somewhere (Falls t) (b :: l) := by
  induction l generalizing b with
  | nil =>
    rintro ⟨p, q, h, -⟩
    have hlength := h.length_le
    simp at hlength
  | cons q l ih =>
    rw [somewhere_cons_cons, not_or] at hnone ⊢
    have hq : q.y < t := by
      by_contra hle
      exact hnone.1 ⟨hb.le, not_lt.mp hle⟩
    exact ⟨fun h => absurd h.2 (not_le.mpr hb), ih hnone.2 hq⟩

/-! ## Right of the last rise, and left of the last fall -/

/-- From its last rise on, a polyline that ends above the level is at the level or above. -/
theorem le_of_last_rise (hl : Ascending (l ++ [b])) (hb : t < b.y)
    (hc : (crossings t (Rises t) (l ++ [b])).getLast? = some c) (hx : c ≤ x)
    (hon : On (l ++ [b]) x y) : t ≤ y := by
  induction l with
  | nil => exact absurd hon On.ne_singleton
  | cons p l ih =>
    obtain ⟨q, rest, hq⟩ : ∃ q rest, l ++ [b] = q :: rest := by
      cases l with
      | nil => exact ⟨b, [], rfl⟩
      | cons q l => exact ⟨q, l ++ [b], rfl⟩
    have hl' : Ascending (p :: q :: rest) := by rwa [List.cons_append, hq] at hl
    rw [List.cons_append, hq] at hc hon
    rw [hq] at ih
    rw [crossings, List.getLast?_append] at hc
    cases hlast : (crossings t (Rises t) (q :: rest)).getLast? with
    | some c' =>
      -- The last rise is further right, where the line from `p` to `q` ends.
      rw [hlast, Option.some_or, Option.some.injEq] at hc
      obtain rfl := hc
      have hc' := on_of_mem_crossings (fun _ _ h => Or.inl h) hl'.tail (List.mem_of_getLast? hlast)
      have hqc := hc'.le_of_ascending hl'.tail
      cases hon with
      | here hpx hxq =>
        obtain rfl : q.x = x := le_antisymm (hqc.trans hx) hxq
        obtain rfl : q.x = c' := le_antisymm hqc hx
        rw [line_right hl'.lt, hc'.eq_first hl'.tail]
      | there hon => exact ih hl'.tail hlast hon
    | none =>
      rw [hlast, Option.none_or] at hc
      have hnone := crossings_eq_nil.mp (List.getLast?_eq_none_iff.mp hlast)
      have habove : ∀ r ∈ q :: rest, t < r.y := by
        rw [← hq] at hnone ⊢
        exact lt_of_not_rises hnone hb
      split_ifs at hc with hpq
      · obtain rfl : p.crossing t q = c := by simpa using hc
        cases hon with
        | here hpx hxq =>
          obtain ⟨hp, -, hline⟩ := crossing_spec hl'.lt (Or.inl hpq)
          have hd : 0 < q.x - p.x := sub_pos.mpr hl'.lt
          have hy : 0 ≤ q.y - p.y := by linarith [hpq.1, hpq.2]
          rw [← hline, Point.line, Point.line]
          gcongr
        | there hon => exact (hon.lt_of_forall hl'.tail habove).le
      · cases hc

/-- Up to its last fall, a polyline that starts above the level and never rises to it is at the
level or above. -/
theorem le_of_last_fall (hl : Ascending (b :: l)) (hb : t < b.y)
    (hnone : ¬ Somewhere (Rises t) (b :: l))
    (hc : (crossings t (Falls t) (b :: l)).getLast? = some c) (hx : x ≤ c)
    (hon : On (b :: l) x y) : t ≤ y := by
  induction l generalizing b with
  | nil => exact absurd hon On.ne_singleton
  | cons q rest ih =>
    rw [somewhere_cons_cons, not_or] at hnone
    rcases lt_or_ge t q.y with hq | hq
    · have hfalls : ¬ Falls t b q := fun h => absurd h.1 (not_le.mpr hq)
      rw [crossings, if_neg hfalls, List.nil_append] at hc
      cases hon with
      | here hbx hxq => exact le_line hl.lt hb.le hq.le hbx hxq
      | there hon => exact ih hl.tail hq hnone.2 hc hon
    · have hfalls : Falls t b q := ⟨hq, hb.le⟩
      obtain ⟨hbc, hcq, hline⟩ := crossing_spec hl.lt (Or.inr hfalls)
      -- A fall after this one can only be from the level itself, at the same place.
      have hc' : c = b.crossing t q ∨ c = q.x ∧ q.y = t := by
        rw [crossings, if_pos hfalls, List.getLast?_append] at hc
        cases hlast : (crossings t (Falls t) (q :: rest)).getLast? with
        | none =>
          rw [hlast] at hc
          exact Or.inl (by simpa using hc.symm)
        | some c' =>
          rw [hlast, Option.some_or, Option.some.injEq] at hc
          obtain rfl := hc
          rcases hq.lt_or_eq with hlt | heq
          · have hnil := (@crossings_eq_nil _ _ _ t _ _ _).mpr (not_falls_of_lt hnone.2 hlt)
            rw [hnil] at hlast
            cases hlast
          · refine Or.inr ⟨?_, heq⟩
            cases rest with
            | nil => cases hlast
            | cons r rest =>
              have hr : r.y < t := by
                by_contra hle
                exact hnone.2 (somewhere_cons_cons.mpr (Or.inl ⟨heq.le, not_lt.mp hle⟩))
              have hnil := (@crossings_eq_nil _ _ _ t _ _ _).mpr
                (not_falls_of_lt (fun h => hnone.2 (somewhere_cons_cons.mpr (Or.inr h))) hr)
              rw [crossings, hnil, List.append_nil, if_pos ⟨hr.le, heq.ge⟩] at hlast
              obtain rfl : q.crossing t r = c' := by simpa using hlast
              rw [Point.crossing, if_pos (by rw [heq]; exact hr.ne), heq]
              simp
      cases hon with
      | here hbx hxq =>
        rcases hc' with rfl | ⟨-, heq⟩
        · have hd : 0 < q.x - b.x := sub_pos.mpr hl.lt
          have hy : q.y - b.y ≤ 0 := by linarith
          have hfrac : (x - b.x) / (q.x - b.x) ≤ (b.crossing t q - b.x) / (q.x - b.x) := by gcongr
          rw [← hline, Point.line, Point.line]
          nlinarith
        · exact le_line hl.lt hb.le heq.ge hbx hxq
      | there hon =>
        have hqx := hon.le_of_ascending hl.tail
        rcases hc' with rfl | ⟨rfl, heq⟩
        · have hxq : x = q.x := le_antisymm (hx.trans hcq) hqx
          have hcq' : b.crossing t q = q.x := le_antisymm hcq (hxq ▸ hx)
          rw [hcq', line_right hl.lt] at hline
          rw [hxq] at hon
          rw [hon.eq_first hl.tail, hline]
        · obtain rfl : x = q.x := le_antisymm hx hqx
          rw [hon.eq_first hl.tail, heq]

end Ordered

end GiPricing.Polyline

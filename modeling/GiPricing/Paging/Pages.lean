import GiPricing.Paging.Slices

/-! # Pages

A list is served page by page, each page with the cursor of the next one.
-/

namespace GiPricing.Paging

structure Page (α κ : Type*) where
  items : List α
  next : Option κ
  deriving DecidableEq

variable {α κ : Type*}

/-- The pages from a cursor on until one has no next cursor, request after request. -/
def follow (serve : ℕ → Option κ → Option (Page α κ)) : ℕ → ℕ → Option κ → Option (List (Page α κ))
  | 0, _, _ => none
  | fuel + 1, k, cursor => do
    let page ← serve k cursor
    match page.next with
    | none => some [page]
    | some next => (follow serve fuel (k + 1) (some next)).map (page :: ·)

/-- Where page `k` starts under page limits. -/
def boundary (limits : ℕ → ℕ) (total : ℕ) : ℕ → ℕ
  | 0 => 0
  | k + 1 => min (boundary limits total k + limits k) total

def pageAt (encode : ℕ → κ) (l : List α) (limit start : ℕ) : Page α κ :=
  let stop := min (start + limit) l.length
  ⟨slice l start stop, if stop < l.length then some (encode stop) else none⟩

def cursorAt (encode : ℕ → κ) (start : ℕ) : Option κ := if start = 0 then none else some (encode start)

/-- Each request with the cursor of a start is answered by the page from there. -/
def Serves (encode : ℕ → κ) (l : List α) (limits : ℕ → ℕ)
    (serve : ℕ → Option κ → Option (Page α κ)) : Prop :=
  ∀ k start, start = 0 ∨ start < l.length →
    serve k (cursorAt encode start) = some (pageAt encode l (limits k) start)

variable {encode : ℕ → κ} {l : List α} {limits : ℕ → ℕ} {serve : ℕ → Option κ → Option (Page α κ)}

theorem boundary_le (limits : ℕ → ℕ) (total k : ℕ) : boundary limits total k ≤ total := by
  cases k with
  | zero => exact Nat.zero_le _
  | succ k => exact min_le_right _ _

theorem boundary_mono (limits : ℕ → ℕ) (total k : ℕ) :
    boundary limits total k ≤ boundary limits total (k + 1) :=
  le_min (Nat.le_add_right _ _) (boundary_le limits total k)

/-- From a start on the pages end, and are the list from there. -/
theorem follow_from (h : Serves encode l limits serve) (hlimits : ∀ k, 1 ≤ limits k) (fuel k : ℕ)
    (hstart : boundary limits l.length k = 0 ∨ boundary limits l.length k < l.length)
    (hfuel : l.length - boundary limits l.length k < fuel) :
    ∃ pages, follow serve fuel k (cursorAt encode (boundary limits l.length k)) = some pages ∧
      pages.flatMap Page.items = slice l (boundary limits l.length k) l.length ∧
      ∀ i page, pages[i]? = some page → page.items =
        slice l (boundary limits l.length (k + i)) (boundary limits l.length (k + i + 1)) := by
  induction fuel generalizing k with
  | zero => omega
  | succ fuel ih =>
    have hstop : min (boundary limits l.length k + limits k) l.length =
      boundary limits l.length (k + 1) := rfl
    have hlimit := hlimits k
    have hserve := h k _ hstart
    by_cases hlast : boundary limits l.length (k + 1) < l.length
    · have hcursor : cursorAt encode (boundary limits l.length (k + 1)) =
          some (encode (boundary limits l.length (k + 1))) := if_neg (by omega)
      obtain ⟨pages, hpages, hitems, hslices⟩ := ih (k + 1) (.inr hlast) (by omega)
      rw [hcursor] at hpages
      refine ⟨pageAt encode l (limits k) (boundary limits l.length k) :: pages, ?_, ?_, ?_⟩
      · simp [follow, hserve, pageAt, hstop, hlast, hpages]
      · rw [List.flatMap_cons, hitems, pageAt, hstop,
          slice_append _ (boundary_mono _ _ _) (boundary_le _ _ _)]
      · intro i page hi
        cases i with
        | zero =>
          cases hi
          rfl
        | succ i =>
          have := hslices i page (by simpa using hi)
          rwa [Nat.add_right_comm k 1 i] at this
    · have hend : boundary limits l.length (k + 1) = l.length :=
        (boundary_le _ _ _).antisymm (not_lt.mp hlast)
      refine ⟨[pageAt encode l (limits k) (boundary limits l.length k)], ?_, ?_, ?_⟩
      · simp [follow, hserve, pageAt, hstop, hlast]
      · simp [pageAt, hstop, hend]
      · intro i page hi
        cases i with
        | zero =>
          cases hi
          rfl
        | succ i => simp at hi

theorem follow_all (h : Serves encode l limits serve) (hlimits : ∀ k, 1 ≤ limits k) :
    ∃ pages, follow serve (l.length + 1) 0 none = some pages ∧ pages.flatMap Page.items = l ∧
      ∀ k page, pages[k]? = some page →
        page.items = slice l (boundary limits l.length k) (boundary limits l.length (k + 1)) := by
  obtain ⟨pages, hpages, hitems, hslices⟩ :=
    follow_from h hlimits (l.length + 1) 0 (.inl rfl) (by simp [boundary])
  exact ⟨pages, hpages, by simpa [boundary] using hitems, by simpa using hslices⟩

end GiPricing.Paging

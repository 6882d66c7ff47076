import Mathlib.Data.List.Nodup
import Mathlib.Data.List.Perm.Basic
import Mathlib.Tactic

/-! # Merging keyed lists

Two lists differ at the keys of one alone and at the shared keys whose rows differ. Merging takes
some of the differences over from one list to the other: the rows of those keys.
-/

namespace GiPricing.Merge

inductive Applied
  | added
  | removed
  | changed
  deriving DecidableEq, Repr

variable {α κ δ : Type*} [DecidableEq κ] [DecidableEq δ]

def byKey (key : α → κ) (l : List α) (k : κ) : Option α := l.reverse.find? fun x => key x = k

/-- The difference of two lists at a key. -/
def diffAt (key : α → κ) (dump : α → δ) (base cand : List α) (k : κ) : Option Applied :=
  match byKey key base k, byKey key cand k with
  | none, none => none
  | none, some _ => some .added
  | some _, none => some .removed
  | some x, some y => if dump x = dump y then none else some .changed

/-- The base with each applied difference substituted: a removal dropped, a change taken from the
candidate in place, an addition appended in the candidate's order. -/
def merged (key : α → κ) (base cand : List α) (applied : κ → Option Applied) : List α :=
  ((base.filter fun x => applied (key x) ≠ some .removed).map fun x =>
    if applied (key x) = some .changed then (byKey key cand (key x)).getD x else x) ++
  cand.filter fun x => applied (key x) = some .added

variable {key : α → κ} {dump : α → δ} {base cand l : List α} {applied : κ → Option Applied}
  {k : κ} {x : α}

theorem byKey_eq_some (h : byKey key l k = some x) : x ∈ l ∧ key x = k := by
  have := List.find?_some h
  exact ⟨List.mem_reverse.mp (List.mem_of_find?_eq_some h), by simpa using this⟩

theorem byKey_eq_none : byKey key l k = none ↔ k ∉ l.map key := by
  simp [byKey]

theorem byKey_of_mem (hl : (l.map key).Nodup) (hx : x ∈ l) : byKey key l (key x) = some x := by
  cases h : byKey key l (key x) with
  | none => exact absurd (List.mem_map_of_mem hx) (byKey_eq_none.mp h)
  | some y =>
    obtain ⟨hy, hk⟩ := byKey_eq_some h
    rw [List.inj_on_of_nodup_map hl hy hx hk]

/-- The applied differences are differences of the lists. -/
structure Applies (key : α → κ) (base cand : List α) (applied : κ → Option Applied) : Prop where
  base_nodup : (base.map key).Nodup
  cand_nodup : (cand.map key).Nodup
  added : ∀ k, applied k = some .added → k ∉ base.map key ∧ k ∈ cand.map key
  removed : ∀ k, applied k = some .removed → k ∈ base.map key ∧ k ∉ cand.map key
  changed : ∀ k, applied k = some .changed → k ∈ base.map key ∧ k ∈ cand.map key

/-- Merging takes the rows of the applied keys from the candidate, the others from the base. -/
theorem mem_merged (h : Applies key base cand applied) :
    x ∈ merged key base cand applied ↔
      (x ∈ base ∧ applied (key x) = none) ∨ (x ∈ cand ∧ applied (key x) ≠ none) := by
  have hcases : ∀ a : Option Applied, a = none ∨ a = some .added ∨ a = some .removed ∨
      a = some .changed := by
    rintro (_ | _ | _ | _) <;> simp
  simp only [merged, List.mem_append, List.mem_map, List.mem_filter, decide_eq_true_eq]
  constructor
  · rintro (⟨y, ⟨hy, hremoved⟩, rfl⟩ | ⟨hx, hadded⟩)
    · split_ifs with hchanged
      · obtain ⟨z, hz, hzk⟩ := List.mem_map.mp (h.changed _ hchanged).2
        rw [← hzk, byKey_of_mem h.cand_nodup hz, Option.getD_some]
        exact Or.inr ⟨hz, by rw [hzk, hchanged]; simp⟩
      · rcases hcases (applied (key y)) with hn | ha | hr | hc
        · exact Or.inl ⟨hy, hn⟩
        · exact absurd (List.mem_map_of_mem hy) (h.added _ ha).1
        · exact absurd hr hremoved
        · exact absurd hc hchanged
    · exact Or.inr ⟨hx, by rw [hadded]; simp⟩
  · rintro (⟨hx, hn⟩ | ⟨hx, hne⟩)
    · exact Or.inl ⟨x, ⟨hx, by simp [hn]⟩, by simp [hn]⟩
    · rcases hcases (applied (key x)) with hn | ha | hr | hc
      · exact absurd hn hne
      · exact Or.inr ⟨hx, ha⟩
      · exact absurd (List.mem_map_of_mem hx) (h.removed _ hr).2
      · obtain ⟨y, hy, hyk⟩ := List.mem_map.mp (h.changed _ hc).1
        refine Or.inl ⟨y, ⟨hy, by simp [hyk, hc]⟩, ?_⟩
        rw [hyk, if_pos hc, byKey_of_mem h.cand_nodup hx, Option.getD_some]

theorem merged_none : merged key base cand (fun _ => none) = base := by
  simp [merged]

theorem key_substituted (x : α) :
    key (if applied (key x) = some .changed then (byKey key cand (key x)).getD x else x) = key x := by
  split_ifs with h
  · cases hb : byKey key cand (key x) with
    | none => rfl
    | some y => exact (byKey_eq_some hb).2
  · rfl

theorem merged_nodup (h : Applies key base cand applied) :
    ((merged key base cand applied).map key).Nodup := by
  have hfirst : (((base.filter fun x => applied (key x) ≠ some .removed).map fun x =>
      if applied (key x) = some .changed then (byKey key cand (key x)).getD x else x).map key) =
        (base.filter fun x => applied (key x) ≠ some .removed).map key := by
    rw [List.map_map]
    exact List.map_congr_left fun x _ => key_substituted x
  rw [merged, List.map_append, hfirst, List.nodup_append]
  refine ⟨h.base_nodup.sublist (List.filter_sublist.map key), h.cand_nodup.sublist (List.filter_sublist.map key),
    fun a ha b hb hab => ?_⟩
  obtain ⟨x, hx, rfl⟩ := List.mem_map.mp ha
  obtain ⟨y, hy, rfl⟩ := List.mem_map.mp hb
  have hadded := (List.mem_filter.mp hy).2
  rw [decide_eq_true_eq, ← hab] at hadded
  exact (h.added _ hadded).1 (List.mem_map_of_mem (List.mem_of_mem_filter hx))

/-- Keys of one list alone, or with rows that differ. -/
theorem applies_of_diff (hb : (base.map key).Nodup) (hc : (cand.map key).Nodup)
    (h : ∀ k a, applied k = some a → diffAt key dump base cand k = some a) :
    Applies key base cand applied := by
  have hmem : ∀ {l : List α} {k x}, byKey key l k = some x → k ∈ l.map key := fun hx =>
    List.mem_map.mpr ⟨_, byKey_eq_some hx⟩
  have hdiff : ∀ k a, diffAt key dump base cand k = some a →
      (a = .added → k ∉ base.map key ∧ k ∈ cand.map key) ∧
      (a = .removed → k ∈ base.map key ∧ k ∉ cand.map key) ∧
      (a = .changed → k ∈ base.map key ∧ k ∈ cand.map key) := by
    intro k a ha
    unfold diffAt at ha
    split at ha
    · cases ha
    · rename_i y hn hy
      cases ha
      exact ⟨fun _ => ⟨byKey_eq_none.mp hn, hmem hy⟩, nofun, nofun⟩
    · rename_i y hy hn
      cases ha
      exact ⟨nofun, fun _ => ⟨hmem hy, byKey_eq_none.mp hn⟩, nofun⟩
    · rename_i y z hy hz
      split_ifs at ha
      cases ha
      exact ⟨nofun, nofun, fun _ => ⟨hmem hy, hmem hz⟩⟩
  exact ⟨hb, hc, fun k hk => (hdiff k _ (h k _ hk)).1 rfl, fun k hk => (hdiff k _ (h k _ hk)).2.1 rfl,
    fun k hk => (hdiff k _ (h k _ hk)).2.2 rfl⟩

/-- Merging every difference gives the rows of the candidate. -/
theorem merged_all (hb : (base.map key).Nodup) (hc : (cand.map key).Nodup)
    (hkey : ∀ x y, dump x = dump y → key x = key y)
    (h : ∀ k, applied k = diffAt key dump base cand k) :
    ((merged key base cand applied).map dump).Perm (cand.map dump) := by
  have happ : Applies key base cand applied := applies_of_diff hb hc fun k a ha => (h k) ▸ ha
  have hnodup : ∀ {l : List α}, (l.map key).Nodup → (l.map dump).Nodup := fun {l} hl =>
    (List.nodup_map_iff_inj_on hl.of_map).mpr fun x hx y hy hxy =>
      List.inj_on_of_nodup_map hl hx hy (hkey x y hxy)
  -- A key without a difference has rows of one dump, or no rows.
  have hsame : ∀ {x y}, x ∈ base → y ∈ cand → key x = key y → applied (key x) = none →
      dump x = dump y := by
    intro x y hx hy hxy hn
    rw [h, diffAt, byKey_of_mem hb hx, hxy, byKey_of_mem hc hy] at hn
    by_contra hne
    simp [hne] at hn
  refine (List.perm_ext_iff_of_nodup (hnodup (merged_nodup happ)) (hnodup hc)).mpr fun v => ?_
  simp only [List.mem_map, mem_merged happ]
  constructor
  · rintro ⟨x, ⟨hx, hn⟩ | ⟨hx, -⟩, rfl⟩
    · have hmem : key x ∈ cand.map key := by
        by_contra hnot
        rw [h, diffAt, byKey_of_mem hb hx, byKey_eq_none.mpr hnot] at hn
        cases hn
      obtain ⟨y, hy, hyk⟩ := List.mem_map.mp hmem
      exact ⟨y, hy, (hsame hx hy hyk.symm hn).symm⟩
    · exact ⟨x, hx, rfl⟩
  · rintro ⟨y, hy, rfl⟩
    by_cases hn : applied (key y) = none
    · have hmem : key y ∈ base.map key := by
        by_contra hnot
        rw [h, diffAt, byKey_eq_none.mpr hnot, byKey_of_mem hc hy] at hn
        cases hn
      obtain ⟨x, hx, hxk⟩ := List.mem_map.mp hmem
      exact ⟨x, Or.inl ⟨hx, by rwa [hxk]⟩, hsame hx hy hxk (by rwa [hxk])⟩
    · exact ⟨y, Or.inr ⟨hy, hn⟩, rfl⟩

/-- Two disjoint sets of differences, one after the other, are their union. -/
theorem merged_union {first second both : κ → Option Applied}
    (h : Applies key base cand both)
    (hfirst : ∀ k a, first k = some a → both k = some a)
    (hsecond : ∀ k a, second k = some a → both k = some a)
    (hdisjoint : ∀ k, first k = none ∨ second k = none)
    (hboth : ∀ k a, both k = some a → first k = some a ∨ second k = some a) :
    (merged key (merged key base cand first) cand second).Perm (merged key base cand both) := by
  have hsub : ∀ {f : κ → Option Applied}, (∀ k a, f k = some a → both k = some a) →
      Applies key base cand f := fun hf =>
    ⟨h.base_nodup, h.cand_nodup, fun k hk => h.added k (hf k _ hk), fun k hk => h.removed k (hf k _ hk),
      fun k hk => h.changed k (hf k _ hk)⟩
  have hA := hsub hfirst
  have hkeys : ∀ k, first k = none → (k ∈ (merged key base cand first).map key ↔ k ∈ base.map key) := by
    intro k hk
    simp only [List.mem_map, mem_merged hA]
    constructor
    · rintro ⟨x, ⟨hx, -⟩ | ⟨-, hne⟩, rfl⟩
      · exact ⟨x, hx, rfl⟩
      · exact absurd hk hne
    · rintro ⟨x, hx, rfl⟩
      exact ⟨x, Or.inl ⟨hx, hk⟩, rfl⟩
  have hB : Applies key (merged key base cand first) cand second := by
    have hnone : ∀ {k a}, second k = some a → first k = none := fun {k a} hk =>
      (hdisjoint k).resolve_right (by simp [hk])
    exact ⟨merged_nodup hA, h.cand_nodup,
      fun k hk => ⟨fun hm => (h.added k (hsecond k _ hk)).1 ((hkeys k (hnone hk)).mp hm),
        (h.added k (hsecond k _ hk)).2⟩,
      fun k hk => ⟨(hkeys k (hnone hk)).mpr (h.removed k (hsecond k _ hk)).1,
        (h.removed k (hsecond k _ hk)).2⟩,
      fun k hk => ⟨(hkeys k (hnone hk)).mpr (h.changed k (hsecond k _ hk)).1,
        (h.changed k (hsecond k _ hk)).2⟩⟩
  have hnone : ∀ k, both k = none ↔ first k = none ∧ second k = none := by
    intro k
    simp only [Option.eq_none_iff_forall_ne_some]
    constructor
    · exact fun hk => ⟨fun a ha => hk a (hfirst k a ha), fun a ha => hk a (hsecond k a ha)⟩
    · rintro ⟨hf, hs⟩ a ha
      exact (hboth k a ha).elim (hf a) (hs a)
  refine (List.perm_ext_iff_of_nodup (merged_nodup hB).of_map (merged_nodup h).of_map).mpr fun x => ?_
  simp only [mem_merged hB, mem_merged hA, mem_merged h, ne_eq, hnone]
  have := hdisjoint (key x)
  tauto

end GiPricing.Merge

import Mathlib.Data.List.Dedup
import Mathlib.Data.Finset.Card
import Mathlib.Tactic

/-! # Ordered dictionaries and recency

A dictionary in insertion order, as a list of entries, and the distinct keys of a history by their
last use. A store that keeps its most recently used keys holds a prefix of the latter.
-/

namespace GiPricing.Cache

variable {κ β : Type*} [DecidableEq κ]

abbrev OrderedDict (κ β : Type*) := List (κ × β)

namespace OrderedDict

variable {d : OrderedDict κ β} {k x : κ} {v : β}

def keys (d : OrderedDict κ β) : List κ := List.map Prod.fst d

def get (d : OrderedDict κ β) (k : κ) : Option β :=
  (List.find? (fun e => e.1 = k) d).map Prod.snd

def set (d : OrderedDict κ β) (k : κ) (v : β) : OrderedDict κ β :=
  if k ∈ d.keys then List.map (fun e => if e.1 = k then (k, v) else e) d else d ++ [(k, v)]

def erase (d : OrderedDict κ β) (k : κ) : OrderedDict κ β := List.filter (fun e => e.1 ≠ k) d

def moveToEnd (d : OrderedDict κ β) (k : κ) : OrderedDict κ β :=
  match d.get k with
  | some v => d.erase k ++ [(k, v)]
  | none => d

theorem keys_erase (hd : d.keys.Nodup) : (d.erase k).keys = d.keys.erase k := by
  rw [hd.erase_eq_filter, keys, keys, erase, List.filter_map]
  refine congrArg (List.map Prod.fst) (List.filter_congr fun e _ => ?_)
  by_cases he : e.1 = k <;> simp [he]

theorem get_eq_none : d.get k = none ↔ k ∉ d.keys := by
  simp [get, keys, List.find?_eq_none]
  grind

theorem get_mem (h : d.get k = some v) : (k, v) ∈ d := by
  obtain ⟨e, he, rfl⟩ := Option.map_eq_some_iff.mp h
  obtain rfl : e.1 = k := by simpa using List.find?_some he
  exact List.mem_of_find?_eq_some he

theorem get_of_mem (hd : d.keys.Nodup) (h : (k, v) ∈ d) : d.get k = some v := by
  cases hget : d.get k with
  | none => exact absurd (List.mem_map_of_mem h) (get_eq_none.mp hget)
  | some v' =>
    obtain heq : (k, v') = (k, v) := List.inj_on_of_nodup_map hd (get_mem hget) h rfl
    exact congrArg some (congrArg Prod.snd heq)

theorem get_erase_append (d : OrderedDict κ β) (k : κ) (v : β) (x : κ) :
    get (d.erase k ++ [(k, v)]) x = if x = k then some v else d.get x := by
  rw [get, List.find?_append, erase]
  split_ifs with hx
  · have hnone : List.find? (fun e => e.1 = x) (List.filter (fun e => e.1 ≠ k) d) = none := by
      refine List.find?_eq_none.mpr fun e he => ?_
      simpa [hx] using (List.mem_filter.mp he).2
    rw [hnone, hx]
    simp
  · have hother : List.find? (fun e => e.1 = x) (List.filter (fun e => e.1 ≠ k) d) =
        List.find? (fun e => e.1 = x) d := by
      rw [List.find?_filter]
      congr 1
      funext e
      by_cases he : e.1 = x <;> simp [he, hx]
    rw [hother, get]
    simp [Ne.symm hx]

theorem get_filter (hd : d.keys.Nodup) (q : κ × β → Bool) (k : κ) :
    get (List.filter q d) k = (d.get k).filter fun v => q (k, v) := by
  have hsub : (keys (List.filter q d)).Nodup := hd.sublist (List.filter_sublist.map _)
  ext v
  rw [Option.filter_eq_some_iff]
  constructor
  · intro h
    obtain ⟨hmem, hq⟩ := List.mem_filter.mp (get_mem h)
    exact ⟨get_of_mem hd hmem, hq⟩
  · rintro ⟨h, hq⟩
    exact get_of_mem hsub (List.mem_filter.mpr ⟨get_mem h, hq⟩)

/-- The key that is set and moved is the newest one. -/
theorem moveToEnd_set (d : OrderedDict κ β) (k : κ) (v : β) :
    (d.set k v).moveToEnd k = d.erase k ++ [(k, v)] := by
  by_cases hk : k ∈ d.keys
  · have hset : d.set k v = List.map (fun e => if e.1 = k then (k, v) else e) d := if_pos hk
    have hget : (d.set k v).get k = some v := by
      obtain ⟨e, he, rfl⟩ := List.mem_map.mp hk
      rw [hset, get, List.find?_map]
      obtain ⟨e', he'⟩ := Option.isSome_iff_exists.mp (List.find?_isSome.mpr
        ⟨e, he, show ((fun e' : κ × β => decide (e'.1 = e.1)) ∘
          fun e' => if e'.1 = e.1 then (e.1, v) else e') e = true by simp⟩)
      have hsame : e'.1 = e.1 := by
        by_contra hne
        simpa [hne] using List.find?_some he'
      rw [he', Option.map_some, Option.map_some, if_pos hsame]
    rw [moveToEnd, hget, hset, erase, erase, List.filter_map]
    have hkept : ∀ e ∈ List.filter ((fun e : κ × β => decide (e.1 ≠ k)) ∘
        fun e => if e.1 = k then (k, v) else e) d, (if e.1 = k then (k, v) else e) = e := by
      intro e he
      have := (List.mem_filter.mp he).2
      by_contra hne
      simp_all
    rw [List.map_congr_left hkept, List.map_id']
    refine congrArg (· ++ [(k, v)]) (List.filter_congr fun e _ => ?_)
    by_cases he : e.1 = k <;> simp [he]
  · have hset : d.set k v = d ++ [(k, v)] := if_neg hk
    have hnone := get_eq_none.mpr hk
    rw [get, Option.map_eq_none_iff] at hnone
    have hget : (d.set k v).get k = some v := by simp [hset, get, hnone]
    rw [moveToEnd, hget, hset, erase, erase, List.filter_append]
    simp

theorem get_moveToEnd (d : OrderedDict κ β) (k x : κ) : (d.moveToEnd k).get x = d.get x := by
  rw [moveToEnd]
  split
  · rename_i v hv
    rw [get_erase_append]
    split_ifs with hx
    · rw [hx, hv]
    · rfl
  · rfl

theorem get_set (d : OrderedDict κ β) (k : κ) (v : β) (x : κ) :
    (d.set k v).get x = if x = k then some v else d.get x := by
  rw [← get_moveToEnd _ k, moveToEnd_set, get_erase_append]

theorem nodup_set (hd : d.keys.Nodup) (k : κ) (v : β) : (d.set k v).keys.Nodup := by
  rw [set]
  split_ifs with hk
  · have hkeys : keys (List.map (fun e => if e.1 = k then (k, v) else e) d) = d.keys := by
      rw [keys, List.map_map]
      refine List.map_congr_left fun e _ => ?_
      by_cases he : e.1 = k <;> simp [he]
    rw [hkeys]
    exact hd
  · have hkeys : keys (d ++ [(k, v)]) = d.keys ++ [k] := List.map_append
    rw [hkeys]
    refine List.nodup_append.mpr ⟨hd, List.nodup_singleton k, fun a ha b hb hab => hk ?_⟩
    rwa [← List.mem_singleton.mp hb, ← hab]

end OrderedDict

/-! ## Recency -/

/-- A key is used: it is the newest one. -/
def touch (l : List κ) (k : κ) : List κ := k :: l.erase k

def recency (uses : List κ) : List κ := uses.foldl touch []

variable {uses : List κ} {k : κ} {l : List κ} {c : ℕ}

theorem recency_snoc (uses : List κ) (k : κ) : recency (uses ++ [k]) = touch (recency uses) k := by
  simp [recency, List.foldl_append]

theorem take_erase_take (c : ℕ) (l : List κ) (k : κ) :
    ((l.take (c + 1)).erase k).take c = (l.erase k).take c := by
  induction l generalizing c with
  | nil => rfl
  | cons a l ih =>
    rw [List.take_succ_cons]
    by_cases ha : a = k
    · rw [ha, List.erase_cons_head, List.erase_cons_head, List.take_take, min_self]
    · rw [List.erase_cons_tail (by simpa using ha), List.erase_cons_tail (by simpa using ha)]
      cases c with
      | zero => rfl
      | succ c => rw [List.take_succ_cons, List.take_succ_cons, ih]

theorem take_touch_take (c : ℕ) (l : List κ) (k : κ) :
    (touch (l.take c) k).take c = (touch l k).take c := by
  cases c with
  | zero => rfl
  | succ c => rw [touch, touch, List.take_succ_cons, List.take_succ_cons, take_erase_take]

theorem touch_take_of_mem (hk : k ∈ l.take c) :
    touch (l.take c) k = (touch l k).take c := by
  have hlen : (touch (l.take c) k).length ≤ c := by
    have hpos : 0 < (l.take c).length := List.length_pos_of_mem hk
    have hc : (l.take c).length ≤ c := List.length_take_le c l
    rw [touch, List.length_cons, List.length_erase_of_mem hk]
    omega
  rw [← take_touch_take, List.take_of_length_le hlen]

/-- The keys used since the last use of a key stand before it. -/
theorem recency_split (pre : List κ) (k : κ) {post : List κ} (hk : k ∉ post) :
    ∃ newer older, recency (pre ++ k :: post) = newer ++ k :: older ∧
      (newer ++ k :: older).Nodup ∧ ∀ x, x ∈ newer ↔ x ∈ post := by
  induction post using List.reverseRecOn with
  | nil =>
    have hnodup : (recency pre).Nodup := by
      induction pre using List.reverseRecOn with
      | nil => exact List.nodup_nil
      | append_singleton pre x ih =>
        rw [recency_snoc]
        exact List.nodup_cons.mpr ⟨fun h => (ih.mem_erase_iff.mp h).1 rfl, ih.erase x⟩
    refine ⟨[], (recency pre).erase k, recency_snoc pre k, ?_, by simp⟩
    exact List.nodup_cons.mpr ⟨fun h => (hnodup.mem_erase_iff.mp h).1 rfl, hnodup.erase k⟩
  | append_singleton post x ih =>
    rw [List.mem_append, not_or] at hk
    obtain ⟨newer, older, hrecency, hnodup, hmem⟩ := ih hk.1
    have hne : k ≠ x := fun h => hk.2 (by simp [h])
    have hcons : pre ++ k :: (post ++ [x]) = (pre ++ k :: post) ++ [x] := by simp
    rw [hcons, recency_snoc, hrecency, touch]
    have hfresh : (x :: (newer ++ k :: older).erase x).Nodup :=
      List.nodup_cons.mpr ⟨fun h => (hnodup.mem_erase_iff.mp h).1 rfl, hnodup.erase x⟩
    have hnewer := (List.nodup_append.mp hnodup).1
    by_cases hx : x ∈ newer
    · rw [List.erase_append_left _ hx] at hfresh ⊢
      refine ⟨x :: newer.erase x, older, rfl, hfresh, fun y => ?_⟩
      rw [List.mem_cons, hnewer.mem_erase_iff, hmem, List.mem_append, List.mem_singleton]
      by_cases hy : y = x
      · simp [hy]
      · simp [hy]
    · rw [List.erase_append_right _ hx, List.erase_cons_tail (by simpa using hne)] at hfresh ⊢
      refine ⟨x :: newer, older.erase x, rfl, hfresh, fun y => ?_⟩
      rw [List.mem_cons, hmem, List.mem_append, List.mem_singleton, or_comm]

theorem nodup_recency (uses : List κ) : (recency uses).Nodup := by
  rcases List.eq_nil_or_concat uses with rfl | ⟨pre, k, rfl⟩
  · exact List.nodup_nil
  · rw [List.concat_eq_append]
    obtain ⟨newer, older, hrecency, hnodup, -⟩ := recency_split pre k List.not_mem_nil
    rw [hrecency]
    exact hnodup

theorem mem_take_recency (pre : List κ) {post : List κ} (hk : k ∉ post) :
    k ∈ (recency (pre ++ k :: post)).take c ↔ post.dedup.length < c := by
  obtain ⟨newer, older, hrecency, hnodup, hmem⟩ := recency_split pre k hk
  obtain ⟨hnewer, -, hapart⟩ := List.nodup_append.mp hnodup
  have hlen : newer.length = post.dedup.length :=
    ((List.perm_ext_iff_of_nodup hnewer post.nodup_dedup).mpr fun x => by
      rw [hmem, List.mem_dedup]).length_eq
  have hnot : k ∉ newer := fun h => hk ((hmem k).mp h)
  rw [hrecency, ← hlen]
  constructor
  · intro h
    by_contra hc
    rw [List.take_append_of_le_length (by omega)] at h
    exact hnot (List.mem_of_mem_take h)
  · intro h
    obtain ⟨n, hn⟩ : ∃ n, c - newer.length = n + 1 := ⟨c - newer.length - 1, by omega⟩
    rw [List.take_append, hn, List.take_succ_cons]
    exact List.mem_append_right _ List.mem_cons_self

theorem mem_take_recency_of_use {since : List κ} (pre : List κ)
    (hc : ((k :: since).filter (· ≠ k)).dedup.length < c) :
    k ∈ (recency (pre ++ k :: since)).take c := by
  obtain ⟨mid, post, hsplit, hpost⟩ : ∃ mid post, k :: since = mid ++ k :: post ∧ k ∉ post := by
    clear hc
    induction since using List.reverseRecOn with
    | nil => exact ⟨[], [], rfl, List.not_mem_nil⟩
    | append_singleton since x ih =>
      obtain ⟨mid, post, hsplit, hpost⟩ := ih
      by_cases hx : x = k
      · exact ⟨k :: since, [], by simp [hx], List.not_mem_nil⟩
      · refine ⟨mid, post ++ [x], ?_, by simp [hpost, Ne.symm hx]⟩
        rw [← List.cons_append, hsplit, List.append_assoc, List.cons_append]
  have hsub : post.Sublist ((k :: since).filter (· ≠ k)) := by
    have hself : post.filter (· ≠ k) = post :=
      List.filter_eq_self.mpr fun x hx => decide_eq_true fun h => hpost (h ▸ hx)
    rw [← hself, hsplit]
    exact ((List.sublist_cons_self k post).trans (List.sublist_append_right mid _)).filter _
  have hfewer : post.dedup.length ≤ ((k :: since).filter (· ≠ k)).dedup.length := by
    rw [← List.card_toFinset, ← List.card_toFinset]
    exact Finset.card_le_card fun x hx => List.mem_toFinset.mpr
      (hsub.subset (List.mem_toFinset.mp hx))
  rw [hsplit, ← List.append_assoc, mem_take_recency (pre ++ mid) hpost]
  omega

end GiPricing.Cache

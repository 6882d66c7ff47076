import Mathlib.Data.List.Sort
import Mathlib.Data.Prod.Lex
import Mathlib.Data.String.Basic
import Mathlib.Tactic

/-! # JSON states

The states of an audit event as JSON values, the canonical form that is hashed, and the form that a
column of exact decimals gives back: the numbers of a state may change their spelling, and the order
of the keys is the column's own.
-/

namespace GiPricing.Audit

/-- A finite float by the shortest decimal that spells it. -/
structure PyFloat where
  negative : Bool
  coefficient : ℕ
  exponent : ℤ
  deriving DecidableEq, Repr

inductive Json
  | null
  | bool (value : Bool)
  | int (value : ℤ)
  | float (value : PyFloat)
  | str (value : String)
  | arr (items : List Json)
  | obj (members : List (String × Json))

/-- A float of sixteen digits before the point or more is spelled with an exponent. -/
def PyFloat.spelledWithExponent (x : PyFloat) : Bool :=
  0 ≤ x.exponent && 10 ^ 16 ≤ x.coefficient * 10 ^ x.exponent.toNat

/-- A float read back from an exact decimal: zero has no sign, and an integral decimal without a
point is read as an integer. -/
def PyFloat.readBack (x : PyFloat) : Json :=
  if x.coefficient = 0 then .float ⟨false, 0, 0⟩
  else if x.spelledWithExponent then
    let n : ℤ := x.coefficient * 10 ^ x.exponent.toNat
    .int (if x.negative then -n else n)
  else .float x

section Jsonb

variable (order : List (String × Json) → List (String × Json))

mutual

/-- A value that went through the column, which orders the members of an object its own way. -/
def Json.stored : Json → Json
  | .float x => x.readBack
  | .arr items => .arr (storedItems items)
  | .obj members => .obj (order (storedMembers members))
  | .null => .null
  | .bool b => .bool b
  | .int n => .int n
  | .str s => .str s

def storedItems : List Json → List Json
  | [] => []
  | j :: js => j.stored :: storedItems js

def storedMembers : List (String × Json) → List (String × Json)
  | [] => []
  | (k, j) :: js => (k, j.stored) :: storedMembers js

end

end Jsonb

/-- The order of the members of a canonical object. -/
def keyLe (a b : String × Json) : Prop := a.1 ≤ b.1

instance : DecidableRel keyLe := fun a b => inferInstanceAs (Decidable (a.1 ≤ b.1))
instance : Std.Total keyLe := ⟨fun a b => le_total a.1 b.1⟩
instance : IsTrans (String × Json) keyLe := ⟨fun _ _ _ => le_trans⟩

mutual

/-- `json.dumps` with sorted keys, as the value it spells. -/
def Json.canonical : Json → Json
  | .arr items => .arr (canonicalItems items)
  | .obj members => .obj ((canonicalMembers members).insertionSort keyLe)
  | .null => .null
  | .bool b => .bool b
  | .int n => .int n
  | .float x => .float x
  | .str s => .str s

def canonicalItems : List Json → List Json
  | [] => []
  | j :: js => j.canonical :: canonicalItems js

def canonicalMembers : List (String × Json) → List (String × Json)
  | [] => []
  | (k, j) :: js => (k, j.canonical) :: canonicalMembers js

end

mutual

/-- A state whose keys are unique and whose numbers the column gives back as they were. -/
def Json.Stable : Json → Prop
  | .float x => x.readBack = .float x
  | .arr items => StableItems items
  | .obj members => (members.map Prod.fst).Nodup ∧ StableMembers members
  | .null => True
  | .bool _ => True
  | .int _ => True
  | .str _ => True

def StableItems : List Json → Prop
  | [] => True
  | j :: js => j.Stable ∧ StableItems js

def StableMembers : List (String × Json) → Prop
  | [] => True
  | (_, j) :: js => j.Stable ∧ StableMembers js

end

theorem keys_canonicalMembers : ∀ members : List (String × Json),
    (canonicalMembers members).map Prod.fst = members.map Prod.fst
  | [] => rfl
  | (k, j) :: members => by
    rw [canonicalMembers, List.map_cons, keys_canonicalMembers members, List.map_cons]

theorem canonicalMembers_eq_map : ∀ members : List (String × Json),
    canonicalMembers members = members.map fun m => (m.1, m.2.canonical)
  | [] => rfl
  | (k, j) :: members => by rw [canonicalMembers, canonicalMembers_eq_map members, List.map_cons]

theorem insertionSort_perm {l l' : List (String × Json)} (h : l.Perm l')
    (hn : (l.map Prod.fst).Nodup) :
    l.insertionSort keyLe = l'.insertionSort keyLe := by
  have hsorted : (l.insertionSort keyLe).Perm (l'.insertionSort keyLe) :=
    (List.perm_insertionSort keyLe l).trans (h.trans (List.perm_insertionSort keyLe l').symm)
  have hkeys : ∀ a ∈ l, ∀ b ∈ l, a.1 = b.1 → a = b := fun a ha b hb he =>
    List.inj_on_of_nodup_map hn ha hb he
  refine hsorted.eq_of_pairwise ?_ (List.pairwise_insertionSort keyLe l)
    (List.pairwise_insertionSort keyLe l')
  intro a b ha hb hab hba
  refine hkeys a ((List.mem_insertionSort _).mp ha) b ?_ (le_antisymm hab hba)
  exact h.symm.subset ((List.mem_insertionSort _).mp hb)

section Stable

variable {order : List (String × Json) → List (String × Json)}

mutual

theorem canonical_stored (horder : ∀ l, (order l).Perm l) : ∀ j : Json, j.Stable →
    (j.stored order).canonical = j.canonical
  | .null, _ | .bool _, _ | .int _, _ | .str _, _ => by simp only [Json.stored]
  | .float x, h => by
    have hx : x.readBack = .float x := by simpa only [Json.Stable] using h
    simp only [Json.stored, hx]
  | .arr items, h => by
    have hitems : StableItems items := by simpa only [Json.Stable] using h
    simp only [Json.stored, Json.canonical, canonicalItems_stored horder items hitems]
  | .obj members, h => by
    obtain ⟨hn, hmembers⟩ : (members.map Prod.fst).Nodup ∧ StableMembers members := by
      simpa only [Json.Stable] using h
    have hsame := canonicalMembers_stored horder members hmembers
    have hperm : (canonicalMembers (order (storedMembers order members))).Perm
        (canonicalMembers (storedMembers order members)) := by
      rw [canonicalMembers_eq_map, canonicalMembers_eq_map]
      exact (horder _).map _
    simp only [Json.stored, Json.canonical]
    rw [hsame] at hperm
    rw [insertionSort_perm hperm.symm (by rwa [keys_canonicalMembers])]

theorem canonicalItems_stored (horder : ∀ l, (order l).Perm l) : ∀ items : List Json,
    StableItems items → canonicalItems (storedItems order items) = canonicalItems items
  | [], _ => rfl
  | j :: js, h => by
    obtain ⟨hj, hjs⟩ : j.Stable ∧ StableItems js := by simpa only [StableItems] using h
    rw [storedItems, canonicalItems, canonicalItems, canonical_stored horder j hj,
      canonicalItems_stored horder js hjs]

theorem canonicalMembers_stored (horder : ∀ l, (order l).Perm l) :
    ∀ members : List (String × Json), StableMembers members →
      canonicalMembers (storedMembers order members) = canonicalMembers members
  | [], _ => rfl
  | (k, j) :: js, h => by
    obtain ⟨hj, hjs⟩ : j.Stable ∧ StableMembers js := by simpa only [StableMembers] using h
    rw [storedMembers, canonicalMembers, canonicalMembers, canonical_stored horder j hj,
      canonicalMembers_stored horder js hjs]

end

end Stable

end GiPricing.Audit

import Mathlib.Data.Nat.Init

/-! # Numerals

The proof that a numeral of a field carries, under a name of its own: a definition that uses
it as a local instance has no nested proof. -/

namespace GiPricing.Numerals

theorem two : Nat.AtLeastTwo 2 := ⟨by decide⟩

theorem three : Nat.AtLeastTwo 3 := ⟨by decide⟩

theorem ten : Nat.AtLeastTwo 10 := ⟨by decide⟩

theorem twenty : Nat.AtLeastTwo 20 := ⟨by decide⟩

theorem hundred : Nat.AtLeastTwo 100 := ⟨by decide⟩

end GiPricing.Numerals

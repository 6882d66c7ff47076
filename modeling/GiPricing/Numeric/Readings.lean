import GiPricing.Numeric.Numerals
import Mathlib.Algebra.Field.Basic
import Mathlib.Algebra.Order.Field.Basic
import Mathlib.Data.Option.NAry
import Mathlib.Order.WithBot
import Mathlib.Tactic

/-! # Readings

Floats over exact arithmetic: a number, or none where it is not a number. None takes over a sum and a
product, compares as false with everything and comes last in an order.
-/

namespace GiPricing

attribute [local instance] Numerals.two

abbrev Reading (K : Type) := Option K

namespace Reading

variable {K : Type} [Field K] [LinearOrder K]

def lt : Reading K → Reading K → Bool
  | some a, some b => a < b
  | _, _ => false

def le : Reading K → Reading K → Bool
  | some a, some b => a ≤ b
  | _, _ => false

def same : Reading K → Reading K → Bool
  | some a, some b => a = b
  | _, _ => false

def key : Reading K → WithTop K
  | some a => a
  | none => ⊤

def add (x y : Reading K) : Reading K := Option.map₂ (· + ·) x y

def sub (x y : Reading K) : Reading K := Option.map₂ (· - ·) x y

def mul (x y : Reading K) : Reading K := Option.map₂ (· * ·) x y

def div (x y : Reading K) : Reading K := Option.map₂ (· / ·) x y

def max (x y : Reading K) : Reading K := Option.map₂ (fun a b => if a ≤ b then b else a) x y

def abs (x : Reading K) : Reading K := x.map fun a => if a < 0 then -a else a

def sum (l : List (Reading K)) : Reading K := l.foldr add (some 0)

def cumsum (l : List (Reading K)) : List (Reading K) := (l.scanl add (some 0)).tail

/-- The area under points in their order, with the origin before them. -/
def trapezoid (y x : List (Reading K)) : Reading K :=
  let points := (some 0, some 0) :: x.zip y
  sum ((points.zip points.tail).map fun p =>
    div (mul (sub p.2.1 p.1.1) (add p.2.2 p.1.2)) (some 2))

end Reading

end GiPricing

import Mathlib.Algebra.Order.Ring.Rat
import Mathlib.Data.Prod.Lex
import Mathlib.Order.Basic

/-!
# Doubles as Spark compares them

Spark's `DOUBLE` has the infinities and NaN, and compares them in one linear order: NaN is
equal to itself and larger than every other value. The finite values are rationals.
-/

namespace SparkDev.Sql

/-- A `DOUBLE`. -/
inductive Double where
  | negInfinity
  | finite (q : ℚ)
  | infinity
  | nan
  deriving DecidableEq, Repr

namespace Double

/-- Where a value stands in the order. -/
def rank : Double → ℕ ×ₗ ℚ
  | negInfinity => toLex (0, 0)
  | finite q => toLex (1, q)
  | infinity => toLex (2, 0)
  | nan => toLex (3, 0)

theorem rank_injective : Function.Injective rank := by
  intro a b h
  rcases a <;> rcases b <;> simp_all [rank]

instance : LinearOrder Double := LinearOrder.lift' rank rank_injective

instance (n : ℕ) : OfNat Double n := ⟨finite n⟩

example : (0 : Double) < 100000 ∧ (100000 : Double) < infinity ∧ infinity < nan := by decide

end Double

end SparkDev.Sql

import Mathlib.Algebra.Ring.Nat
import Mathlib.Data.Nat.Size
import Mathlib.Order.Lattice

/-!
# Numbers, infinities and NaN

Floating-point numbers as a linear order with two infinities and a value that compares with nothing.
`max` and `min` of two such values keep the first one unless the second is on its right side, so a
NaN given second is passed over and one given first stays. An integer becomes the nearest number of
53 significant bits, which is the integer itself as long as it has no more.
-/

namespace FloatOrder

inductive Value (κ : Type) where
  | finite (x : κ)
  | posInf
  | negInf
  | nan
  deriving DecidableEq

namespace Value

variable {κ : Type} [LinearOrder κ]

def lt : Value κ → Value κ → Bool
  | .finite x, .finite y => decide (x < y)
  | .negInf, .finite _ | .negInf, .posInf | .finite _, .posInf => true
  | _, _ => false

def max (a b : Value κ) : Value κ := if a.lt b then b else a

def min (a b : Value κ) : Value κ := if b.lt a then b else a

/-- The value is a number between the bounds. -/
def Within (low high : κ) (v : Value κ) : Prop := ∃ x, v = .finite x ∧ low ≤ x ∧ x ≤ high

theorem max_finite (low : κ) (v : Value κ) :
    (∃ x, (Value.finite low).max v = .finite x ∧ low ≤ x) ∨ (Value.finite low).max v = .posInf := by
  cases v with
  | finite x =>
      refine .inl ?_
      by_cases hlow : low < x
      · exact ⟨x, by simp [max, lt, hlow], hlow.le⟩
      · exact ⟨low, by simp [max, lt, hlow], le_rfl⟩
  | posInf => exact .inr rfl
  | negInf => exact .inl ⟨low, rfl, le_rfl⟩
  | nan => exact .inl ⟨low, rfl, le_rfl⟩

theorem min_finite {low high : κ} (hbounds : low ≤ high) {v : Value κ}
    (hv : (∃ x, v = .finite x ∧ low ≤ x) ∨ v = .posInf) :
    Within low high ((Value.finite high).min v) := by
  obtain ⟨x, rfl, hx⟩ | rfl := hv
  · by_cases hhigh : x < high
    · exact ⟨x, by simp [min, lt, hhigh], hx, hhigh.le⟩
    · exact ⟨high, by simp [min, lt, hhigh], hbounds, le_rfl⟩
  · exact ⟨high, rfl, hbounds, le_rfl⟩

/-- **Clamping.** With the bounds given first, every value is brought between them, NaN too. -/
theorem within_clamp {low high : κ} (hbounds : low ≤ high) (v : Value κ) :
    Within low high ((Value.finite high).min ((Value.finite low).max v)) :=
  min_finite hbounds (max_finite low v)

end Value

/-! ### Integers as floats -/

/-- The nearest number of 53 significant bits, and of two that are equally near the even one. -/
def roundNat (n : Nat) : Nat :=
  let unit := 2 ^ (n.size - 53)
  let quotient := n / unit
  let remainder := n % unit
  if 2 * remainder < unit ∨ 2 * remainder = unit ∧ quotient % 2 = 0 then quotient * unit
  else (quotient + 1) * unit

def roundInt (n : Int) : Int := n.sign * roundNat n.natAbs

theorem roundNat_of_lt {n : Nat} (h : n < 2 ^ 53) : roundNat n = n := by
  have hsize : n.size - 53 = 0 := Nat.sub_eq_zero_of_le (Nat.size_le.mpr h)
  simp [roundNat, hsize, Nat.mod_one]

theorem roundInt_of_lt {n : Int} (h : n.natAbs < 2 ^ 53) : roundInt n = n := by
  rw [roundInt, roundNat_of_lt h, Int.sign_mul_natAbs]

/-- Of two neighbours it is between, the first number past the range goes to the even one. -/
example : roundInt (2 ^ 53 + 1) = 2 ^ 53 := by decide

end FloatOrder

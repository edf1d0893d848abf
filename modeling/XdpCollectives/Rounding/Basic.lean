import Mathlib.Algebra.Order.Floor.Ring
import Mathlib.Data.Rat.Floor
import Mathlib.Tactic.FieldSimp
import Mathlib.Tactic.Linarith
import Mathlib.Tactic.NormNum

-- Quotients that are rounded to a number of `p` binary digits.
namespace Rounding

variable {p : Nat} {x y q : ℚ}

def Representable (p : Nat) (x : ℚ) : Prop :=
  ∃ (m : ℤ) (e : ℕ), |m| < 2 ^ p ∧ x * 2 ^ e = m

-- No representable number is closer. How ties are broken does not matter.
structure Nearest (p : Nat) (q x : ℚ) : Prop where
  representable : Representable p x
  closest       : ∀ y, Representable p y → |x - q| ≤ |y - q|

namespace Nearest

theorem le (h : Nearest p q x) (hy : Representable p y) (hq : q ≤ y) : x ≤ y := by
  by_contra hlt
  rw [not_le] at hlt
  have hc := h.closest y hy
  rw [abs_of_nonneg (by linarith), abs_of_nonneg (by linarith)] at hc
  linarith

theorem ge (h : Nearest p q x) (hy : Representable p y) (hq : y ≤ q) : y ≤ x := by
  by_contra hlt
  rw [not_le] at hlt
  have hc := h.closest y hy
  rw [abs_of_nonpos (by linarith), abs_of_nonpos (by linarith)] at hc
  linarith

end Nearest

-- A quotient that is above an integer is above it by the inverse of the divisor at least. With enough digits there is a
-- representable number in between.
theorem Nearest.ceil_eq {a b k : Nat} (ha : 0 < a) (hb : 0 < b) (hbk : b ≤ 2 ^ k) (hp : a * 2 ^ k < 2 ^ p)
    (h : Nearest p (a / b) x) : ⌈x⌉ = ⌈(a / b : ℚ)⌉ := by
  have hbq : (0 : ℚ) < b := by exact_mod_cast hb
  have hk : (0 : ℚ) < 2 ^ k := by positivity
  generalize hc : ⌈(a / b : ℚ)⌉ = c
  have ⟨hlt, hle⟩ := Int.ceil_eq_iff.mp hc
  rw [lt_div_iff₀ hbq] at hlt
  have hlt : (c - 1) * b + 1 ≤ (a : ℤ) := by exact_mod_cast hlt
  have hc0 : 0 < c := by
    rw [← hc, Int.ceil_pos]
    positivity
  have hca : c ≤ a := by nlinarith
  have hpow : (1 : ℤ) ≤ 2 ^ k := one_le_pow₀ (by decide)
  have hp : (a : ℤ) * 2 ^ k < 2 ^ p := by exact_mod_cast hp
  have hint : Representable p (c : ℚ) := by
    refine ⟨c, 0, ?_, by norm_num⟩
    rw [abs_of_pos hc0]
    nlinarith
  have hbetween : Representable p (c - 1 + 1 / 2 ^ k : ℚ) := by
    refine ⟨(c - 1) * 2 ^ k + 1, k, ?_, ?_⟩
    · rw [abs_of_pos (by nlinarith)]
      nlinarith
    · push_cast
      field_simp
  have hbelow : (c - 1 + 1 / 2 ^ k : ℚ) ≤ a / b := by
    have h1 : (1 : ℚ) / 2 ^ k ≤ 1 / b := one_div_le_one_div_of_le hbq (by exact_mod_cast hbk)
    have h2 : (c - 1 + 1 / b : ℚ) ≤ a / b := by
      rw [le_div_iff₀ hbq, add_mul, one_div_mul_cancel hbq.ne']
      exact_mod_cast hlt
    linarith
  have hx := h.ge hbetween hbelow
  have hinv : (0 : ℚ) < 1 / 2 ^ k := by positivity
  exact Int.ceil_eq_iff.mpr ⟨by linarith, h.le hint hle⟩

end Rounding

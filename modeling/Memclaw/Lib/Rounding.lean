import Mathlib.Algebra.Order.Ring.Rat
import Mathlib.Data.Nat.Cast.Order.Ring
import Mathlib.Order.Monotone.Basic

/-! Numbers of a format that rounds: an operation rounds the exact result of its arguments'
values. Of the rounding it is used that it is monotone and leaves the numbers of the format. -/

namespace Memclaw.Lib

structure Rounding (W : Type) [LinearOrder W] where
  value : W → ℚ
  round : ℚ → W
  round_mono : Monotone round
  round_value : ∀ w, round (value w) = w
  value_round_zero : value (round 0) = 0

namespace Rounding

variable {W : Type} [LinearOrder W] (R : Rounding W)

def add (a b : W) : W := R.round (R.value a + R.value b)

def scale (n : ℕ) (w : W) : W := R.round (n * R.value w)

theorem value_mono : Monotone R.value := by
  intro a b hab
  by_contra hlt
  have hround : b ≤ a := by
    have h := R.round_mono (le_of_not_ge hlt)
    rwa [R.round_value, R.round_value] at h
  exact hlt (le_of_eq (congrArg R.value (le_antisymm hab hround)))

theorem value_scale_nonneg (n : ℕ) {w : W} (hw : 0 ≤ R.value w) : 0 ≤ R.value (R.scale n w) := by
  have hexact : (0 : ℚ) ≤ n * R.value w := mul_nonneg (Nat.cast_nonneg n) hw
  have hrounded := R.value_mono (R.round_mono hexact)
  rwa [R.value_round_zero] at hrounded

theorem le_add {a b : W} (hb : 0 ≤ R.value b) : a ≤ R.add a b := by
  have h : R.round (R.value a) ≤ R.add a b := R.round_mono (le_add_of_nonneg_right hb)
  rwa [R.round_value] at h

def exact : Rounding ℚ where
  value := id
  round := id
  round_mono := monotone_id
  round_value := fun _ => rfl
  value_round_zero := rfl

end Rounding

end Memclaw.Lib

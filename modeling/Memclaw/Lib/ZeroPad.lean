import Mathlib.Data.List.GetD
import Mathlib.Order.PiLex

/-! Lists over a linear order, compared as if they went on with one element for ever: the order of
dotted versions, where missing components count as zero. -/

namespace Memclaw.Lib

variable {α : Type} [LinearOrder α]

/-- A list as the sequence that goes on with `zero`, in lexicographic order. -/
def padded (zero : α) (as : List α) : Lex (ℕ → α) := toLex fun i => as.getD i zero

namespace padded

variable {zero : α} {as bs : List α}

theorem lt_iff : padded zero as < padded zero bs ↔
    ∃ i, (∀ j < i, as.getD j zero = bs.getD j zero) ∧ as.getD i zero < bs.getD i zero := Iff.rfl

theorem cons_lt_cons {a b : α} : padded zero (a :: as) < padded zero (b :: bs) ↔
    a < b ∨ a = b ∧ padded zero as < padded zero bs := by
  rw [lt_iff, lt_iff]
  constructor
  · rintro ⟨i, hbelow, hi⟩
    cases i with
    | zero => exact .inl hi
    | succ i =>
      have hhead : a = b := hbelow 0 (Nat.succ_pos i)
      refine .inr ⟨hhead, i, fun j hj => ?_, hi⟩
      exact hbelow (j + 1) (Nat.succ_lt_succ hj)
  · rintro (hhead | ⟨rfl, i, hbelow, hi⟩)
    · exact ⟨0, fun j hj => absurd hj (Nat.not_lt_zero j), hhead⟩
    · refine ⟨i + 1, fun j hj => ?_, hi⟩
      cases j with
      | zero => rfl
      | succ j => exact hbelow j (Nat.lt_of_succ_lt_succ hj)

omit [LinearOrder α] in
theorem append_replicate (as : List α) (n : ℕ) :
    padded zero (as ++ List.replicate n zero) = padded zero as := by
  apply congrArg toLex
  funext i
  by_cases hi : i < as.length
  · rw [List.getD_append _ _ _ _ hi]
  · have hle : as.length ≤ i := Nat.le_of_not_lt hi
    rw [List.getD_append_right _ _ _ _ hle, List.getD_eq_default _ _ hle]
    by_cases hn : i - as.length < n
    · rw [List.getD_replicate _ hn]
    · have hlength : (List.replicate n zero).length ≤ i - as.length := by
        rw [List.length_replicate]
        exact Nat.le_of_not_lt hn
      rw [List.getD_eq_default _ _ hlength]

end padded

end Memclaw.Lib

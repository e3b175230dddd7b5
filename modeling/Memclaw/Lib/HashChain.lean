import Mathlib.Data.List.Induction
import Mathlib.Data.List.Forall2
import Mathlib.Tactic.Common

/-! A numbered hash chain, checked by a forward walk: `check i h row` recomputes
the hash of the `i`-th row from the hash `h` before it, or refuses the row. The
last hash commits to every row, by induction from the end of the chain. -/

namespace Memclaw.Lib.HashChain

variable {ρ H : Type*} (check : ℕ → H → ρ → Option H)

def walk : ℕ → H → List ρ → Option (ℕ × H)
  | n, h, [] => some (n, h)
  | n, h, row :: rows =>
    match check (n + 1) h row with
    | some k => walk (n + 1) k rows
    | none => none

variable {check} {n m : ℕ} {h h' k : H} {row : ρ} {rows xs ys : List ρ}

@[simp] theorem walk_nil : walk check n h [] = some (n, h) := rfl

theorem walk_cons_of_check (hrow : check (n + 1) h row = some k) :
    walk check n h (row :: rows) = walk check (n + 1) k rows := by
  rw [walk, hrow]

theorem walk_cons_eq_some {e : ℕ × H} (hw : walk check n h (row :: rows) = some e) :
    ∃ k, check (n + 1) h row = some k ∧ walk check (n + 1) k rows = some e := by
  rw [walk] at hw
  split at hw
  · exact ⟨_, ‹_›, hw⟩
  · cases hw

theorem walk_append (hxs : walk check n h xs = some (m, k)) :
    walk check n h (xs ++ ys) = walk check m k ys := by
  induction xs generalizing n h with
  | nil => cases hxs; rfl
  | cons row xs ih =>
    obtain ⟨k', hrow, hxs⟩ := walk_cons_eq_some hxs
    rw [List.cons_append, walk_cons_of_check hrow, ih hxs]

theorem walk_append_eq_some {e : ℕ × H} (hw : walk check n h (xs ++ ys) = some e) :
    ∃ m k, walk check n h xs = some (m, k) ∧ walk check m k ys = some e := by
  induction xs generalizing n h with
  | nil => exact ⟨n, h, rfl, hw⟩
  | cons row xs ih =>
    obtain ⟨k', hrow, hw⟩ := walk_cons_eq_some hw
    obtain ⟨m, k, hxs, hys⟩ := ih hw
    exact ⟨m, k, by rw [walk_cons_of_check hrow, hxs], hys⟩

theorem walk_number (hw : walk check n h rows = some (m, k)) : m = n + rows.length := by
  induction rows generalizing n h with
  | nil => cases hw; rfl
  | cons row rows ih =>
    obtain ⟨k', -, hw⟩ := walk_cons_eq_some hw
    rw [ih hw, List.length_cons]
    omega

theorem walk_last (hw : walk check n h rows = some (m, k)) :
    (rows = [] ∧ m = n ∧ k = h) ∨
      ∃ last h', rows.getLast? = some last ∧ check m h' last = some k := by
  induction rows using List.reverseRecOn with
  | nil => cases hw; exact .inl ⟨rfl, rfl, rfl⟩
  | append_singleton rows row _ =>
    obtain ⟨i, p, -, hrow⟩ := walk_append_eq_some hw
    obtain ⟨k', hcheck, hend⟩ := walk_cons_eq_some hrow
    cases hend
    exact .inr ⟨row, p, by simp, hcheck⟩

theorem walk_invariant {P : H → Prop} (hP : ∀ i h row k, check i h row = some k → P k)
    (hstart : P h) (hw : walk check n h rows = some (m, k)) : P k := by
  rcases walk_last hw with ⟨-, -, rfl⟩ | ⟨last, h', -, hcheck⟩
  · exact hstart
  · exact hP _ _ _ _ hcheck

/-- Two chains with the same numbers and the same last hash agree row by row, when a
hash determines its row and the hash before it, among hashes of a given form `P`. -/
theorem walk_commits {R : ρ → ρ → Prop} {P : H → Prop}
    (hP : ∀ i h row k, check i h row = some k → P k)
    (hbind : ∀ i h h' k, ∀ x ∈ xs, ∀ y ∈ ys, P h → P h' →
      check i h x = some k → check i h' y = some k → h = h' ∧ R x y)
    (hlen : xs.length = ys.length) (hstart : P h) (hstart' : P h')
    (hxs : walk check n h xs = some (m, k)) (hys : walk check n h' ys = some (m, k)) :
    List.Forall₂ R xs ys := by
  -- the two last rows share their hash, so they and the hashes before them agree
  induction xs using List.reverseRecOn generalizing ys m k with
  | nil =>
    rw [List.length_nil, eq_comm, List.length_eq_zero_iff] at hlen
    subst hlen
    exact .nil
  | append_singleton xs x ih =>
    have hne : ys ≠ [] := by
      rintro rfl
      simp at hlen
    obtain ⟨ys, y, rfl⟩ : ∃ ys' y, ys = ys' ++ [y] :=
      ⟨_, _, (List.dropLast_append_getLast hne).symm⟩
    have hlen' : xs.length = ys.length := by simpa using hlen
    obtain ⟨i, p, hwx, hx⟩ := walk_append_eq_some hxs
    obtain ⟨j, q, hwy, hy⟩ := walk_append_eq_some hys
    have hij : i = j := by rw [walk_number hwx, walk_number hwy, hlen']
    subst hij
    obtain ⟨kx, hcx, hx⟩ := walk_cons_eq_some hx
    obtain ⟨ky, hcy, hy⟩ := walk_cons_eq_some hy
    obtain ⟨-, rfl⟩ := Prod.mk.inj (Option.some.inj hx)
    obtain ⟨-, rfl⟩ := Prod.mk.inj (Option.some.inj hy)
    obtain ⟨rfl, hR⟩ := hbind _ _ _ _ x (by simp) y (by simp)
      (walk_invariant hP hstart hwx) (walk_invariant hP hstart' hwy) hcx hcy
    have hinit : List.Forall₂ R xs ys := by
      refine ih (fun i h h' k a ha b hb => ?_) hlen' hwx hwy
      exact hbind i h h' k a (by simp [ha]) b (by simp [hb])
    exact List.rel_append hinit (.cons hR .nil)

end Memclaw.Lib.HashChain

import Mathlib.Data.Nat.Find
import Mathlib.Data.Set.Basic

/-! Paths of a given length from a set of sources, the distance from it, and the search of a
graph level by level: each turn finds the neighbours of (a part of) the last level. -/

namespace Memclaw.Lib.Levels

variable {α : Type} {adj adj' : α → α → Prop} {sources : α → Prop}

def Path (adj : α → α → Prop) (sources : α → Prop) : ℕ → α → Prop
  | 0, v => sources v
  | n + 1, v => ∃ u, Path adj sources n u ∧ adj u v

theorem Path.mono (hadj : ∀ u v, adj u v → adj' u v) {n : ℕ} {v : α} :
    Path adj sources n v → Path adj' sources n v := by
  induction n generalizing v with
  | zero => exact id
  | succ n ih =>
    rintro ⟨u, hpath, hstep⟩
    exact ⟨u, ih hpath, hadj u v hstep⟩

structure Dist (adj : α → α → Prop) (sources : α → Prop) (n : ℕ) (v : α) : Prop where
  path : Path adj sources n v
  least : ∀ m, Path adj sources m v → n ≤ m

theorem Dist.unique {n m : ℕ} {v : α} (hn : Dist adj sources n v) (hm : Dist adj sources m v) :
    n = m :=
  le_antisymm (hn.least m hm.path) (hm.least n hn.path)

theorem Path.exists_dist {n : ℕ} {v : α} (h : Path adj sources n v) :
    ∃ m, m ≤ n ∧ Dist adj sources m v := by
  classical
  have hexists : ∃ m, Path adj sources m v := ⟨n, h⟩
  exact ⟨Nat.find hexists, Nat.find_min' hexists h, Nat.find_spec hexists,
    fun m hm => Nat.find_min' hexists hm⟩

theorem dist_zero {v : α} : Dist adj sources 0 v ↔ sources v :=
  ⟨fun h => h.path, fun h => ⟨h, fun m _ => Nat.zero_le m⟩⟩

theorem Dist.pred {n : ℕ} {v : α} (h : Dist adj sources (n + 1) v) :
    ∃ u, Dist adj sources n u ∧ adj u v := by
  obtain ⟨u, hpath, hstep⟩ := h.path
  refine ⟨u, ⟨hpath, fun m hm => ?_⟩, hstep⟩
  have hle : n + 1 ≤ m + 1 := h.least (m + 1) ⟨u, hm, hstep⟩
  exact Nat.le_of_succ_le_succ hle

theorem Dist.succ {n : ℕ} {u v : α} (h : Dist adj sources n u) (hstep : adj u v)
    (hnew : ∀ m ≤ n, ¬Dist adj sources m v) : Dist adj sources (n + 1) v := by
  refine ⟨⟨u, h.path, hstep⟩, fun m hm => ?_⟩
  obtain ⟨k, hkm, hk⟩ := hm.exists_dist
  by_contra hlt
  exact hnew k (hkm.trans (Nat.le_of_lt_succ (Nat.lt_of_not_le hlt))) hk

/-- One turn: what was found keeps its level, the neighbours of `part` that were not found have the
level `n + 1`, and with them the turn ends. -/
structure Turn (adj : α → α → Prop) (n : ℕ) (found : α → Option ℕ) (part : α → Prop)
    (found' : α → Option ℕ) (frontier' : α → Prop) : Prop where
  keep : ∀ v, (found v).isSome → found' v = found v
  fresh : ∀ v, found v = none → ∀ k, found' v = some k ↔ k = n + 1 ∧ ∃ u, part u ∧ adj u v
  frontier : ∀ v, frontier' v ↔ (∃ u, part u ∧ adj u v) ∧ found' v = some (n + 1)

structure Sound (adj : α → α → Prop) (sources : α → Prop) (n : ℕ) (found : α → Option ℕ)
    (frontier : α → Prop) : Prop where
  path : ∀ v k, found v = some k → k ≤ n ∧ Path adj sources k v
  frontier : ∀ v, frontier v → found v = some n

structure Exact (adj : α → α → Prop) (sources : α → Prop) (n : ℕ) (found : α → Option ℕ)
    (frontier : α → Prop) : Prop where
  found : ∀ v k, found v = some k ↔ k ≤ n ∧ Dist adj sources k v
  frontier : ∀ v, frontier v ↔ Dist adj sources n v

variable {n : ℕ} {found found' : α → Option ℕ} {part frontier frontier' : α → Prop}

theorem Sound.turn (h : Sound adj sources n found frontier) (hpart : ∀ u, part u → frontier u)
    (ht : Turn adj n found part found' frontier') :
    Sound adj sources (n + 1) found' frontier' := by
  refine ⟨fun v k hk => ?_, fun v hv => ((ht.frontier v).mp hv).2⟩
  cases hv : found v with
  | some k' =>
    rw [ht.keep v (by rw [hv]; rfl), hv] at hk
    obtain ⟨hle, hpath⟩ := h.path v k' hv
    rw [← Option.some.inj hk]
    exact ⟨hle.trans (Nat.le_succ n), hpath⟩
  | none =>
    obtain ⟨rfl, u, hu, hstep⟩ := (ht.fresh v hv k).mp hk
    have hpath : Path adj sources n u := (h.path u n (h.frontier u (hpart u hu))).2
    exact ⟨le_rfl, u, hpath, hstep⟩

theorem Exact.turn (h : Exact adj sources n found frontier) (hpart : ∀ u, part u ↔ frontier u)
    (ht : Turn adj n found part found' frontier') :
    Exact adj sources (n + 1) found' frontier' := by
  have hnext : ∀ v, found v = none → (∃ u, part u ∧ adj u v) → Dist adj sources (n + 1) v := by
    rintro v hv ⟨u, hu, hstep⟩
    have hlevel : Dist adj sources n u := (h.frontier u).mp ((hpart u).mp hu)
    refine hlevel.succ hstep fun m hm hdist => ?_
    rw [(h.found v m).mpr ⟨hm, hdist⟩] at hv
    exact Option.some_ne_none m hv
  have hstep : ∀ v, Dist adj sources (n + 1) v → found v = none ∧ ∃ u, part u ∧ adj u v := by
    intro v hdist
    obtain ⟨u, hu, hadj⟩ := hdist.pred
    refine ⟨?_, u, (hpart u).mpr ((h.frontier u).mpr hu), hadj⟩
    cases hv : found v with
    | none => rfl
    | some k =>
      obtain ⟨hle, hk⟩ := (h.found v k).mp hv
      rw [hk.unique hdist] at hle
      exact absurd hle (Nat.not_succ_le_self n)
  have hfound : ∀ v k, found' v = some k ↔ k ≤ n + 1 ∧ Dist adj sources k v := by
    intro v k
    cases hv : found v with
    | some k' =>
      rw [ht.keep v (by rw [hv]; rfl), h.found v k]
      constructor
      · exact fun hk => ⟨hk.1.trans (Nat.le_succ n), hk.2⟩
      · rintro ⟨_, hk⟩
        obtain ⟨hle, hk'⟩ := (h.found v k').mp hv
        exact ⟨hk.unique hk' ▸ hle, hk⟩
    | none =>
      rw [ht.fresh v hv k]
      constructor
      · rintro ⟨rfl, hu⟩
        exact ⟨le_rfl, hnext v hv hu⟩
      · rintro ⟨hle, hk⟩
        rcases Nat.lt_or_eq_of_le hle with hlt | rfl
        · rw [(h.found v k).mpr ⟨Nat.le_of_lt_succ hlt, hk⟩] at hv
          exact absurd hv (Option.some_ne_none k)
        · exact ⟨rfl, (hstep v hk).2⟩
  refine ⟨hfound, fun v => ?_⟩
  rw [ht.frontier v, hfound v (n + 1)]
  exact ⟨fun hv => hv.2.2, fun hv => ⟨(hstep v hv).2, le_rfl, hv⟩⟩

end Memclaw.Lib.Levels

import Mathlib.Data.Nat.Basic
import Mathlib.Logic.Function.Basic
import Mathlib.Logic.Relation

/-! Disjoint sets as a forest of parents with union by rank and path halving. A forest keeps ranks
that grow towards its roots, so that a search ends; the classes of a run of unions are those that
its pairs generate. -/

namespace Memclaw.Lib.UnionFind

variable {α : Type} [DecidableEq α]

structure Forest (α : Type) where
  parent : α → α
  rank : α → ℕ
  height : ℕ
  climbs : ∀ x, parent x ≠ x → rank x < rank (parent x)
  rank_le : ∀ x, rank x ≤ height

namespace Forest

def singletons : Forest α where
  parent := id
  rank := fun _ => 0
  height := 0
  climbs := fun _ h => absurd rfl h
  rank_le := fun _ => le_rfl

omit [DecidableEq α] in
theorem rank_le_rank_parent (f : Forest α) (x : α) : f.rank x ≤ f.rank (f.parent x) := by
  by_cases h : f.parent x = x
  · rw [h]
  · exact Nat.le_of_lt (f.climbs x h)

omit [DecidableEq α] in
theorem rank_lt_grandparent (f : Forest α) {x : α} (h : f.parent x ≠ x) :
    f.rank x < f.rank (f.parent (f.parent x)) :=
  Nat.lt_of_lt_of_le (f.climbs x h) (f.rank_le_rank_parent _)

theorem halve_climbs (f : Forest α) (x y : α)
    (h : Function.update f.parent x (f.parent (f.parent x)) y ≠ y) :
    f.rank y < f.rank (Function.update f.parent x (f.parent (f.parent x)) y) := by
  by_cases hy : y = x
  · subst hy
    rw [Function.update_self] at h ⊢
    refine f.rank_lt_grandparent fun hroot => h ?_
    rw [hroot, hroot]
  · rw [Function.update_of_ne hy] at h ⊢
    exact f.climbs y h

def halve (f : Forest α) (x : α) : Forest α where
  parent := Function.update f.parent x (f.parent (f.parent x))
  rank := f.rank
  height := f.height
  climbs := f.halve_climbs x
  rank_le := f.rank_le

theorem halve_parent_self (f : Forest α) (x : α) :
    (f.halve x).parent x = f.parent (f.parent x) := Function.update_self ..

theorem halve_parent_of_ne (f : Forest α) {x y : α} (h : y ≠ x) :
    (f.halve x).parent y = f.parent y := Function.update_of_ne h ..

omit [DecidableEq α] in
theorem search_lt (f : Forest α) {x : α} (h : f.parent x ≠ x) :
    f.height - f.rank (f.parent (f.parent x)) < f.height - f.rank x :=
  Nat.sub_lt_sub_left (Nat.lt_of_lt_of_le (f.rank_lt_grandparent h) (f.rank_le _))
    (f.rank_lt_grandparent h)

def find (f : Forest α) (x : α) : Forest α × α :=
  if _h : f.parent x = x then (f, x) else (f.halve x).find (f.parent (f.parent x))
termination_by f.height - f.rank x
decreasing_by exact f.search_lt _h

theorem find_of_root {f : Forest α} {x : α} (h : f.parent x = x) : f.find x = (f, x) := by
  rw [find, dif_pos h]

theorem find_of_ne {f : Forest α} {x : α} (h : f.parent x ≠ x) :
    f.find x = (f.halve x).find (f.parent (f.parent x)) := by
  rw [find, dif_neg h]

theorem halve_root {f : Forest α} {r : α} (x : α) (h : f.parent r = r) :
    (f.halve x).parent r = r := by
  by_cases hr : r = x
  · subst hr
    rw [halve_parent_self, h, h]
  · rw [halve_parent_of_ne f hr, h]

theorem find_root (f : Forest α) (x : α) : (f.find x).1.parent (f.find x).2 = (f.find x).2 := by
  induction f, x using find.induct with
  | case1 f x h => rw [find_of_root h, h]
  | case2 f x h ih => rwa [find_of_ne h]

theorem find_keeps_root (f : Forest α) (x : α) {r : α} (hr : f.parent r = r) :
    (f.find x).1.parent r = r := by
  induction f, x using find.induct with
  | case1 f x h => rwa [find_of_root h]
  | case2 f x h ih =>
    rw [find_of_ne h]
    exact ih (halve_root x hr)

theorem find_rank (f : Forest α) (x : α) :
    (f.find x).1.rank = f.rank ∧ (f.find x).1.height = f.height := by
  induction f, x using find.induct with
  | case1 f x h =>
    rw [find_of_root h]
    exact ⟨rfl, rfl⟩
  | case2 f x h ih => rwa [find_of_ne h]

theorem link_climbs {f : Forest α} {upper lower : α} (hupper : f.parent upper = upper)
    (hne : lower ≠ upper) (hrank : f.rank lower ≤ f.rank upper) (x : α)
    (h : Function.update f.parent lower upper x ≠ x) :
    (if f.rank upper = f.rank lower then Function.update f.rank upper (f.rank upper + 1)
      else f.rank) x <
      (if f.rank upper = f.rank lower then Function.update f.rank upper (f.rank upper + 1)
        else f.rank) (Function.update f.parent lower upper x) := by
  by_cases hx : x = lower
  · subst hx
    rw [Function.update_self]
    split
    · next hsame =>
      rw [Function.update_self, Function.update_of_ne hne, hsame]
      exact Nat.lt_succ_self _
    · next hdiffer => exact lt_of_le_of_ne hrank (Ne.symm hdiffer)
  · rw [Function.update_of_ne hx] at h ⊢
    have hnotUpper : x ≠ upper := fun hx' => h (hx' ▸ hupper)
    have hclimbs := f.climbs x h
    split
    · rw [Function.update_of_ne hnotUpper]
      by_cases hparent : f.parent x = upper
      · rw [hparent] at hclimbs ⊢
        rw [Function.update_self]
        exact Nat.lt_succ_of_lt hclimbs
      · rwa [Function.update_of_ne hparent]
    · exact hclimbs

theorem link_rank_le (f : Forest α) (upper lower x : α) :
    (if f.rank upper = f.rank lower then Function.update f.rank upper (f.rank upper + 1)
      else f.rank) x ≤ f.height + 1 := by
  split
  · by_cases hx : x = upper
    · rw [hx, Function.update_self]
      exact Nat.succ_le_succ (f.rank_le upper)
    · rw [Function.update_of_ne hx]
      exact Nat.le_succ_of_le (f.rank_le x)
  · exact Nat.le_succ_of_le (f.rank_le x)

def link (f : Forest α) (upper lower : α) (hupper : f.parent upper = upper)
    (hne : lower ≠ upper) (hrank : f.rank lower ≤ f.rank upper) : Forest α where
  parent := Function.update f.parent lower upper
  rank :=
    if f.rank upper = f.rank lower then Function.update f.rank upper (f.rank upper + 1)
    else f.rank
  height := f.height + 1
  climbs := link_climbs hupper hne hrank
  rank_le := f.link_rank_le upper lower

def union (f : Forest α) (a b : α) : Forest α :=
  let first := f.find a
  let second := first.1.find b
  if hsame : first.2 = second.2 then second.1
  else if hless : second.1.rank first.2 < second.1.rank second.2 then
    second.1.link second.2 first.2 (first.1.find_root b) hsame (Nat.le_of_lt hless)
  else
    second.1.link first.2 second.2 (first.1.find_keeps_root b (f.find_root a)) (Ne.symm hsame)
      (Nat.le_of_not_lt hless)

theorem union_height_le (f : Forest α) (a b : α) : (f.union a b).height ≤ f.height + 1 := by
  have hheight : ((f.find a).1.find b).1.height = f.height :=
    ((f.find a).1.find_rank b).2.trans (f.find_rank a).2
  unfold union
  dsimp only
  split
  · exact Nat.le_succ_of_le (Nat.le_of_eq hheight)
  · split <;> exact Nat.le_of_eq (congrArg Nat.succ hheight)

def unions (f : Forest α) (pairs : List (α × α)) : Forest α :=
  pairs.foldl (fun f pair => f.union pair.1 pair.2) f

structure Roots (f : Forest α) (root : α → α) : Prop where
  parent : ∀ x, root (f.parent x) = root x
  self : ∀ x, f.parent x = x → root x = x

theorem Roots.halve {f : Forest α} {root : α → α} (h : f.Roots root) (x : α) :
    (f.halve x).Roots root where
  parent y := by
    by_cases hy : y = x
    · subst hy
      rw [halve_parent_self, h.parent, h.parent]
    · rw [halve_parent_of_ne f hy, h.parent]
  self y hy := by
    by_cases hyx : y = x
    · subst hyx
      rw [halve_parent_self] at hy
      refine h.self y (by_contra fun hroot => ?_)
      have hclimbs := f.rank_lt_grandparent hroot
      rw [hy] at hclimbs
      exact Nat.lt_irrefl _ hclimbs
    · rw [halve_parent_of_ne f hyx] at hy
      exact h.self y hy

theorem Roots.find {f : Forest α} {root : α → α} (h : f.Roots root) (x : α) :
    (f.find x).2 = root x ∧ (f.find x).1.Roots root := by
  induction f, x using Forest.find.induct with
  | case1 f x hroot =>
    rw [find_of_root hroot]
    exact ⟨(h.self x hroot).symm, h⟩
  | case2 f x hroot ih =>
    rw [find_of_ne hroot]
    obtain ⟨hfound, hkept⟩ := ih (h.halve x)
    refine ⟨?_, hkept⟩
    rw [hfound, h.parent, h.parent]

theorem Roots.link {f : Forest α} {root : α → α} (h : f.Roots root) {upper lower : α}
    (hupper : f.parent upper = upper) (hlower : f.parent lower = lower) (hne : lower ≠ upper)
    (hrank : f.rank lower ≤ f.rank upper) :
    (f.link upper lower hupper hne hrank).Roots
      fun x => if root x = lower then upper else root x where
  parent x := by
    show (if root (Function.update f.parent lower upper x) = lower then upper
      else root (Function.update f.parent lower upper x)) = _
    by_cases hx : x = lower
    · rw [hx, Function.update_self, h.self upper hupper, h.self lower hlower, if_neg hne.symm,
        if_pos rfl]
    · rw [Function.update_of_ne hx, h.parent]
  self x hx := by
    have hx' : Function.update f.parent lower upper x = x := hx
    by_cases hlow : x = lower
    · rw [hlow, Function.update_self] at hx'
      exact absurd hx'.symm hne
    · rw [Function.update_of_ne hlow] at hx'
      rw [h.self x hx', if_neg hlow]

theorem relabel_eq_iff {upper lower y z : α} :
    (if y = lower then upper else y) = (if z = lower then upper else z) ↔
      y = z ∨ y = upper ∧ z = lower ∨ y = lower ∧ z = upper := by
  split <;> split <;> simp_all [eq_comm]

theorem Roots.union {f : Forest α} {root : α → α} (h : f.Roots root) (a b : α) :
    ∃ root', (f.union a b).Roots root' ∧ ∀ y z, root' y = root' z ↔
      root y = root z ∨ root y = root a ∧ root z = root b ∨ root y = root b ∧ root z = root a := by
  obtain ⟨ha, hfirst⟩ := h.find a
  obtain ⟨hb, hsecond⟩ := hfirst.find b
  unfold Forest.union
  dsimp only
  split
  · next hsame =>
    rw [ha, hb] at hsame
    refine ⟨root, hsecond, fun y z => ?_⟩
    rw [hsame, or_self]
    exact ⟨.inl, fun h => h.elim id fun h => h.1.trans h.2.symm⟩
  · split
    · refine ⟨_, hsecond.link _ ((f.find a).1.find_keeps_root b (f.find_root a)) _ _,
        fun y z => ?_⟩
      rw [relabel_eq_iff, ha, hb]
      exact or_congr_right or_comm
    · refine ⟨_, hsecond.link _ ((f.find a).1.find_root b) _ _, fun y z => ?_⟩
      rw [relabel_eq_iff, ha, hb]

/-- The classes of a run of unions are those that its pairs and the earlier ones generate. -/
theorem Roots.unions {f : Forest α} {root : α → α} (h : f.Roots root) {R : α → α → Prop}
    (hR : ∀ y z, root y = root z ↔ Relation.EqvGen R y z) (pairs : List (α × α)) :
    ∃ root', (f.unions pairs).Roots root' ∧ ∀ y z, root' y = root' z ↔
      Relation.EqvGen (fun x y => R x y ∨ (x, y) ∈ pairs) y z := by
  induction pairs generalizing f root R with
  | nil => simpa using ⟨root, h, hR⟩
  | cons pair pairs ih =>
    obtain ⟨root', h', hjoin⟩ := h.union pair.1 pair.2
    have hR' : ∀ y z, root' y = root' z ↔
        Relation.EqvGen (fun x y => R x y ∨ (x, y) = pair) y z := by
      have hold : ∀ y z, root y = root z → Relation.EqvGen (fun x y => R x y ∨ (x, y) = pair) y z :=
        fun y z hyz => Relation.EqvGen.mono (fun _ _ => .inl) _ _ ((hR y z).mp hyz)
      have hpair : Relation.EqvGen (fun x y => R x y ∨ (x, y) = pair) pair.1 pair.2 :=
        .rel _ _ (.inr rfl)
      intro y z
      constructor
      · intro hyz
        rcases (hjoin y z).mp hyz with hyz | ⟨hy, hz⟩ | ⟨hy, hz⟩
        · exact hold y z hyz
        · exact .trans _ _ _ (hold _ _ hy) (.trans _ _ _ hpair (hold _ _ hz.symm))
        · exact .trans _ _ _ (hold _ _ hy) (.trans _ _ _ (.symm _ _ hpair) (hold _ _ hz.symm))
      · intro hyz
        induction hyz with
        | rel x y hxy =>
          refine (hjoin x y).mpr ?_
          rcases hxy with hxy | rfl
          · exact .inl ((hR x y).mpr (.rel _ _ hxy))
          · exact .inr (.inl ⟨rfl, rfl⟩)
        | refl x => rfl
        | symm x y _ ih => exact ih.symm
        | trans x y z _ _ hxy hyz => exact hxy.trans hyz
    obtain ⟨root'', h'', hclasses⟩ := ih h' hR'
    refine ⟨root'', h'', fun y z => (hclasses y z).trans ?_⟩
    simp only [List.mem_cons, or_assoc]

theorem singletons_unions (pairs : List (α × α)) :
    ∃ root, (singletons.unions pairs).Roots root ∧ ∀ y z, root y = root z ↔
      Relation.EqvGen (fun x y => (x, y) ∈ pairs) y z := by
  have hself : (singletons : Forest α).Roots id := ⟨fun _ => rfl, fun _ _ => rfl⟩
  have hnone : ∀ y z : α, id y = id z ↔ Relation.EqvGen (fun _ _ => False) y z := by
    intro y z
    constructor
    · rintro rfl
      exact .refl y
    · intro hyz
      induction hyz with
      | rel _ _ h => exact h.elim
      | refl _ => rfl
      | symm _ _ _ ih => exact ih.symm
      | trans _ _ _ _ _ hxy hyz => exact hxy.trans hyz
  simpa only [false_or] using hself.unions hnone pairs

end Forest

end Memclaw.Lib.UnionFind

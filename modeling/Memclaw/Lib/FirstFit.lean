import Mathlib.Algebra.Ring.Nat
import Mathlib.Data.List.Basic
import Mathlib.Data.List.Induction
import Mathlib.Order.Lattice

/-! Greedy grouping in one pass: an item joins the first group whose summary it fits, and the group
absorbs it; an item that fits none starts a group of its own. With next fit only the last group is
open. -/

namespace Memclaw.Lib.FirstFit

variable {α β : Type}

structure Bin (α β : Type) where
  members : List α
  summary : β

variable (fits : α → β → Bool) (absorb : β → α → β) (start : α → β)

def Bin.add (bin : Bin α β) (a : α) : Bin α β := ⟨bin.members ++ [a], absorb bin.summary a⟩

def place (a : α) : List (Bin α β) → List (Bin α β)
  | [] => [⟨[a], start a⟩]
  | bin :: bins => if fits a bin.summary then bin.add absorb a :: bins else bin :: place a bins

def pack (items : List α) : List (Bin α β) :=
  items.foldl (fun bins a => place fits absorb start a bins) []

def slot (bins : List (Bin α β)) (a : α) : ℕ := bins.findIdx fun bin => fits a bin.summary

def pick (homes : List ℕ) (items : List α) (k : ℕ) : List α :=
  ((items.zip homes).filter fun p => p.2 = k).map Prod.fst

variable {fits absorb start} {bins : List (Bin α β)} {items : List α} {homes : List ℕ} {a : α}

theorem slot_cons (bin : Bin α β) :
    slot fits (bin :: bins) a = if fits a bin.summary then 0 else slot fits bins a + 1 := by
  rw [slot, List.findIdx_cons, slot]
  cases fits a bin.summary <;> rfl

theorem slot_le : slot fits bins a ≤ bins.length := List.findIdx_le_length

theorem length_place :
    (place fits absorb start a bins).length = max bins.length (slot fits bins a + 1) := by
  induction bins with
  | nil => rfl
  | cons bin bins ih =>
    rw [place, slot_cons]
    split
    · rw [List.length_cons, List.length_cons]
      omega
    · rw [List.length_cons, List.length_cons, ih]
      omega

theorem getElem?_place (k : ℕ) :
    (place fits absorb start a bins)[k]? =
      if k = slot fits bins a then some ((bins[k]?.map fun bin => bin.add absorb a).getD ⟨[a], start a⟩)
      else bins[k]? := by
  induction bins generalizing k with
  | nil =>
    cases k with
    | zero => rfl
    | succ k => rfl
  | cons bin bins ih =>
    rw [place, slot_cons]
    by_cases hfits : fits a bin.summary
    · rw [if_pos hfits, if_pos hfits]
      cases k with
      | zero => rfl
      | succ k => rw [if_neg (Nat.succ_ne_zero k), List.getElem?_cons_succ, List.getElem?_cons_succ]
    · rw [if_neg hfits, if_neg hfits]
      cases k with
      | zero => rfl
      | succ k =>
        rw [List.getElem?_cons_succ, List.getElem?_cons_succ, ih]
        simp only [Nat.add_right_cancel_iff]

theorem pick_append (h : homes.length = items.length) (home k : ℕ) :
    pick (homes ++ [home]) (items ++ [a]) k =
      pick homes items k ++ if home = k then [a] else [] := by
  have hzip : (items ++ [a]).zip (homes ++ [home]) = items.zip homes ++ [(a, home)] :=
    List.zip_append h.symm
  rw [pick, hzip, List.filter_append, List.map_append, pick]
  congr 1
  by_cases hk : home = k
  · simp [hk]
  · simp [hk]

theorem pick_eq_nil {k : ℕ} (h : k ∉ homes) : pick homes items k = [] := by
  rw [pick, List.map_eq_nil_iff, List.filter_eq_nil_iff]
  intro p hp hk
  exact h (of_decide_eq_true hk ▸ (List.of_mem_zip hp).2)

/-- Every item is in the bin of its number, in the order of the items, and the bins stand in the
order of their first members. -/
structure Packed (homes : List ℕ) (items : List α) (bins : List (Bin α β)) : Prop where
  length : homes.length = items.length
  home_lt : ∀ home ∈ homes, home < bins.length
  members : ∀ k bin, bins[k]? = some bin → bin.members = pick homes items k
  used : ∀ k < bins.length, k ∈ homes
  ordered : ∀ j k, j < k → k < bins.length → homes.idxOf j < homes.idxOf k

theorem Packed.place (h : Packed homes items bins) (a : α) :
    Packed (homes ++ [slot fits bins a]) (items ++ [a]) (place fits absorb start a bins) := by
  have hslot : slot fits bins a ≤ bins.length := slot_le
  have hused : ∀ k < (FirstFit.place fits absorb start a bins).length,
      k < bins.length ∨ k = bins.length ∧ slot fits bins a = bins.length := by
    intro k hk
    rw [length_place] at hk
    omega
  refine ⟨?_, ?_, ?_, ?_, ?_⟩
  · rw [List.length_append, List.length_append, h.length]
    rfl
  · intro home hhome
    rw [length_place]
    rcases List.mem_append.mp hhome with hold | hnew
    · exact (h.home_lt home hold).trans_le (le_max_left _ _)
    · rw [List.mem_singleton.mp hnew]
      exact (Nat.lt_succ_self _).trans_le (le_max_right _ _)
  · intro k bin hbin
    rw [getElem?_place] at hbin
    rw [pick_append h.length]
    by_cases hk : k = slot fits bins a
    · rw [if_pos hk] at hbin
      rw [if_pos hk.symm, ← Option.some.inj hbin]
      cases hold : bins[k]? with
      | none =>
        -- a new bin
        have hfresh : k ∉ homes := fun hmem =>
          absurd (h.home_lt k hmem) (Nat.not_lt.mpr (List.getElem?_eq_none_iff.mp hold))
        rw [pick_eq_nil hfresh]
        rfl
      | some old =>
        rw [← h.members k old hold]
        rfl
    · rw [if_neg hk] at hbin
      rw [if_neg (Ne.symm hk), List.append_nil, h.members k bin hbin]
  · intro k hk
    rcases hused k hk with hold | ⟨hnew, hlast⟩
    · exact List.mem_append_left _ (h.used k hold)
    · rw [hnew, ← hlast]
      exact List.mem_append_right _ (List.mem_singleton_self _)
  · intro j k hjk hk
    have hfirst : ∀ i < bins.length, (homes ++ [slot fits bins a]).idxOf i = homes.idxOf i :=
      fun i hi => List.idxOf_append_of_mem (h.used i hi)
    rcases hused k hk with hold | ⟨hnew, hlast⟩
    · rw [hfirst j (hjk.trans hold), hfirst k hold]
      exact h.ordered j k hjk hold
    · have hj : j < bins.length := hnew ▸ hjk
      have hfresh : k ∉ homes := fun hmem => absurd (h.home_lt k hmem) (Nat.not_lt.mpr hnew.ge)
      rw [hfirst j hj, List.idxOf_append_of_notMem hfresh]
      exact (List.idxOf_lt_length_of_mem (h.used j hj)).trans_le (Nat.le_add_right _ _)

theorem packed_pack (fits : α → β → Bool) (absorb : β → α → β) (start : α → β) (items : List α) :
    ∃ homes, Packed homes items (pack fits absorb start items) := by
  induction items using List.reverseRecOn with
  | nil =>
    refine ⟨[], rfl, ?_, ?_, ?_, ?_⟩
    · exact fun home hhome => nomatch hhome
    · exact fun k bin hbin => nomatch hbin
    · exact fun k hk => absurd hk (Nat.not_lt_zero k)
    · exact fun j k _ hk => absurd hk (Nat.not_lt_zero k)
  | append_singleton items a ih =>
    obtain ⟨homes, hpacked⟩ := ih
    have hlast : pack fits absorb start (items ++ [a]) =
        place fits absorb start a (pack fits absorb start items) := List.foldl_append
    rw [hlast]
    exact ⟨_, hpacked.place a⟩

def summarize (absorb : β → α → β) (start : α → β) (first : α) (rest : List α) : β :=
  rest.foldl absorb (start first)

/-- Every member but the first fits what the members before it make. -/
structure Bin.Grown (fits : α → β → Bool) (absorb : β → α → β) (start : α → β) (first : α)
    (rest : List α) (bin : Bin α β) : Prop where
  members : bin.members = first :: rest
  summary : bin.summary = summarize absorb start first rest
  fitted : ∀ before a after, rest = before ++ a :: after →
    fits a (summarize absorb start first before)

theorem Bin.grown_start (a : α) : Bin.Grown fits absorb start a [] ⟨[a], start a⟩ := by
  refine ⟨rfl, rfl, fun before b after h => ?_⟩
  exact absurd h.symm (List.append_ne_nil_of_right_ne_nil before (List.cons_ne_nil b after))

theorem Bin.Grown.add {first : α} {rest : List α} {bin : Bin α β}
    (h : bin.Grown fits absorb start first rest) (hfits : fits a bin.summary) :
    (bin.add absorb a).Grown fits absorb start first (rest ++ [a]) := by
  refine ⟨?_, ?_, ?_⟩
  · rw [Bin.add, h.members]
    rfl
  · rw [Bin.add, h.summary, summarize, summarize, List.foldl_append]
    rfl
  · intro before b after hsplit
    rcases List.eq_nil_or_concat' after with rfl | ⟨later, c, rfl⟩
    · obtain ⟨rfl, hlast⟩ := List.append_inj' hsplit rfl
      rw [← List.singleton_inj.mp hlast, ← h.summary]
      exact hfits
    · rw [← List.cons_append, ← List.append_assoc] at hsplit
      exact h.fitted before b later (List.append_inj' hsplit rfl).1

theorem grown_place (h : ∀ bin ∈ bins, ∃ first rest, bin.Grown fits absorb start first rest) (a : α) :
    ∀ bin ∈ place fits absorb start a bins, ∃ first rest, bin.Grown fits absorb start first rest := by
  induction bins with
  | nil =>
    intro bin hbin
    rw [List.mem_singleton.mp hbin]
    exact ⟨a, [], Bin.grown_start a⟩
  | cons bin bins ih =>
    obtain ⟨⟨first, rest, hbin⟩, hbins⟩ := List.forall_mem_cons.mp h
    rw [place]
    split
    · next hfits =>
      exact List.forall_mem_cons.mpr ⟨⟨first, rest ++ [a], hbin.add hfits⟩, hbins⟩
    · exact List.forall_mem_cons.mpr ⟨⟨first, rest, hbin⟩, ih hbins⟩

theorem grown_pack (items : List α) :
    ∀ bin ∈ pack fits absorb start items, ∃ first rest, bin.Grown fits absorb start first rest := by
  induction items using List.reverseRecOn with
  | nil => exact fun bin hbin => nomatch hbin
  | append_singleton items a ih =>
    rw [pack, List.foldl_append]
    exact grown_place ih a

end Memclaw.Lib.FirstFit

namespace Memclaw.Lib.NextFit

variable {α : Type} (weight : α → ℕ) (cap : ℤ)

/-- Runs of consecutive items: an item goes to the open run unless it brings it over the cap. -/
def runsFrom : List α → ℕ → List α → List (List α)
  | [], _, [] => []
  | group, _, [] => [group]
  | group, used, a :: items =>
    if cap < used + weight a ∧ group.isEmpty = false then group :: runsFrom [a] (weight a) items
    else runsFrom (group ++ [a]) (used + weight a) items

def runs (items : List α) : List (List α) := runsFrom weight cap [] 0 items

variable {weight cap} {group items run : List α} {used : ℕ}

theorem runsFrom_nil (hgroup : group ≠ []) : runsFrom weight cap group used [] = [group] := by
  cases group with
  | nil => exact absurd rfl hgroup
  | cons a group => rfl

theorem runsFrom_cons (a : α) : runsFrom weight cap group used (a :: items) =
    if cap < used + weight a ∧ group.isEmpty = false then
      group :: runsFrom weight cap [a] (weight a) items
    else runsFrom weight cap (group ++ [a]) (used + weight a) items := by
  rw [runsFrom]

theorem flatten_runsFrom : (runsFrom weight cap group used items).flatten = group ++ items := by
  induction items generalizing group used with
  | nil =>
    cases group with
    | nil => rfl
    | cons a group =>
      rw [runsFrom_nil (List.cons_ne_nil a group), List.flatten_singleton, List.append_nil]
  | cons a items ih =>
    rw [runsFrom_cons]
    split
    · rw [List.flatten_cons, ih]
      rfl
    · rw [ih, List.append_assoc]
      rfl

theorem flatten_runs (weight : α → ℕ) (cap : ℤ) (items : List α) :
    (runs weight cap items).flatten = items := flatten_runsFrom

theorem ne_nil_of_mem_runsFrom (h : run ∈ runsFrom weight cap group used items) : run ≠ [] := by
  induction items generalizing group used with
  | nil =>
    cases group with
    | nil => cases h
    | cons a group =>
      rw [runsFrom_nil (List.cons_ne_nil a group)] at h
      rw [List.mem_singleton.mp h]
      exact List.cons_ne_nil a group
  | cons a items ih =>
    rw [runsFrom_cons] at h
    split at h
    · next hfull =>
      rcases List.mem_cons.mp h with rfl | hlater
      · exact List.isEmpty_eq_false_iff.mp hfull.2
      · exact ih hlater
    · exact ih h

theorem singleton_mem_runsFrom {a : α} (ha : cap < weight a) :
    [a] ∈ runsFrom weight cap [a] (weight a) items := by
  cases items with
  | nil => exact List.mem_singleton_self _
  | cons b items =>
    have hfull : cap < (weight a : ℤ) + weight b ∧ [a].isEmpty = false := ⟨by omega, rfl⟩
    rw [runsFrom_cons, if_pos hfull]
    exact List.mem_cons_self

theorem singleton_mem_runs {a : α} (hmem : a ∈ items) (ha : cap < weight a) :
    [a] ∈ runs weight cap items := by
  suffices h : ∀ (group : List α) (used : ℕ), (group = [] → used = 0) →
      [a] ∈ runsFrom weight cap group used items from h [] 0 fun _ => rfl
  induction items with
  | nil => cases hmem
  | cons b items ih =>
    intro group used hused
    rw [runsFrom_cons]
    rcases List.mem_cons.mp hmem with rfl | hlater
    · split
      · exact List.mem_cons_of_mem _ (singleton_mem_runsFrom ha)
      · next hopen =>
        have hgroup : group = [] := by
          by_contra hne
          exact hopen ⟨by omega, List.isEmpty_eq_false_iff.mpr hne⟩
        rw [hgroup, hused hgroup, Nat.zero_add]
        exact singleton_mem_runsFrom ha
    · split
      · exact List.mem_cons_of_mem _ (ih hlater [b] (weight b) fun h => absurd h (List.cons_ne_nil _ _))
      · exact ih hlater (group ++ [b]) _ fun h =>
          absurd h (List.append_ne_nil_of_right_ne_nil _ (List.cons_ne_nil _ _))

theorem ne_nil_of_mem_runs (h : run ∈ runs weight cap items) : run ≠ [] := ne_nil_of_mem_runsFrom h

theorem sum_le_of_mem_runsFrom (hused : (group.map weight).sum = used)
    (hgroup : 1 < group.length → (used : ℤ) ≤ cap) (h : run ∈ runsFrom weight cap group used items)
    (hrun : 1 < run.length) : ((run.map weight).sum : ℤ) ≤ cap := by
  induction items generalizing group used with
  | nil =>
    cases group with
    | nil => cases h
    | cons a group =>
      rw [runsFrom_nil (List.cons_ne_nil a group), List.mem_singleton] at h
      subst h
      exact hused ▸ hgroup hrun
  | cons a items ih =>
    have hsum : ((group ++ [a]).map weight).sum = used + weight a := by
      rw [List.map_append, List.sum_append, hused, List.map_singleton, List.sum_singleton]
    rw [runsFrom_cons] at h
    split at h
    · rcases List.mem_cons.mp h with rfl | hlater
      · exact hused ▸ hgroup hrun
      · exact ih (by simp) (fun hlong => absurd hlong (by simp)) hlater
    · next hopen =>
      refine ih hsum (fun hlong => ?_) h
      have hne : group.isEmpty = false := by
        cases group with
        | nil => exact absurd hlong (by simp)
        | cons b group => rfl
      by_contra hover
      exact hopen ⟨by push_cast at hover; omega, hne⟩

theorem sum_le_of_mem_runs (h : run ∈ runs weight cap items) (hrun : 1 < run.length) :
    ((run.map weight).sum : ℤ) ≤ cap :=
  sum_le_of_mem_runsFrom rfl (fun hlong => absurd hlong (by simp)) h hrun

theorem runsFrom_of_sum_le (hgroup : group ≠ [])
    (hsum : (used : ℤ) + (items.map weight).sum ≤ cap) :
    runsFrom weight cap group used items = [group ++ items] := by
  induction items generalizing group used with
  | nil => rw [runsFrom_nil hgroup, List.append_nil]
  | cons a items ih =>
    rw [List.map_cons, List.sum_cons, Int.natCast_add] at hsum
    have hopen : ¬ (cap < used + weight a ∧ group.isEmpty = false) := by omega
    rw [runsFrom_cons, if_neg hopen, ih (by simp) (by rw [Int.natCast_add]; omega), List.append_assoc]
    rfl

theorem runs_of_sum_le (hitems : items ≠ []) (hsum : ((items.map weight).sum : ℤ) ≤ cap) :
    runs weight cap items = [items] := by
  cases items with
  | nil => exact absurd rfl hitems
  | cons a items =>
    rw [List.map_cons, List.sum_cons] at hsum
    push_cast at hsum
    have hopen : ¬ (cap < (0 : ℕ) + weight a ∧ ([] : List α).isEmpty = false) := by simp
    rw [runs, runsFrom_cons, if_neg hopen, runsFrom_of_sum_le (by simp) (by push_cast; omega)]
    rfl

end Memclaw.Lib.NextFit

import Mathlib.Data.List.Sort
import Mathlib.Data.List.Dedup
import Mathlib.Data.Finset.Card
import Mathlib.Data.Finset.Filter

/-! A set as a sorted list, and the first members of it: which they are is a matter of how many
members precede each, and this is also what new members have to leave alone. -/

namespace Memclaw.Lib.SortedSet

variable {α : Type} [DecidableEq α] (r : α → α → Prop) [DecidableRel r]

def sorted (items : List α) : List α := items.dedup.insertionSort r

def rank (items : List α) (a : α) : ℕ := (items.toFinset.filter fun b => r b a ∧ b ≠ a).card

variable {r} {items more : List α} {a b : α} {k : ℕ}

theorem mem_sorted : a ∈ sorted r items ↔ a ∈ items := by
  rw [sorted, List.mem_insertionSort, List.mem_dedup]

theorem nodup_sorted : (sorted r items).Nodup :=
  (List.perm_insertionSort r items.dedup).nodup_iff.mpr (List.nodup_dedup items)

theorem rank_subset (h : items ⊆ more) : rank r items a ≤ rank r more a := by
  refine Finset.card_le_card fun c hc => ?_
  rw [Finset.mem_filter, List.mem_toFinset] at hc ⊢
  exact ⟨h hc.1, hc.2⟩

variable [IsTrans α r] [Std.Total r]

theorem pairwise_sorted : (sorted r items).Pairwise r := List.pairwise_insertionSort r items.dedup

variable [Std.Antisymm r]

omit [DecidableEq α] [DecidableRel r] [IsTrans α r] [Std.Total r] in
theorem eq_of_sorted {l l' : List α} (hl : l.Pairwise r) (hl' : l'.Pairwise r) (hnodup : l.Nodup)
    (hnodup' : l'.Nodup) (h : ∀ a, a ∈ l ↔ a ∈ l') : l = l' := by
  have hperm : l.Perm l' := (List.perm_ext_iff_of_nodup hnodup hnodup').mpr h
  exact hperm.eq_of_pairwise (fun a b _ _ hab hba => antisymm hab hba) hl hl'

theorem sorted_congr (h : ∀ a, a ∈ items ↔ a ∈ more) : sorted r items = sorted r more := by
  refine eq_of_sorted pairwise_sorted pairwise_sorted nodup_sorted nodup_sorted fun a => ?_
  rw [mem_sorted, mem_sorted, h]

theorem sorted_congr_order {r' : α → α → Prop} [DecidableRel r'] [IsTrans α r'] [Std.Total r']
    (h : ∀ a ∈ items, ∀ b ∈ items, r' a b ↔ r a b) : sorted r' items = sorted r items := by
  have hsorted : (sorted r' items).Pairwise r := by
    refine (pairwise_sorted (r := r')).imp_of_mem fun {a b} ha hb hab => ?_
    exact (h a (mem_sorted.mp ha) b (mem_sorted.mp hb)).mp hab
  refine eq_of_sorted hsorted pairwise_sorted nodup_sorted nodup_sorted fun a => ?_
  rw [mem_sorted, mem_sorted]

omit [Std.Total r] in
theorem rank_mono (h : r a b) : rank r items a ≤ rank r items b := by
  refine Finset.card_le_card fun c hc => ?_
  rw [Finset.mem_filter] at hc ⊢
  refine ⟨hc.1, IsTrans.trans _ _ _ hc.2.1 h, ?_⟩
  rintro rfl
  exact hc.2.2 (antisymm hc.2.1 h)

theorem rank_eq_length {front back : List α} (h : sorted r items = front ++ a :: back) :
    rank r items a = front.length := by
  have hsorted : (front ++ a :: back).Pairwise r := h ▸ pairwise_sorted
  have hnodup : (front ++ a :: back).Nodup := h ▸ nodup_sorted
  obtain ⟨hfront, hback, hcross⟩ := List.nodup_append.mp hnodup
  have hset : (items.toFinset.filter fun b => r b a ∧ b ≠ a) = front.toFinset := by
    ext b
    rw [Finset.mem_filter, List.mem_toFinset, List.mem_toFinset, ← mem_sorted (r := r), h,
      List.mem_append, List.mem_cons]
    constructor
    · rintro ⟨hb | rfl | hb, hba, hne⟩
      · exact hb
      · exact absurd rfl hne
      · have hab := (List.pairwise_cons.mp (List.pairwise_append.mp hsorted).2.1).1 b hb
        exact absurd (antisymm hba hab) hne
    · intro hb
      exact ⟨.inl hb, (List.pairwise_append.mp hsorted).2.2 b hb a List.mem_cons_self,
        hcross b hb a List.mem_cons_self⟩
  rw [rank, hset, List.toFinset_card_of_nodup hfront]

theorem mem_take_sorted : a ∈ (sorted r items).take k ↔ a ∈ items ∧ rank r items a < k := by
  constructor
  · intro h
    obtain ⟨front, back, hsplit⟩ := List.append_of_mem (List.mem_of_mem_take h)
    refine ⟨mem_sorted.mp (List.mem_of_mem_take h), ?_⟩
    rw [rank_eq_length hsplit]
    by_contra hlen
    rw [hsplit, List.take_append_of_le_length (Nat.le_of_not_lt hlen)] at h
    have hnodup : (front ++ a :: back).Nodup := hsplit ▸ nodup_sorted
    exact (List.nodup_append.mp hnodup).2.2 a (List.mem_of_mem_take h) a List.mem_cons_self rfl
  · rintro ⟨ha, hrank⟩
    obtain ⟨front, back, hsplit⟩ := List.append_of_mem (mem_sorted (r := r).mpr ha)
    rw [rank_eq_length hsplit] at hrank
    rw [hsplit, List.mem_take_iff_getElem]
    refine ⟨front.length, ?_, ?_⟩
    · rw [List.length_append, List.length_cons]
      omega
    · rw [List.getElem_append_right (Nat.le_refl _)]
      simp

theorem take_sorted_congr
    (h : ∀ a, (a ∈ items ∧ rank r items a < k) ↔ (a ∈ more ∧ rank r more a < k)) :
    (sorted r items).take k = (sorted r more).take k := by
  refine eq_of_sorted (pairwise_sorted.sublist (List.take_sublist _ _))
    (pairwise_sorted.sublist (List.take_sublist _ _))
    (nodup_sorted.sublist (List.take_sublist _ _)) (nodup_sorted.sublist (List.take_sublist _ _))
    fun a => ?_
  rw [mem_take_sorted, mem_take_sorted, h]

/-- New members leave the first `k` as they are exactly when `k` old ones precede each. -/
theorem take_sorted_eq_iff (hsub : items ⊆ more) :
    (sorted r more).take k = (sorted r items).take k ↔
      ∀ a ∈ more, a ∉ items → k ≤ rank r items a := by
  constructor
  · intro h a ha hnew
    by_contra hrank
    have hmore : k ≤ rank r more a := by
      by_contra hlow
      have hmem := mem_take_sorted.mpr ⟨ha, Nat.lt_of_not_le hlow⟩
      rw [h] at hmem
      exact hnew (mem_take_sorted.mp hmem).1
    -- The first `k` of the larger set are old members in front of the new one.
    have hbefore : ((sorted r more).take k).toFinset ⊆
        items.toFinset.filter fun b => r b a ∧ b ≠ a := by
      intro b hb
      rw [List.mem_toFinset] at hb
      have hlow := (mem_take_sorted.mp hb).2
      have hold := (mem_take_sorted.mp (h ▸ hb)).1
      rw [Finset.mem_filter, List.mem_toFinset]
      refine ⟨hold, ?_, ?_⟩
      · rcases Std.Total.total (r := r) b a with hba | hab
        · exact hba
        · have hle : rank r more a ≤ rank r more b := rank_mono hab
          omega
      · rintro rfl
        exact hnew hold
    have hcard := Finset.card_le_card hbefore
    have hlength : k ≤ (sorted r more).length := by
      have hle : rank r more a ≤ more.toFinset.card := Finset.card_filter_le _ _
      rw [List.card_toFinset] at hle
      rw [sorted, List.length_insertionSort]
      exact hmore.trans hle
    rw [List.toFinset_card_of_nodup (nodup_sorted.sublist (List.take_sublist _ _)),
      List.length_take_of_le hlength] at hcard
    exact hrank hcard
  · intro h
    refine take_sorted_congr fun a => ?_
    constructor
    · rintro ⟨ha, hrank⟩
      have hle := rank_subset (r := r) (a := a) hsub
      refine ⟨?_, hle.trans_lt hrank⟩
      by_contra hnew
      have hk := h a ha hnew
      omega
    · rintro ⟨ha, hrank⟩
      refine ⟨hsub ha, ?_⟩
      -- No new member precedes one of the first.
      have hsame : rank r more a ≤ rank r items a := by
        refine Finset.card_le_card fun b hb => ?_
        rw [Finset.mem_filter, List.mem_toFinset] at hb ⊢
        refine ⟨?_, hb.2⟩
        by_contra hnew
        have hk := (h b hb.1 hnew).trans (rank_mono hb.2.1)
        omega
      exact hsame.trans_lt hrank

end Memclaw.Lib.SortedSet

import Mathlib.Data.Finset.Card
import Mathlib.Data.List.Sort

/-! Keyset pagination: pages of rows in descending order of a key, each taken behind the last key
of the page before it, from a store that may change between the pages. -/

namespace Memclaw.Lib.Keyset

variable {α K : Type} [LinearOrder K] (key : α → K)

def descending (rows : List α) : List α := rows.insertionSort fun a b => key b ≤ key a

def Behind (bound : Option K) (k : K) : Prop := ∀ b ∈ bound, k < b

instance (bound : Option K) (k : K) : Decidable (Behind bound k) :=
  inferInstanceAs (Decidable (∀ b ∈ bound, k < b))

structure Page (α K : Type) where
  items : List α
  next : Option K

/-- The rows behind a bound, one more than a page holds; with more rows than that there is a next
page, behind the last key of this one. -/
def page (limit : ℕ) (p : α → Bool) (bound : Option K) (rows : List α) : Page α K :=
  let fetched := (descending key (rows.filter fun a => p a && decide (Behind bound (key a)))).take
    (limit + 1)
  ⟨fetched.take limit, if limit < fetched.length then (fetched[limit - 1]?).map key else none⟩

/-- The pages up to the first one without a next page, if that comes within `n` of them; `stores`
holds what each of them is read from. -/
def walk (limit : ℕ) (p : α → Bool) : ℕ → (ℕ → List α) → Option K → Option (List (List α))
  | 0, _, _ => none
  | n + 1, stores, bound =>
    match (page key limit p bound (stores 0)).next with
    | none => some [(page key limit p bound (stores 0)).items]
    | some k => (walk limit p n (fun j => stores (j + 1)) (some k)).map
        ((page key limit p bound (stores 0)).items :: ·)

section Page

variable {key} {limit : ℕ} {p : α → Bool} {bound : Option K} {rows : List α}

theorem mem_descending {a : α} : a ∈ descending key rows ↔ a ∈ rows := List.mem_insertionSort _

theorem pairwise_descending (hnodup : (rows.map key).Nodup) :
    (descending key rows).Pairwise fun a b => key b < key a := by
  have htotal : Std.Total fun a b : α => key b ≤ key a := ⟨fun a b => le_total (key b) (key a)⟩
  have htrans : IsTrans α fun a b => key b ≤ key a := ⟨fun a b c hab hbc => hbc.trans hab⟩
  have hsorted : (descending key rows).Pairwise fun a b => key b ≤ key a :=
    List.pairwise_insertionSort _ rows
  have hkeys : ((descending key rows).map key).Nodup :=
    ((List.perm_insertionSort _ rows).map key).nodup_iff.mpr hnodup
  have hne : (descending key rows).Pairwise fun a b => key a ≠ key b := List.pairwise_map.mp hkeys
  exact hsorted.imp₂ (fun a b hle hne => lt_of_le_of_ne hle (Ne.symm hne)) hne

def eligible (key : α → K) (p : α → Bool) (bound : Option K) (rows : List α) : List α :=
  descending key (rows.filter fun a => p a && decide (Behind bound (key a)))

theorem mem_eligible {a : α} :
    a ∈ eligible key p bound rows ↔ a ∈ rows ∧ p a = true ∧ Behind bound (key a) := by
  rw [eligible, mem_descending, List.mem_filter, Bool.and_eq_true, decide_eq_true_eq]

theorem pairwise_eligible (hnodup : (rows.map key).Nodup) :
    (eligible key p bound rows).Pairwise fun a b => key b < key a :=
  pairwise_descending (hnodup.sublist (List.filter_sublist.map key))

theorem page_items : (page key limit p bound rows).items = (eligible key p bound rows).take limit := by
  show ((eligible key p bound rows).take (limit + 1)).take limit = _
  rw [List.take_take, Nat.min_eq_left (Nat.le_succ limit)]

theorem page_next (hlimit : 0 < limit) : (page key limit p bound rows).next =
    if limit < (eligible key p bound rows).length then
      ((eligible key p bound rows)[limit - 1]?).map key
    else none := by
  have hlength : limit < ((eligible key p bound rows).take (limit + 1)).length ↔
      limit < (eligible key p bound rows).length := by
    rw [List.length_take]
    omega
  show (if limit < ((eligible key p bound rows).take (limit + 1)).length then
    (((eligible key p bound rows).take (limit + 1))[limit - 1]?).map key else none) = _
  rw [List.getElem?_take_of_lt (by omega)]
  simp only [hlength]

theorem page_last (hlimit : 0 < limit) (h : (page key limit p bound rows).next = none) :
    (page key limit p bound rows).items = eligible key p bound rows := by
  rw [page_next hlimit] at h
  split_ifs at h with hmore
  · rw [Option.map_eq_none_iff, List.getElem?_eq_none_iff] at h
    omega
  · rw [page_items, List.take_of_length_le (Nat.le_of_not_lt hmore)]

theorem page_split (hlimit : 0 < limit) (hnodup : (rows.map key).Nodup) {k : K}
    (h : (page key limit p bound rows).next = some k) :
    k ∈ (page key limit p bound rows).items.map key ∧
      (∀ a ∈ (page key limit p bound rows).items, k ≤ key a) ∧
      ∀ a ∈ eligible key p bound rows,
        a ∈ (page key limit p bound rows).items ∨ key a < k := by
  rw [page_next hlimit] at h
  rw [page_items]
  split_ifs at h with hmore
  obtain ⟨last, hlast, rfl⟩ := Option.map_eq_some_iff.mp h
  obtain ⟨hlt, rfl⟩ := List.getElem?_eq_some_iff.mp hlast
  have hsorted : (eligible key p bound rows).Pairwise fun a b => key b < key a :=
    pairwise_eligible hnodup
  rw [List.pairwise_iff_getElem] at hsorted
  refine ⟨List.mem_map.mpr ⟨_, List.mem_take_iff_getElem.mpr ⟨limit - 1, by omega, rfl⟩, rfl⟩,
    fun a ha => ?_, fun a ha => ?_⟩
  · obtain ⟨i, hi, rfl⟩ := List.mem_take_iff_getElem.mp ha
    rcases Nat.lt_or_ge i (limit - 1) with h' | h'
    · exact (hsorted i (limit - 1) (by omega) hlt h').le
    · have : i = limit - 1 := by omega
      subst this
      exact le_refl _
  · obtain ⟨i, hi, rfl⟩ := List.mem_iff_getElem.mp ha
    rcases Nat.lt_or_ge i limit with h' | h'
    · exact Or.inl (List.mem_take_iff_getElem.mpr ⟨i, by omega, rfl⟩)
    · exact Or.inr (hsorted (limit - 1) i hlt hi (by omega))

theorem mem_items {a : α} (h : a ∈ (page key limit p bound rows).items) :
    a ∈ rows ∧ p a = true ∧ Behind bound (key a) := by
  rw [page_items] at h
  exact mem_eligible.mp (List.mem_of_mem_take h)

theorem pairwise_items (hnodup : (rows.map key).Nodup) :
    (page key limit p bound rows).items.Pairwise fun a b => key b < key a := by
  rw [page_items]
  exact (pairwise_eligible hnodup).sublist (List.take_sublist _ _)

theorem next_behind (hlimit : 0 < limit) (hnodup : (rows.map key).Nodup) {k : K}
    (h : (page key limit p bound rows).next = some k) : Behind bound k := by
  obtain ⟨hk, -, -⟩ := page_split hlimit hnodup h
  obtain ⟨a, ha, rfl⟩ := List.mem_map.mp hk
  exact (mem_items ha).2.2

end Page

section Walk

variable {key} {limit : ℕ} {p : α → Bool} {bound : Option K}

theorem walk_succ {n : ℕ} {stores : ℕ → List α} {pages : List (List α)}
    (h : walk key limit p (n + 1) stores bound = some pages) :
    ((page key limit p bound (stores 0)).next = none ∧
      pages = [(page key limit p bound (stores 0)).items]) ∨
    ∃ k rest, (page key limit p bound (stores 0)).next = some k ∧
      walk key limit p n (fun j => stores (j + 1)) (some k) = some rest ∧
      pages = (page key limit p bound (stores 0)).items :: rest := by
  unfold walk at h
  split at h
  · next hnext => exact Or.inl ⟨hnext, (Option.some.inj h).symm⟩
  · next k hnext =>
    obtain ⟨rest, hrest, rfl⟩ := Option.map_eq_some_iff.mp h
    exact Or.inr ⟨k, rest, hnext, hrest, rfl⟩

theorem walk_length_pos {n : ℕ} {stores : ℕ → List α} {pages : List (List α)}
    (h : walk key limit p n stores bound = some pages) : 0 < pages.length := by
  cases n with
  | zero => cases h
  | succ n =>
    rcases walk_succ h with ⟨-, rfl⟩ | ⟨k, rest, -, -, rfl⟩
    · exact Nat.one_pos
    · exact Nat.succ_pos _

theorem walk_mem {n : ℕ} {stores : ℕ → List α} {pages : List (List α)}
    (h : walk key limit p n stores bound = some pages) {i : ℕ} (hi : i < pages.length) {a : α}
    (ha : a ∈ pages[i]) : a ∈ stores i ∧ p a = true := by
  induction n generalizing stores bound pages i with
  | zero => cases h
  | succ n ih =>
    rcases walk_succ h with ⟨-, rfl⟩ | ⟨k, rest, -, hrest, rfl⟩
    · obtain rfl : i = 0 := by simpa using hi
      have hmem := mem_items ha
      exact ⟨hmem.1, hmem.2.1⟩
    · cases i with
      | zero =>
        have hmem := mem_items ha
        exact ⟨hmem.1, hmem.2.1⟩
      | succ i => exact ih hrest (by simpa using hi) ha

theorem walk_behind {n : ℕ} {stores : ℕ → List α} {pages : List (List α)} (hlimit : 0 < limit)
    (hnodup : ∀ j, ((stores j).map key).Nodup)
    (h : walk key limit p n stores bound = some pages) {a : α} (ha : a ∈ pages.flatten) :
    Behind bound (key a) := by
  induction n generalizing stores bound pages with
  | zero => cases h
  | succ n ih =>
    rcases walk_succ h with ⟨-, rfl⟩ | ⟨k, rest, hnext, hrest, rfl⟩
    · rw [List.flatten_singleton] at ha
      exact (mem_items ha).2.2
    · rw [List.flatten_cons, List.mem_append] at ha
      rcases ha with ha | ha
      · exact (mem_items ha).2.2
      · have hk : key a < k := ih (fun j => hnodup (j + 1)) hrest ha k rfl
        exact fun b hb => hk.trans (next_behind hlimit (hnodup 0) hnext b hb)

/-- Over all pages the keys only go down, so no key is shown twice. -/
theorem walk_pairwise {n : ℕ} {stores : ℕ → List α} {pages : List (List α)} (hlimit : 0 < limit)
    (hnodup : ∀ j, ((stores j).map key).Nodup)
    (h : walk key limit p n stores bound = some pages) :
    pages.flatten.Pairwise fun a b => key b < key a := by
  induction n generalizing stores bound pages with
  | zero => cases h
  | succ n ih =>
    rcases walk_succ h with ⟨-, rfl⟩ | ⟨k, rest, hnext, hrest, rfl⟩
    · rw [List.flatten_singleton]
      exact pairwise_items (hnodup 0)
    · rw [List.flatten_cons, List.pairwise_append]
      refine ⟨pairwise_items (hnodup 0), ih (fun j => hnodup (j + 1)) hrest, fun a ha b hb => ?_⟩
      have hb' : key b < k := walk_behind hlimit (fun j => hnodup (j + 1)) hrest hb k rfl
      have ha' : k ≤ key a := (page_split hlimit (hnodup 0) hnext).2.1 a ha
      exact hb'.trans_le ha'

/-- A key that is there for every page is shown on one of them. -/
theorem walk_complete {n : ℕ} {stores : ℕ → List α} {pages : List (List α)} (hlimit : 0 < limit)
    (hnodup : ∀ j, ((stores j).map key).Nodup)
    (h : walk key limit p n stores bound = some pages) {k : K} (hk : Behind bound k)
    (hall : ∀ j < pages.length, ∃ a ∈ stores j, p a = true ∧ key a = k) :
    k ∈ pages.flatten.map key := by
  induction n generalizing stores bound pages with
  | zero => cases h
  | succ n ih =>
    rcases walk_succ h with ⟨hnext, rfl⟩ | ⟨k', rest, hnext, hrest, rfl⟩
    · obtain ⟨a, ha, hp, rfl⟩ := hall 0 Nat.one_pos
      rw [List.flatten_singleton, page_last hlimit hnext]
      exact List.mem_map_of_mem (mem_eligible.mpr ⟨ha, hp, hk⟩)
    · obtain ⟨a, ha, hp, rfl⟩ := hall 0 (by simp)
      rw [List.flatten_cons, List.map_append, List.mem_append]
      rcases (page_split hlimit (hnodup 0) hnext).2.2 a (mem_eligible.mpr ⟨ha, hp, hk⟩) with h' | h'
      · exact Or.inl (List.mem_map_of_mem h')
      · refine Or.inr (ih (fun j => hnodup (j + 1)) hrest (fun b hb => ?_) fun j hj => ?_)
        · rwa [← Option.some.inj hb]
        · exact hall (j + 1) (by simpa using hj)

/-- With keys from a finite set the pages come to an end: each next bound leaves fewer of them. -/
theorem walk_total {n : ℕ} {stores : ℕ → List α} (hlimit : 0 < limit)
    (hnodup : ∀ j, ((stores j).map key).Nodup) (keys : Finset K)
    (hkeys : ∀ j, ∀ a ∈ stores j, key a ∈ keys)
    (hn : (keys.filter fun k => Behind bound k).card < n) :
    ∃ pages, walk key limit p n stores bound = some pages := by
  induction n generalizing stores bound with
  | zero => exact absurd hn (Nat.not_lt_zero _)
  | succ n ih =>
    unfold walk
    split
    · exact ⟨_, rfl⟩
    · next k hnext =>
      have hk : Behind bound k := next_behind hlimit (hnodup 0) hnext
      have hmem : k ∈ keys := by
        obtain ⟨a, ha, rfl⟩ := List.mem_map.mp (page_split hlimit (hnodup 0) hnext).1
        exact hkeys 0 a (mem_items ha).1
      have hfewer : (keys.filter fun k' => Behind (some k) k').card <
          (keys.filter fun k' => Behind bound k').card := by
        apply Finset.card_lt_card
        refine Finset.ssubset_iff_of_subset (fun k' hk' => ?_) |>.mpr ⟨k, ?_, ?_⟩
        · rw [Finset.mem_filter] at hk' ⊢
          exact ⟨hk'.1, fun b hb => (hk'.2 k rfl).trans (hk b hb)⟩
        · exact Finset.mem_filter.mpr ⟨hmem, hk⟩
        · exact fun h => lt_irrefl k ((Finset.mem_filter.mp h).2 k rfl)
      obtain ⟨rest, hrest⟩ := ih (fun j => hnodup (j + 1)) (fun j => hkeys (j + 1))
        (hfewer.trans_le (Nat.le_of_lt_succ hn))
      exact ⟨_, by rw [hrest]; rfl⟩

end Walk

end Memclaw.Lib.Keyset

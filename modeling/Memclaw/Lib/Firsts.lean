import Memclaw.Lib.Groups

/-! The first element of each class of a list, in order, and the dict that a loop fills under keys
that determine their values. -/

namespace Memclaw.Lib

variable {α κ σ : Type} [DecidableEq κ]

/-- The elements whose value under `f` is that of none before them. -/
def firstsBy (f : α → κ) : List α → List α
  | [] => []
  | a :: l => a :: (firstsBy f l).filter fun b => f b ≠ f a

theorem firstsBy_sublist (f : α → κ) (l : List α) : (firstsBy f l).Sublist l := by
  induction l with
  | nil => exact List.Sublist.refl _
  | cons a l ih =>
    rw [firstsBy]
    exact List.Sublist.cons_cons a (List.filter_sublist.trans ih)

theorem firstsBy_subset (f : α → κ) (l : List α) : firstsBy f l ⊆ l := (firstsBy_sublist f l).subset

theorem exists_mem_firstsBy {f : α → κ} {l : List α} {a : α} (h : a ∈ l) :
    ∃ b ∈ firstsBy f l, f b = f a := by
  induction l with
  | nil => exact absurd h List.not_mem_nil
  | cons first l ih =>
    rw [firstsBy]
    by_cases hfirst : f a = f first
    · exact ⟨first, List.mem_cons_self, hfirst.symm⟩
    · rcases List.mem_cons.mp h with rfl | h
      · exact absurd rfl hfirst
      · obtain ⟨b, hb, hba⟩ := ih h
        refine ⟨b, List.mem_cons_of_mem _ (List.mem_filter.mpr ⟨hb, ?_⟩), hba⟩
        exact decide_eq_true (hba ▸ hfirst)

theorem nodup_firstsBy (f : α → κ) (l : List α) : ((firstsBy f l).map f).Nodup := by
  induction l with
  | nil => exact List.nodup_nil
  | cons a l ih =>
    rw [firstsBy, List.map_cons, List.nodup_cons]
    refine ⟨fun hmem => ?_, ih.sublist (List.filter_sublist.map f)⟩
    obtain ⟨b, hb, hba⟩ := List.mem_map.mp hmem
    exact of_decide_eq_true (List.mem_filter.mp hb).2 hba

theorem firstsBy_of_nodup {f : α → κ} {l : List α} (h : (l.map f).Nodup) : firstsBy f l = l := by
  induction l with
  | nil => rfl
  | cons a l ih =>
    rw [List.map_cons, List.nodup_cons] at h
    rw [firstsBy, ih h.2, List.filter_eq_self.mpr]
    intro b hb
    exact decide_eq_true fun heq => h.1 (heq ▸ List.mem_map_of_mem hb)

theorem firstsBy_concat (f : α → κ) (l : List α) (a : α) :
    firstsBy f (l ++ [a]) = if f a ∈ l.map f then firstsBy f l else firstsBy f l ++ [a] := by
  induction l with
  | nil => rfl
  | cons b l ih =>
    rw [List.cons_append, firstsBy, ih, firstsBy, List.map_cons]
    by_cases hab : f a = f b
    · have hknown : f a ∈ f b :: l.map f := by
        rw [hab]
        exact List.mem_cons_self
      rw [if_pos hknown]
      split
      · rfl
      · rw [List.filter_append, List.filter_cons_of_neg (by simpa using hab), List.filter_nil,
          List.append_nil]
    · by_cases hmem : f a ∈ l.map f
      · rw [if_pos hmem, if_pos (List.mem_cons_of_mem _ hmem)]
      · have hnew : f a ∉ f b :: l.map f := fun h =>
          (List.mem_cons.mp h).elim hab hmem
        rw [if_neg hmem, if_neg hnew, List.filter_append,
          List.filter_cons_of_pos (by simpa using hab), List.filter_nil, List.cons_append]

theorem mem_firstsBy_id {l : List κ} {a : κ} : a ∈ firstsBy id l ↔ a ∈ l := by
  refine ⟨fun h => firstsBy_subset id l h, fun h => ?_⟩
  obtain ⟨b, hb, rfl⟩ := exists_mem_firstsBy (f := id) h
  exact hb

theorem firstsBy_congr {τ : Type} [DecidableEq τ] {f : α → κ} {g : α → τ} {l : List α}
    (h : ∀ a ∈ l, ∀ b ∈ l, f a = f b ↔ g a = g b) : firstsBy f l = firstsBy g l := by
  induction l with
  | nil => rfl
  | cons a l ih =>
    have hrest := ih fun b hb c hc =>
      h b (List.mem_cons_of_mem a hb) c (List.mem_cons_of_mem a hc)
    rw [firstsBy, firstsBy, hrest]
    congr 1
    refine List.filter_congr fun b hb => ?_
    have hba := h b (List.mem_cons_of_mem a (firstsBy_subset g l hb)) a List.mem_cons_self
    rw [decide_eq_decide, Ne, Ne, hba]

theorem firstsBy_id_eq_iff [DecidableEq α] {f : α → κ} {l : List α} :
    firstsBy id l = firstsBy f l ↔ ∀ a ∈ l, ∀ b ∈ l, f a = f b → a = b := by
  constructor
  · intro h a ha b hb hab
    rw [← mem_firstsBy_id, h] at ha hb
    exact List.inj_on_of_nodup_map (nodup_firstsBy f l) ha hb hab
  · intro h
    exact firstsBy_congr fun a ha b hb => ⟨fun hab => congrArg f hab, h a ha b hb⟩

theorem firstsBy_filter (p : κ → Bool) (l : List κ) :
    (firstsBy id l).filter p = firstsBy id (l.filter p) := by
  induction l with
  | nil => rfl
  | cons a l ih =>
    rw [firstsBy]
    cases hp : p a with
    | true =>
      rw [List.filter_cons_of_pos hp, List.filter_cons_of_pos hp, firstsBy, ← ih,
        List.filter_filter, List.filter_filter]
      simp only [Bool.and_comm]
    | false =>
      have hne : ¬ p a = true := by simp [hp]
      rw [List.filter_cons_of_neg hne, List.filter_cons_of_neg hne, ← ih, List.filter_filter]
      refine List.filter_congr fun b _ => ?_
      by_cases hba : b = a
      · simp [hba, hp]
      · simp [hba]

namespace Groups

theorem upsert_same {k : κ} {f : Option σ → σ} {groups : List (κ × σ)}
    (hmem : k ∈ groups.map Prod.fst) (h : ∀ group ∈ groups, group.1 = k → f (some group.2) = group.2) :
    upsert k f groups = groups := by
  induction groups with
  | nil => exact absurd hmem List.not_mem_nil
  | cons group groups ih =>
    obtain ⟨key, s⟩ := group
    rw [upsert]
    by_cases hkey : key = k
    · rw [if_pos hkey, h (key, s) List.mem_cons_self hkey]
    · have hrest : k ∈ groups.map Prod.fst := by
        rcases List.mem_cons.mp hmem with hk | hrest
        · exact absurd hk.symm hkey
        · exact hrest
      rw [if_neg hkey, ih hrest fun group hgroup => h group (List.mem_cons_of_mem _ hgroup)]

theorem collect_firstsBy {key : α → κ} {step : α → Option σ → σ} (g : κ → σ)
    {groups : List (κ × σ)} {events : List α} (hstep : ∀ e ∈ events, ∀ s, step e s = g (key e))
    (hgroups : ∀ group ∈ groups, group.2 = g group.1) :
    collect key step groups events = groups ++ (((firstsBy id (events.map key)).filter
      fun k => decide (k ∉ groups.map Prod.fst)).map fun k => (k, g k)) := by
  -- Where a key determines its value, the dict has each key where it was first seen.
  induction events generalizing groups with
  | nil => exact (List.append_nil _).symm
  | cons e events ih =>
    obtain ⟨hfirst, hrest⟩ := List.forall_mem_cons.mp hstep
    rw [collect, List.foldl_cons, ← collect, List.map_cons, firstsBy]
    by_cases hmem : key e ∈ groups.map Prod.fst
    · have hsame : upsert (key e) (step e) groups = groups := by
        refine upsert_same hmem fun group hgroup hkey => ?_
        rw [hfirst, hgroups group hgroup, hkey]
      rw [hsame, ih hrest hgroups, List.filter_cons_of_neg (by simpa using hmem),
        List.filter_filter]
      congr 2
      refine List.filter_congr fun k _ => ?_
      by_cases hk : k = key e
      · simp [hk, hmem]
      · simp [hk]
    · have hnew : ∀ group ∈ groups ++ [(key e, g (key e))], group.2 = g group.1 := by
        intro group hgroup
        rcases List.mem_append.mp hgroup with hgroup | hgroup
        · exact hgroups group hgroup
        · rw [List.mem_singleton.mp hgroup]
      rw [upsert_new hmem, hfirst, ih hrest hnew, List.filter_cons_of_pos (by simpa using hmem),
        List.append_assoc, List.filter_filter]
      congr 1
      rw [List.map_cons, List.singleton_append]
      congr 2
      refine List.filter_congr fun k _ => ?_
      rw [List.map_append, List.map_singleton, id, id, ← Bool.decide_and, decide_eq_decide,
        List.mem_append, List.mem_singleton, not_or]

end Groups

end Memclaw.Lib

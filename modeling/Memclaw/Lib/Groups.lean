import Mathlib.Data.List.Nodup
import Memclaw.Lib.Keyed

/-! A dict that a loop fills under the keys of its events: the keys stand in the order in which
they were first seen, and each value is folded from the events of its key. -/

namespace Memclaw.Lib.Groups

variable {α κ σ : Type} [DecidableEq κ]

def upsert (k : κ) (f : Option σ → σ) : List (κ × σ) → List (κ × σ)
  | [] => [(k, f none)]
  | (k', s) :: groups => if k' = k then (k', f (some s)) :: groups else (k', s) :: upsert k f groups

def collect (key : α → κ) (step : α → Option σ → σ) (groups : List (κ × σ)) (events : List α) :
    List (κ × σ) :=
  events.foldl (fun groups e => upsert (key e) (step e) groups) groups

def value (groups : List (κ × σ)) (k : κ) : Option σ :=
  (Keyed.get Prod.fst groups k).map Prod.snd

theorem value_cons (group : κ × σ) (groups : List (κ × σ)) (k : κ) :
    value (group :: groups) k = if group.1 = k then some group.2 else value groups k := by
  unfold value Keyed.get
  by_cases h : group.1 = k
  · rw [List.find?_cons_of_pos (by simpa using h), if_pos h]
    rfl
  · rw [List.find?_cons_of_neg (by simpa using h), if_neg h]

theorem value_upsert (k k' : κ) (f : Option σ → σ) (groups : List (κ × σ)) :
    value (upsert k f groups) k' =
      if k = k' then some (f (value groups k)) else value groups k' := by
  induction groups with
  | nil =>
    rw [upsert, value_cons]
    rfl
  | cons group groups ih =>
    obtain ⟨key, s⟩ := group
    rw [upsert]
    by_cases hkey : key = k
    · rw [if_pos hkey, value_cons, value_cons, value_cons, if_pos hkey]
      by_cases hk : k = k'
      · rw [if_pos hk, if_pos (hkey.trans hk)]
      · rw [if_neg hk, if_neg fun h => hk (hkey.symm.trans h),
          if_neg fun h => hk (hkey.symm.trans h)]
    · rw [if_neg hkey, value_cons, ih, value_cons, value_cons, if_neg hkey]
      by_cases hk : k = k'
      · rw [if_neg fun h => hkey (h.trans hk.symm), if_pos hk, if_pos hk]
      · rw [if_neg hk, if_neg hk]

theorem keys_upsert (k : κ) (f : Option σ → σ) (groups : List (κ × σ)) :
    (upsert k f groups).map Prod.fst =
      if k ∈ groups.map Prod.fst then groups.map Prod.fst else groups.map Prod.fst ++ [k] := by
  induction groups with
  | nil => rfl
  | cons group groups ih =>
    obtain ⟨key, s⟩ := group
    rw [upsert]
    by_cases hkey : key = k
    · rw [if_pos hkey, if_pos (by simp [hkey])]
      rfl
    · rw [if_neg hkey, List.map_cons, ih, List.map_cons]
      by_cases hmem : k ∈ groups.map Prod.fst
      · rw [if_pos hmem, if_pos (List.mem_cons_of_mem key hmem)]
      · rw [if_neg hmem, if_neg (by simpa [Ne.symm hkey] using hmem)]
        rfl

theorem upsert_unique {k : κ} {f : Option σ → σ} {groups : List (κ × σ)}
    (h : Keyed.Unique Prod.fst groups) : Keyed.Unique Prod.fst (upsert k f groups) := by
  rw [Keyed.Unique, keys_upsert]
  split
  · exact h
  · next hmem =>
    refine List.nodup_append.mpr ⟨h, List.nodup_singleton k, fun a ha b hb hab => hmem ?_⟩
    rwa [← List.mem_singleton.mp hb, ← hab]

theorem filter_upsert (p : κ → Bool) (k : κ) (f : Option σ → σ) (groups : List (κ × σ)) :
    (upsert k f groups).filter (fun group => p group.1) =
      if p k then upsert k f (groups.filter fun group => p group.1)
      else groups.filter fun group => p group.1 := by
  induction groups with
  | nil => cases hp : p k <;> simp [upsert, hp]
  | cons group groups ih =>
    obtain ⟨key, s⟩ := group
    rw [upsert]
    by_cases hkey : key = k
    · subst hkey
      cases hp : p key <;> simp [hp, upsert]
    · rw [if_neg hkey]
      cases hp : p key
      · simpa [hp] using ih
      · simp only [List.filter_cons, hp, if_true, ih]
        cases hp' : p k <;> simp [upsert, hkey]

variable {key : α → κ} {step : α → Option σ → σ}

theorem collect_unique {groups : List (κ × σ)} (h : Keyed.Unique Prod.fst groups)
    (events : List α) : Keyed.Unique Prod.fst (collect key step groups events) := by
  induction events generalizing groups with
  | nil => exact h
  | cons e events ih => exact ih (upsert_unique h)

theorem collect_nil_unique (events : List α) :
    Keyed.Unique Prod.fst (collect key step [] events) := by
  have hnone : Keyed.Unique (Prod.fst : κ × σ → κ) [] := List.nodup_nil
  exact collect_unique hnone events

theorem forall_upsert {P : σ → Prop} {k : κ} {f : Option σ → σ} {groups : List (κ × σ)}
    (hf : ∀ s : Option σ, (∀ s' ∈ s, P s') → P (f s)) (h : ∀ group ∈ groups, P group.2) :
    ∀ group ∈ upsert k f groups, P group.2 := by
  induction groups with
  | nil =>
    intro group hgroup
    rw [List.mem_singleton.mp hgroup]
    exact hf none fun s' hs' => nomatch hs'
  | cons first groups ih =>
    obtain ⟨hfirst, hrest⟩ := List.forall_mem_cons.mp h
    rw [upsert]
    split
    · refine List.forall_mem_cons.mpr ⟨hf _ fun s' hs' => ?_, hrest⟩
      rwa [← Option.some.inj hs']
    · exact List.forall_mem_cons.mpr ⟨hfirst, ih hrest⟩

theorem forall_collect {P : σ → Prop} {groups : List (κ × σ)} {events : List α}
    (hstep : ∀ e ∈ events, ∀ s : Option σ, (∀ s' ∈ s, P s') → P (step e s))
    (h : ∀ group ∈ groups, P group.2) : ∀ group ∈ collect key step groups events, P group.2 := by
  induction events generalizing groups with
  | nil => exact h
  | cons e events ih =>
    obtain ⟨hfirst, hrest⟩ := List.forall_mem_cons.mp hstep
    exact ih hrest (forall_upsert hfirst h)

/-- A value is folded from the events of its key alone. -/
theorem value_collect (groups : List (κ × σ)) (events : List α) (k : κ) :
    value (collect key step groups events) k =
      (events.filter fun e => key e = k).foldl (fun s e => some (step e s)) (value groups k) := by
  induction events generalizing groups with
  | nil => rfl
  | cons e events ih =>
    rw [collect, List.foldl_cons, ← collect, ih, value_upsert]
    by_cases hk : key e = k
    · rw [List.filter_cons_of_pos (by simpa using hk), if_pos hk, hk]
      rfl
    · rw [List.filter_cons_of_neg (by simpa using hk), if_neg hk]

theorem filter_collect (p : κ → Bool) (groups : List (κ × σ)) (events : List α) :
    (collect key step groups events).filter (fun group => p group.1) =
      collect key step (groups.filter fun group => p group.1)
        (events.filter fun e => p (key e)) := by
  induction events generalizing groups with
  | nil => rfl
  | cons e events ih =>
    rw [collect, List.foldl_cons, ← collect, ih, filter_upsert]
    cases hp : p (key e) with
    | true =>
      rw [if_pos rfl, List.filter_cons_of_pos (by simpa using hp)]
      rfl
    | false =>
      rw [if_neg Bool.false_ne_true, List.filter_cons_of_neg (by simp [hp])]

theorem keys_prefix_collect (groups : List (κ × σ)) (events : List α) :
    groups.map Prod.fst <+: (collect key step groups events).map Prod.fst := by
  induction events generalizing groups with
  | nil => exact List.prefix_refl _
  | cons e events ih =>
    refine List.IsPrefix.trans ?_ (ih (upsert (key e) (step e) groups))
    rw [keys_upsert]
    split
    · exact List.prefix_refl _
    · exact List.prefix_append _ _

/-- Keys that were not seen before are added in the order of their events. -/
theorem keys_collect {groups : List (κ × σ)} {events : List α}
    (h : (groups.map Prod.fst ++ events.map key).Nodup) :
    (collect key step groups events).map Prod.fst = groups.map Prod.fst ++ events.map key := by
  induction events generalizing groups with
  | nil => exact (List.append_nil _).symm
  | cons e events ih =>
    have hnew : key e ∉ groups.map Prod.fst :=
      fun hmem => List.disjoint_of_nodup_append h hmem List.mem_cons_self
    have hkeys : (upsert (key e) (step e) groups).map Prod.fst =
        groups.map Prod.fst ++ [key e] := by
      rw [keys_upsert, if_neg hnew]
    have hassoc : groups.map Prod.fst ++ [key e] ++ events.map key =
        groups.map Prod.fst ++ (e :: events).map key := List.append_assoc _ _ _
    rw [collect, List.foldl_cons, ← collect, ih, hkeys, hassoc]
    rw [hkeys, hassoc]
    exact h

theorem upsert_new {k : κ} {f : Option σ → σ} {groups : List (κ × σ)}
    (h : k ∉ groups.map Prod.fst) : upsert k f groups = groups ++ [(k, f none)] := by
  induction groups with
  | nil => rfl
  | cons group groups ih =>
    obtain ⟨key, s⟩ := group
    rw [List.map_cons, List.mem_cons, not_or] at h
    rw [upsert, if_neg (Ne.symm h.1), ih h.2]
    rfl

theorem collect_of_nodup {groups : List (κ × σ)} {events : List α}
    (h : (groups.map Prod.fst ++ events.map key).Nodup) :
    collect key step groups events = groups ++ events.map fun e => (key e, step e none) := by
  induction events generalizing groups with
  | nil => exact (List.append_nil _).symm
  | cons e events ih =>
    have hnew : key e ∉ groups.map Prod.fst :=
      fun hmem => List.disjoint_of_nodup_append h hmem List.mem_cons_self
    rw [collect, List.foldl_cons, ← collect, upsert_new hnew, ih]
    · rw [List.append_assoc]
      rfl
    · rw [List.map_append, List.append_assoc]
      exact h

theorem mem_keys_collect {groups : List (κ × σ)} {events : List α} {k : κ} :
    k ∈ (collect key step groups events).map Prod.fst ↔
      k ∈ groups.map Prod.fst ∨ ∃ e ∈ events, key e = k := by
  induction events generalizing groups with
  | nil => simp [collect]
  | cons e events ih =>
    rw [collect, List.foldl_cons, ← collect, ih, keys_upsert, List.exists_mem_cons_iff]
    split
    · next hmem =>
      constructor
      · rintro (h | h)
        · exact .inl h
        · exact .inr (.inr h)
      · rintro (h | h | h)
        · exact .inl h
        · exact .inl (h ▸ hmem)
        · exact .inr h
    · rw [List.mem_append, List.mem_singleton, or_assoc, eq_comm (a := k)]

theorem value_isSome_iff {groups : List (κ × σ)} {k : κ} :
    (value groups k).isSome ↔ k ∈ groups.map Prod.fst := by
  rw [value, Option.isSome_map, Keyed.get, List.find?_isSome, List.mem_map]
  constructor
  · rintro ⟨group, hgroup, hk⟩
    exact ⟨group, hgroup, of_decide_eq_true hk⟩
  · rintro ⟨group, hgroup, hk⟩
    exact ⟨group, hgroup, decide_eq_true hk⟩

theorem value_map {τ : Type} (f : κ → σ → τ) (groups : List (κ × σ)) (k : κ) :
    value (groups.map fun group => (group.1, f group.1 group.2)) k =
      (value groups k).map (f k) := by
  induction groups with
  | nil => rfl
  | cons group groups ih =>
    rw [List.map_cons, value_cons, value_cons, ih]
    by_cases hk : group.1 = k
    · rw [if_pos hk, if_pos hk, hk]
      rfl
    · rw [if_neg hk, if_neg hk]

theorem value_collect_first (new : κ × α → σ) (groups : List (κ × σ)) (events : List (κ × α))
    (k : κ) :
    value (collect Prod.fst (fun e known => known.getD (new e)) groups events) k =
      (value groups k).or ((value events k).map fun a => new (k, a)) := by
  induction events generalizing groups with
  | nil => exact (Option.or_none).symm
  | cons e events ih =>
    rw [collect, List.foldl_cons, ← collect, ih, value_upsert, value_cons]
    by_cases hk : e.1 = k
    · subst hk
      rw [if_pos rfl, if_pos rfl]
      cases value groups e.1 <;> rfl
    · rw [if_neg hk, if_neg hk]

end Memclaw.Lib.Groups

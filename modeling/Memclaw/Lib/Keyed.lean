import Mathlib.Data.List.Nodup
import Mathlib.Order.Bounds.Basic

/-! Tables with a unique key: the row of a key after statements that delete rows, rewrite them
under their keys, or move them to other keys. -/

namespace Memclaw.Lib.Keyed

variable {α κ : Type} [DecidableEq κ] (key : α → κ)

def Unique (rows : List α) : Prop := (rows.map key).Nodup

instance (rows : List α) : Decidable (Unique key rows) :=
  inferInstanceAs (Decidable (List.Nodup _))

def get (rows : List α) (k : κ) : Option α := rows.find? fun row => key row = k

variable {key} {rows : List α}

theorem mem_of_get {k : κ} {row : α} (h : get key rows k = some row) : row ∈ rows ∧ key row = k :=
  ⟨List.mem_of_find?_eq_some h, by simpa using List.find?_some h⟩

theorem get_of_mem (hu : Unique key rows) {row : α} (h : row ∈ rows) :
    get key rows (key row) = some row := by
  cases hget : get key rows (key row) with
  | none => exact absurd (List.find?_eq_none.mp hget row h) (by simp)
  | some other =>
    obtain ⟨hother, hkey⟩ := mem_of_get hget
    exact congrArg some (List.inj_on_of_nodup_map hu hother h hkey)

theorem get_eq_some (hu : Unique key rows) {k : κ} {row : α} :
    get key rows k = some row ↔ row ∈ rows ∧ key row = k :=
  ⟨mem_of_get, fun ⟨hmem, hkey⟩ => hkey ▸ get_of_mem hu hmem⟩

theorem get_eq_none {k : κ} : get key rows k = none ↔ ∀ row ∈ rows, key row ≠ k := by
  simp [get, List.find?_eq_none]

omit [DecidableEq κ] in
theorem Unique.filter (hu : Unique key rows) (p : α → Bool) : Unique key (rows.filter p) :=
  hu.sublist (List.filter_sublist.map key)

theorem get_filter (hu : Unique key rows) (p : α → Bool) (k : κ) :
    get key (rows.filter p) k = (get key rows k).filter p := by
  refine Option.ext fun row => ?_
  rw [get_eq_some (hu.filter p), Option.filter_eq_some_iff, get_eq_some hu, List.mem_filter]
  exact and_right_comm

omit [DecidableEq κ] in
theorem Unique.map {f : α → α} (hu : Unique key rows) (hf : ∀ row, key (f row) = key row) :
    Unique key (rows.map f) := by
  rw [Unique, List.map_map, show key ∘ f = key from funext hf]
  exact hu

theorem get_map {f : α → α} (hf : ∀ row, key (f row) = key row) (k : κ) :
    get key (rows.map f) k = (get key rows k).map f := by
  have hkept : (fun row => decide (key row = k)) ∘ f = fun row => decide (key row = k) :=
    funext fun row => by rw [Function.comp, hf]
  rw [get, List.find?_map, hkept]
  rfl

omit [DecidableEq κ] in
theorem Unique.move {f : α → α} (hu : Unique key rows)
    (hf : ∀ a ∈ rows, ∀ b ∈ rows, key (f a) = key (f b) → key a = key b) :
    Unique key (rows.map f) := by
  rw [Unique, List.map_map]
  refine (List.Nodup.of_map _ hu).map_on fun a ha b hb hsame => ?_
  exact List.inj_on_of_nodup_map hu ha hb (hf a ha b hb hsame)

section Maxima

variable {W : Type} [LinearOrder W]

def Greatest (S : Set W) : Option W → Prop
  | none => S = ∅
  | some v => IsGreatest S v

theorem Greatest.of_option (o : Option W) : Greatest {v | o = some v} o := by
  cases o with
  | none => exact Set.eq_empty_of_forall_notMem fun v hv => nomatch hv
  | some w => exact ⟨rfl, fun v hv => (Option.some.inj hv).ge⟩

theorem Greatest.merge {S T : Set W} {a b : Option W} (ha : Greatest S a) (hb : Greatest T b) :
    Greatest (S ∪ T) (Option.merge max a b) := by
  cases a with
  | none =>
    have hS : S = ∅ := ha
    cases b with
    | none => exact Set.union_empty_iff.mpr ⟨hS, hb⟩
    | some w => simpa [hS, Option.merge] using hb
  | some v =>
    cases b with
    | none =>
      have hT : T = ∅ := hb
      simpa [hT, Option.merge] using ha
    | some w => exact IsGreatest.union ha hb

theorem Greatest.eq_some_iff {S : Set W} {o : Option W} (h : Greatest S o) {v : W} :
    o = some v ↔ IsGreatest S v := by
  cases o with
  | none =>
    have hS : S = ∅ := h
    constructor
    · intro hnone
      exact nomatch hnone
    · intro hv
      exact absurd hv.1 (hS ▸ Set.notMem_empty v)
  | some w =>
    constructor
    · intro hw
      exact Option.some.inj hw ▸ h
    · intro hv
      exact congrArg some (IsGreatest.unique h hv)

theorem Greatest.unique {S : Set W} {o o' : Option W} (h : Greatest S o) (h' : Greatest S o') :
    o = o' :=
  Option.ext fun _ => h.eq_some_iff.trans h'.eq_some_iff.symm

def keep (w : W) : Option W → W
  | none => w
  | some best => if best < w then w else best

theorem Greatest.keep {S : Set W} {o : Option W} (h : Greatest S o) (w : W) :
    Greatest (insert w S) (some (keep w o)) := by
  cases o with
  | none =>
    have hS : S = ∅ := h
    rw [hS]
    exact ⟨Set.mem_insert w ∅, fun v hv => (hv.resolve_right (Set.notMem_empty v)).le⟩
  | some best =>
    have hmax : Keyed.keep w (some best) = max w best := by
      rw [max_comm, max_def_lt]
      rfl
    rw [hmax]
    exact IsGreatest.insert w h

theorem Greatest.foldl_keep {α : Type} (weight : α → W) {S : Set W} {o : Option W}
    (h : Greatest S o) (events : List α) :
    Greatest (S ∪ {w | ∃ e ∈ events, weight e = w})
      (events.foldl (fun known e => some (Keyed.keep (weight e) known)) o) := by
  induction events generalizing S o with
  | nil =>
    have hnone : {w | ∃ e ∈ ([] : List α), weight e = w} = ∅ :=
      Set.eq_empty_of_forall_notMem fun w hw => by simp at hw
    rw [hnone, Set.union_empty]
    exact h
  | cons e events ih =>
    have hset : S ∪ {w | ∃ e' ∈ e :: events, weight e' = w} =
        insert (weight e) S ∪ {w | ∃ e' ∈ events, weight e' = w} := by
      ext w
      simp only [Set.mem_union, Set.mem_insert_iff, Set.mem_ofPred_eq, List.exists_mem_cons_iff]
      rw [eq_comm (a := w), or_left_comm, or_assoc]
    rw [hset, List.foldl_cons]
    exact ih (h.keep (weight e))

end Maxima

end Memclaw.Lib.Keyed

import Memclaw.Settings.Merge

/-! A diff against the merge it stands for: it records what the merge changes exactly where no
object takes the place of another value and no change is one of keys alone. -/

namespace Memclaw.Settings

open Memclaw.Lib

theorem isObj_of_value {a b : Json} (h : a.value = b.value) : a.isObj = b.isObj := by
  let isObj : Value → Bool := fun
    | .obj _ => true
    | _ => false
  have hvalue : ∀ j : Json, isObj j.value = j.isObj := by
    intro j
    cases j with
    | float x => cases x <;> rfl
    | _ => rfl
  rw [← hvalue, ← hvalue, h]

theorem value_find {d d' : Dict} (h : (Json.obj d).value = (Json.obj d').value) (k : String) :
    (Dict.find d k).map Json.value = (Dict.find d' k).map Json.value := by
  rw [Json.value, Json.value] at h
  have hfields := congrFun (Value.obj.inj h) k
  rwa [Json.valueFields_eq, Json.valueFields_eq] at hfields

theorem value_walk {a b : Json} (h : a.value = b.value) (path : List String) :
    (a.walk path).map Json.value = (b.walk path).map Json.value := by
  induction path generalizing a b with
  | nil => rw [Json.walk_nil, Json.walk_nil, Option.map_some, Option.map_some, h]
  | cons k path ih =>
    have hobj := isObj_of_value h
    cases ha : a.isObj with
    | false => rw [Json.walk_of_not_obj ha, Json.walk_of_not_obj (hobj ▸ ha)]
    | true =>
      obtain ⟨d, rfl⟩ := Json.exists_obj ha
      obtain ⟨d', rfl⟩ := Json.exists_obj (hobj ▸ ha)
      have hfields := value_find h k
      rw [Json.walk_obj, Json.walk_obj]
      cases hk : Dict.find d k with
      | none =>
        rw [hk, Option.map_none, eq_comm, Option.map_eq_none_iff] at hfields
        rw [hfields]
      | some v =>
        rw [hk, Option.map_some, eq_comm] at hfields
        obtain ⟨w, hk', hvw⟩ := Option.map_eq_some_iff.mp hfields
        rw [hk', Option.bind_some, Option.bind_some]
        exact ih hvw.symm

theorem value_under {a b : Json} (h : a.value = b.value) (path : List String) :
    (a.under path).value = (b.under path).value := by
  have hwalk := value_walk h path
  unfold Json.under
  cases ha : a.walk path with
  | none =>
    rw [ha, Option.map_none, eq_comm, Option.map_eq_none_iff] at hwalk
    rw [hwalk]
  | some v =>
    rw [ha, Option.map_some, eq_comm] at hwalk
    obtain ⟨w, hb, hvw⟩ := Option.map_eq_some_iff.mp hwalk
    rw [hb, Option.getD_some, Option.getD_some, hvw]

theorem walk_merged {new : Json} (hd : new.distinct = true) {old v : Json} {path : List String}
    (h : new.walk path = some v) :
    (deepMerge old new).walk path = some (deepMerge (old.under path) v) := by
  -- Where the new document has a value, the merge has that value merged into the old one.
  induction path generalizing old new with
  | nil =>
    rw [Json.walk_nil] at h
    obtain rfl := Option.some.inj h
    rw [Json.walk_nil, Json.under_nil]
  | cons k path ih =>
    cases hnew : new.isObj with
    | false =>
      rw [Json.walk_of_not_obj hnew] at h
      exact absurd h (by simp)
    | true =>
      obtain ⟨d, rfl⟩ := Json.exists_obj hnew
      rw [Json.walk_obj] at h
      obtain ⟨w, hk, hw⟩ := Option.bind_eq_some_iff.mp h
      rw [Json.distinct] at hd
      have hrest := fun old => @ih w (Json.distinct_of_find hd hk) old hw
      cases hold : old.isObj with
      | false =>
        have hnull : old.under (k :: path) = (Json.null).under path := by
          rw [Json.under, Json.walk_of_not_obj hold]
          cases path <;> rfl
        rw [deepMerge_of_not_obj hold, Json.walk_obj, hk, Option.bind_some, hnull, ← hrest,
          deepMerge_of_not_obj rfl]
      | true =>
        obtain ⟨d', rfl⟩ := Json.exists_obj hold
        rw [deepMerge_obj, Json.walk_obj, find_mergeFields hd hk, Option.bind_some, hrest,
          Json.under_get]

theorem deepMerge_isObj (old : Json) {new : Json} (h : new.isObj = true) :
    (deepMerge old new).isObj = true := by
  obtain ⟨d, rfl⟩ := Json.exists_obj h
  cases hold : old.isObj with
  | false =>
    rw [deepMerge_of_not_obj hold]
    rfl
  | true =>
    obtain ⟨d', rfl⟩ := Json.exists_obj hold
    rw [deepMerge_obj]
    rfl

theorem mergeFields_fixed {new out : Dict}
    (h : ∀ k v, (k, v) ∈ new → ∃ w, Dict.find out k = some w ∧ deepMerge w v = w) :
    mergeFields out new = out := by
  induction new with
  | nil => rw [mergeFields]
  | cons field new ih =>
    obtain ⟨k, v⟩ := field
    obtain ⟨w, hk, hfixed⟩ := h k v List.mem_cons_self
    have hget : Dict.get out k = w := by rw [Dict.get, hk, Option.getD_some]
    rw [mergeFields, hget, hfixed, Dict.set_of_find hk]
    exact ih fun l u hmem => h l u (List.mem_cons_of_mem _ hmem)

theorem deepMerge_again (new : Json) : new.distinct = true → ∀ old,
    deepMerge (deepMerge old new) new = deepMerge old new := by
  induction new using Json.induction_fields with
  | hother new hnew =>
    intro _ old
    rw [deepMerge_not_obj hnew, deepMerge_not_obj hnew]
  | hobj d ih =>
    intro hd old
    rw [Json.distinct] at hd
    obtain ⟨d', hmerged⟩ : ∃ d', deepMerge old (.obj d) = .obj d' :=
      Json.exists_obj (deepMerge_isObj old rfl)
    rw [hmerged, deepMerge_obj]
    congr 1
    refine mergeFields_fixed fun k v hmem => ?_
    have hk : Dict.find d k = some v := Json.find_of_mem hd hmem
    have hwalk : (deepMerge old (.obj d)).walk [k] = some (deepMerge (old.under [k]) v) := by
      refine walk_merged (by rwa [Json.distinct]) ?_
      rw [Json.walk_obj, hk, Option.bind_some, Json.walk_nil]
    rw [hmerged, Json.walk_obj] at hwalk
    obtain ⟨w, hk', hw⟩ := Option.bind_eq_some_iff.mp hwalk
    rw [Json.walk_nil] at hw
    refine ⟨w, hk', ?_⟩
    rw [Option.some.inj hw]
    exact ih k v hk (Json.distinct_of_find hd hk) _

/-- Every key of the new document is in the old one, with an object where it has an object and the
same leaf where it has a leaf. -/
def Contained (same : Json → Json → Prop) (old new : Json) : Prop :=
  ∀ path v, new.walk path = some v →
    ∃ w, old.walk path = some w ∧ if v.isObj then w.isObj = true else same v w

theorem Contained.field {same : Json → Json → Prop} {d d' : Dict}
    (h : Contained same (.obj d) (.obj d')) {k : String} {v w : Json}
    (hk' : Dict.find d' k = some v) (hk : Dict.find d k = some w) : Contained same w v := by
  intro path u hu
  have hwalk : (Json.obj d').walk (k :: path) = some u := by
    rw [Json.walk_obj, hk', Option.bind_some, hu]
  obtain ⟨x, hx, hsame⟩ := h (k :: path) u hwalk
  rw [Json.walk_obj, hk, Option.bind_some] at hx
  exact ⟨x, hx, hsame⟩

/-- A merge changes nothing exactly where the old document contains the new one. -/
theorem value_merged_iff {new : Json} (hd : new.distinct = true) (old : Json) :
    (deepMerge old new).value = old.value ↔
      Contained (fun v w => v.value = w.value) old new := by
  constructor
  · intro h path v hv
    have hwalk := value_walk h path
    rw [walk_merged hd hv, Option.map_some, eq_comm] at hwalk
    obtain ⟨w, hw, hvalue⟩ := Option.map_eq_some_iff.mp hwalk
    refine ⟨w, hw, ?_⟩
    cases hobj : v.isObj with
    | true =>
      rw [if_pos rfl, isObj_of_value hvalue]
      exact deepMerge_isObj _ hobj
    | false =>
      rw [if_neg Bool.false_ne_true]
      show v.value = w.value
      rw [hvalue, deepMerge_not_obj hobj]
  · induction new using Json.induction_fields generalizing old with
    | hother new hnew =>
      intro h
      obtain ⟨w, hw, hsame⟩ := h [] new (Json.walk_nil new)
      rw [Json.walk_nil] at hw
      rw [hnew, if_neg Bool.false_ne_true, ← Option.some.inj hw] at hsame
      rw [deepMerge_not_obj hnew, hsame]
    | hobj d ih =>
      intro h
      obtain ⟨w, hw, hobj⟩ := h [] (.obj d) (Json.walk_nil _)
      rw [Json.walk_nil] at hw
      obtain rfl := Option.some.inj hw
      obtain ⟨d', rfl⟩ := Json.exists_obj hobj
      rw [Json.distinct] at hd
      rw [deepMerge_obj, Json.value, Json.value]
      congr 1
      funext k
      rw [Json.valueFields_eq, Json.valueFields_eq]
      cases hk : Dict.find d k with
      | none => rw [find_mergeFields_of_none hk]
      | some v =>
        have hwalk : (Json.obj d).walk [k] = some v := by
          rw [Json.walk_obj, hk, Option.bind_some, Json.walk_nil]
        obtain ⟨u, hu, -⟩ := h [k] v hwalk
        rw [Json.walk_obj] at hu
        obtain ⟨w, hk', -⟩ := Option.bind_eq_some_iff.mp hu
        have hvalue := ih k v hk (Json.distinct_of_find hd hk) w (h.field hk hk')
        rw [find_mergeFields hd hk, Dict.get, hk', Option.getD_some, Option.map_some,
          Option.map_some, hvalue]

theorem Changed.of_field {d d' : Dict} {k : String} {v w : Json} {path : List String}
    (hk : Dict.find d' k = some v) (h : Changed (Dict.get d k) v path w) :
    Changed (.obj d) (.obj d') (k :: path) w := by
  obtain ⟨hwalk, hobj, hne⟩ := h
  refine ⟨?_, hobj, ?_⟩
  · rw [Json.walk_obj, hk, Option.bind_some, hwalk]
  · rwa [Json.under_get] at hne

theorem diffSettings_eq_nil_iff {old new : Dict} (hd : Json.distinctFields new = true) :
    diffSettings old new = [] ↔ ¬ ∃ path v, Changed (.obj old) (.obj new) path v := by
  constructor
  · rintro h ⟨path, v, hchanged⟩
    exact not_changed_of_isEmpty (List.isEmpty_iff.mpr h) path v hchanged
  · intro hnone
    refine List.eq_nil_iff_forall_not_mem.mpr fun field hmem => ?_
    obtain hmem | ⟨k, v, path, w, hk, hchanged, -⟩ := mem_diffFields hd hmem
    · exact absurd hmem List.not_mem_nil
    · exact hnone ⟨k :: path, w, .of_field hk hchanged⟩

/-- To contain a document with leaves that Python calls equal is to contain it by value, and to
have no leaf that changes. -/
theorem contained_pyEq_iff {old new : Json} (hd : new.distinct = true) :
    Contained (fun v w => v.pyEq w = true) old new ↔
      Contained (fun v w => v.value = w.value) old new ∧ ¬ ∃ path v, Changed old new path v := by
  constructor
  · intro h
    refine ⟨fun path v hv => ?_, ?_⟩
    · obtain ⟨w, hw, hsame⟩ := h path v hv
      refine ⟨w, hw, ?_⟩
      split
      · next hobj => rwa [if_pos hobj] at hsame
      · next hobj =>
        rw [if_neg hobj] at hsame
        exact Json.value_of_pyEq (Json.distinct_of_walk hd hv) hsame
    · rintro ⟨path, v, hv, hobj, hne⟩
      obtain ⟨w, hw, hsame⟩ := h path v hv
      rw [hobj, if_neg Bool.false_ne_true] at hsame
      rw [Json.under, hw, Option.getD_some, hsame] at hne
      exact Bool.noConfusion hne
  · rintro ⟨h, hnone⟩ path v hv
    obtain ⟨w, hw, hsame⟩ := h path v hv
    refine ⟨w, hw, ?_⟩
    split
    · next hobj => rwa [if_pos hobj] at hsame
    · next hobj =>
      by_contra hne
      refine hnone ⟨path, v, hv, Bool.eq_false_iff.mpr hobj, ?_⟩
      rw [Json.under, hw, Option.getD_some]
      exact Bool.eq_false_iff.mpr hne

def Differs (old merged : Json) (path : List String) : Prop :=
  (∃ v, (old.walk path = some v ∨ merged.walk path = some v) ∧ v.isObj = false) ∧
    (old.under path).value ≠ (merged.under path).value

/-- No object of the new document takes the place of another value. -/
def NoClash (old new : Json) : Prop :=
  ∀ path d w, new.walk path = some (.obj d) → old.walk path = some w → w.isObj = true

theorem NoClash.field {d d' : Dict} (h : NoClash (.obj d) (.obj d')) {k : String} {v w : Json}
    (hk' : Dict.find d' k = some v) (hk : Dict.find d k = some w) : NoClash w v := by
  intro path e u he hu
  refine h (k :: path) e u ?_ ?_
  · rw [Json.walk_obj, hk', Option.bind_some, he]
  · rw [Json.walk_obj, hk, Option.bind_some, hu]

theorem changed_leaf {old new : Json} (hd : new.distinct = true) (hnew : new.isObj = false)
    {path : List String} (hne : (old.under path).value ≠ (new.under path).value) :
    Changed old new [] new := by
  refine ⟨Json.walk_nil new, hnew, ?_⟩
  rw [Json.under_nil]
  by_contra heq
  have hvalue := Json.value_of_pyEq hd (Bool.not_eq_false _ ▸ heq)
  exact hne (value_under hvalue.symm path)

theorem changed_new {u v : Json} (hd : u.distinct = true) {path : List String}
    (hv : u.walk path = some v) (hobj : v.isObj = false)
    (hne : (Json.null.under path).value ≠ (u.under path).value) : Changed .null u path v := by
  refine ⟨hv, hobj, ?_⟩
  by_contra heq
  have hvalue := Json.value_of_pyEq (Json.distinct_of_walk hd hv) (Bool.not_eq_false _ ▸ heq)
  rw [← hvalue, Json.under, hv, Option.getD_some] at hne
  exact hne rfl

/-- Without such objects, a leaf on which the merge differs is at or below a change. -/
theorem changed_above {new : Json} (hd : new.distinct = true) {old : Json}
    (hclash : NoClash old new) {path : List String}
    (h : Differs old (deepMerge old new) path) :
    ∃ above v, above <+: path ∧ Changed old new above v := by
  induction path generalizing old new with
  | nil =>
    obtain ⟨⟨v, hleaf, hobj⟩, hne⟩ := h
    cases hnew : new.isObj with
    | false =>
      rw [deepMerge_not_obj hnew] at hne
      exact ⟨[], new, List.nil_prefix, changed_leaf hd hnew hne⟩
    | true =>
      obtain ⟨d, rfl⟩ := Json.exists_obj hnew
      have hold : old.isObj = true := hclash [] d old (Json.walk_nil _) (Json.walk_nil _)
      rw [Json.walk_nil, Json.walk_nil] at hleaf
      rcases hleaf with hleaf | hleaf
      · rw [← Option.some.inj hleaf, hold] at hobj
        exact Bool.noConfusion hobj
      · rw [← Option.some.inj hleaf, deepMerge_isObj old rfl] at hobj
        exact Bool.noConfusion hobj
  | cons k path ih =>
    cases hnew : new.isObj with
    | false =>
      rw [deepMerge_not_obj hnew] at h
      exact ⟨[], new, List.nil_prefix, changed_leaf hd hnew h.2⟩
    | true =>
      obtain ⟨d, rfl⟩ := Json.exists_obj hnew
      obtain ⟨d', rfl⟩ := Json.exists_obj (hclash [] d old (Json.walk_nil _) (Json.walk_nil _))
      rw [Json.distinct] at hd
      obtain ⟨⟨v, hleaf, hobj⟩, hne⟩ := h
      rw [deepMerge_obj, ← Json.under_get, ← Json.under_get] at hne
      rw [deepMerge_obj, Json.walk_obj, Json.walk_obj] at hleaf
      cases hk : Dict.find d k with
      | none =>
        have hsame : Dict.get (mergeFields d' d) k = Dict.get d' k := by
          rw [Dict.get, Dict.get, find_mergeFields_of_none hk]
        exact absurd (by rw [hsame]) hne
      | some u =>
        have hdu : u.distinct = true := Json.distinct_of_find hd hk
        have hget : Dict.get (mergeFields d' d) k = deepMerge (Dict.get d' k) u := by
          rw [Dict.get, find_mergeFields hd hk, Option.getD_some]
        rw [hget] at hne
        rw [find_mergeFields hd hk, Option.bind_some] at hleaf
        cases hk' : Dict.find d' k with
        | none =>
          have hnull : Dict.get d' k = .null := by rw [Dict.get, hk', Option.getD_none]
          rw [hnull, deepMerge_of_not_obj rfl] at hne
          rw [hk', hnull, deepMerge_of_not_obj rfl, Option.bind_none] at hleaf
          have hv : u.walk path = some v := hleaf.resolve_left (by simp)
          refine ⟨k :: path, v, List.prefix_refl _, .of_field hk ?_⟩
          rw [hnull]
          exact changed_new hdu hv hobj hne
        | some w =>
          have hold : Dict.get d' k = w := by rw [Dict.get, hk', Option.getD_some]
          rw [hold] at hne
          rw [hk', Option.bind_some, hold] at hleaf
          obtain ⟨above, v', hprefix, hchanged⟩ :=
            ih hdu (hclash.field hk hk') ⟨⟨v, hleaf, hobj⟩, hne⟩
          refine ⟨k :: above, v', List.cons_prefix_cons.mpr ⟨rfl, hprefix⟩, .of_field hk ?_⟩
          rwa [hold]

/-- The diff of two documents records their merge. -/
structure Records (old new : Dict) : Prop where
  empty : diffSettings old new = [] ↔
    (deepMerge (.obj old) (.obj new)).value = (Json.obj old).value
  entries : ∀ text entry, Dict.find (diffSettings old new) text = some entry →
    ∃ path v, Dotless path ∧ text = dotted path ∧ entry = .arr [(Json.obj old).under path, v] ∧
      (deepMerge (.obj old) (.obj new)).walk path = some v ∧ v.isObj = false
  covers : ∀ path, Differs (.obj old) (deepMerge (.obj old) (.obj new)) path →
    ∃ k above, k :: above <+: path ∧ Dict.has (diffSettings old new) (dotted (k :: above)) = true
  again : deepMerge (deepMerge (.obj old) (.obj new)) (.obj new) =
    deepMerge (.obj old) (.obj new)

/-- No object takes the place of another value; and some leaf changes, or nothing does. -/
structure Recordable (old new : Json) : Prop where
  noClash : NoClash old new
  changes : Contained (fun v w => v.pyEq w = true) old new ∨
    (∃ path v, Changed old new path v) ∧ ¬ Contained (fun v w => v.value = w.value) old new

theorem empty_iff {old new : Dict} (hd : Json.distinctFields new = true) :
    (diffSettings old new = [] ↔
        (deepMerge (.obj old) (.obj new)).value = (Json.obj old).value) ↔
      (Contained (fun v w => v.pyEq w = true) (.obj old) (.obj new) ∨
        (∃ path v, Changed (.obj old) (.obj new) path v) ∧
          ¬ Contained (fun v w => v.value = w.value) (.obj old) (.obj new)) := by
  have hdo : (Json.obj new).distinct = true := by rwa [Json.distinct]
  rw [diffSettings_eq_nil_iff hd, value_merged_iff hdo, contained_pyEq_iff hdo]
  by_cases hchanged : ∃ path v, Changed (.obj old) (.obj new) path v
  · simp only [hchanged, not_true, false_iff, and_false, false_or, true_and]
  · simp only [hchanged, not_false_eq_true, true_iff, and_true, false_and, or_false]

theorem entry_of_find {old new : Dict} (hd : Json.distinctFields new = true)
    (hdots : DotlessKeys (.obj new)) {text : String} {entry : Json}
    (h : Dict.find (diffSettings old new) text = some entry) :
    ∃ path v, Dotless path ∧ text = dotted path ∧ entry = .arr [(Json.obj old).under path, v] ∧
      (deepMerge (.obj old) (.obj new)).walk path = some v ∧ v.isObj = false := by
  have hdo : (Json.obj new).distinct = true := by rwa [Json.distinct]
  obtain hmem | ⟨k, u, path, v, hk, ⟨hwalk, hobj, -⟩, heq⟩ :=
    mem_diffFields hd (Dict.mem_of_find h)
  · exact absurd hmem List.not_mem_nil
  · obtain ⟨rfl, rfl⟩ := Prod.mk.inj heq
    have hfull : (Json.obj new).walk (k :: path) = some v := by
      rw [Json.walk_obj, hk, Option.bind_some, hwalk]
    refine ⟨k :: path, v, hdots _ v hfull, ?_, ?_, ?_, hobj⟩
    · rw [String.empty_append, dotted]
    · rw [Json.under_get]
    · rw [walk_merged hdo hfull, deepMerge_not_obj hobj]

theorem noClash_of_covers {old new : Dict} (hd : Json.distinctFields new = true)
    (hdots : DotlessKeys (.obj new))
    (h : ∀ path, Differs (.obj old) (deepMerge (.obj old) (.obj new)) path →
      ∃ k above, k :: above <+: path ∧
        Dict.has (diffSettings old new) (dotted (k :: above)) = true) :
    NoClash (.obj old) (.obj new) := by
  -- An object in the place of another value hides the leaf that was there.
  have hdo : (Json.obj new).distinct = true := by rwa [Json.distinct]
  intro path d w hnew hold
  by_contra hobj
  have hw : w.isObj = false := Bool.eq_false_iff.mpr hobj
  have hdiffers : Differs (.obj old) (deepMerge (.obj old) (.obj new)) path := by
    refine ⟨⟨w, .inl hold, hw⟩, fun hvalue => ?_⟩
    rw [Json.under, hold, Option.getD_some, Json.under, walk_merged hdo hnew,
      Option.getD_some] at hvalue
    rw [isObj_of_value hvalue, deepMerge_isObj _ rfl] at hw
    exact Bool.noConfusion hw
  obtain ⟨k, above, ⟨rest, rfl⟩, hhas⟩ := h path hdiffers
  have hdotless : Dotless (k :: above) := fun l hl =>
    hdots _ _ hnew l (List.mem_append_left rest hl)
  obtain ⟨entry, hentry⟩ := Option.isSome_iff_exists.mp hhas
  obtain ⟨v, ⟨hv, hleaf, -⟩, -⟩ := changed_of_find hd hdots hdotless hentry
  rw [Json.walk_append, hv, Option.bind_some] at hnew
  cases rest with
  | nil =>
    rw [Json.walk_nil] at hnew
    rw [Option.some.inj hnew] at hleaf
    exact Bool.noConfusion hleaf
  | cons l rest =>
    rw [Json.walk_of_not_obj hleaf] at hnew
    exact absurd hnew (by simp)

/-- A diff records the merge exactly where no object takes the place of another value and either
some leaf changes or the old document contains the new one. -/
theorem records_iff (old new : Dict) (hd : Json.distinctFields new = true)
    (hdots : DotlessKeys (.obj new)) :
    Records old new ↔ Recordable (.obj old) (.obj new) := by
  have hdo : (Json.obj new).distinct = true := by rwa [Json.distinct]
  constructor
  · intro h
    exact ⟨noClash_of_covers hd hdots h.covers, (empty_iff hd).mp h.empty⟩
  · intro h
    refine ⟨(empty_iff hd).mpr h.changes, fun text entry hentry => entry_of_find hd hdots hentry,
      fun path hdiffers => ?_, deepMerge_again _ hdo _⟩
    obtain ⟨above, v, hprefix, hchanged⟩ := changed_above hdo h.noClash hdiffers
    have hhas := has_of_changed hchanged
    cases above with
    | nil =>
      obtain ⟨hwalk, hobj, -⟩ := hchanged
      rw [Json.walk_nil] at hwalk
      rw [← Option.some.inj hwalk] at hobj
      exact Bool.noConfusion hobj
    | cons k above => exact ⟨k, above, hprefix, hhas⟩

theorem dotlessKeys_flat {d : Dict}
    (h : ∀ field ∈ d, '.' ∉ field.1.toList ∧ field.2.isObj = false) : DotlessKeys (.obj d) := by
  intro path v hv
  cases path with
  | nil => exact fun k hk => absurd hk List.not_mem_nil
  | cons k path =>
    rw [Json.walk_obj] at hv
    obtain ⟨w, hk, hv⟩ := Option.bind_eq_some_iff.mp hv
    obtain ⟨hdot, hobj⟩ := h (k, w) (Dict.mem_of_find hk)
    cases path with
    | nil =>
      intro l hl
      rw [List.mem_singleton.mp hl]
      exact hdot
    | cons l path =>
      rw [Json.walk_of_not_obj hobj] at hv
      exact absurd hv (by simp)

theorem records_iff_sample :
    Records [("a", .int 1)] [("a", .int 2)] ↔
      Recordable (.obj [("a", .int 1)]) (.obj [("a", .int 2)]) := by
  refine records_iff _ _ (by decide) (dotlessKeys_flat fun field hfield => ?_)
  rw [List.mem_singleton.mp hfield]
  exact ⟨by decide, rfl⟩

/-- An empty object in the place of a text: nothing is recorded. -/
theorem not_records_emptied : ¬ Records [("a", .str "x")] [("a", .obj [])] := by
  intro h
  have hvalue := h.empty.mp rfl
  have hunder := value_under hvalue ["a"]
  exact absurd (isObj_of_value hunder) (by decide)

end Memclaw.Settings

import Memclaw.Settings.StoreDefs

/-! What a merge, a diff and an upsert do to the leaves of settings. -/

namespace Memclaw.Settings

open Memclaw.Lib

theorem deepMerge_not_obj {new : Json} (h : new.isObj = false) (old : Json) :
    deepMerge old new = new := by
  cases new with
  | obj d => exact Bool.noConfusion h
  | _ => rw [deepMerge.eq_def]

theorem deepMerge_obj (old new : Dict) :
    deepMerge (.obj old) (.obj new) = .obj (mergeFields old new) := by
  rw [deepMerge]

theorem deepMerge_of_not_obj {old : Json} (h : old.isObj = false) (new : Json) :
    deepMerge old new = new := by
  cases new with
  | obj d =>
    cases old with
    | obj d' => exact Bool.noConfusion h
    | _ => rw [deepMerge.eq_def]
  | _ => rw [deepMerge.eq_def]

theorem find_mergeFields_of_none {new : Dict} {key : String} (h : Dict.find new key = none)
    (out : Dict) : Dict.find (mergeFields out new) key = Dict.find out key := by
  induction new generalizing out with
  | nil => rw [mergeFields]
  | cons field new ih =>
    obtain ⟨k, v⟩ := field
    rw [Dict.find] at h
    split at h
    · exact absurd h (by simp)
    · rename_i hk
      rw [mergeFields, ih h, Dict.find_set, if_neg hk]

theorem find_mergeFields {new : Dict} (hd : Json.distinctFields new = true) {key : String}
    {v : Json} (h : Dict.find new key = some v) (out : Dict) :
    Dict.find (mergeFields out new) key = some (deepMerge (Dict.get out key) v) := by
  induction new generalizing out with
  | nil => exact absurd h (by simp [Dict.find])
  | cons field new ih =>
    obtain ⟨k, w⟩ := field
    obtain ⟨hk, -, hd⟩ := Json.distinctFields_cons.mp hd
    rw [Dict.find] at h
    rw [mergeFields]
    by_cases hkey : k = key
    · subst hkey
      rw [if_pos rfl] at h
      obtain rfl := Option.some.inj h
      rw [find_mergeFields_of_none hk, Dict.find_set, if_pos rfl]
    · rw [if_neg hkey] at h
      rw [ih hd h, Dict.get_set, if_neg hkey]

/-- A merge takes from the new document the paths it speaks of, and from the old one all
others. -/
theorem leaf_deepMerge {new : Json} (hd : new.distinct = true) (old : Json)
    (path : List String) :
    (deepMerge old new).leaf path = if new.touches path then new.leaf path else old.leaf path := by
  induction path generalizing old new with
  | nil =>
    have htouch : new.touches [] = true := by cases new <;> rfl
    rw [htouch, if_pos rfl, Json.leaf_nil, Json.leaf_nil]
    cases new with
    | obj d =>
      cases old with
      | obj d' => rw [deepMerge_obj, Json.scalar_obj, Json.scalar_obj]
      | _ => rw [deepMerge_of_not_obj rfl]
    | _ => rw [deepMerge_not_obj rfl]
  | cons k path ih =>
    cases new with
    | obj d =>
      rw [Json.distinct] at hd
      by_cases hold : old.isObj = true
      · cases old with
        | obj d' =>
          rw [deepMerge_obj, Json.leaf_obj, Json.leaf_obj, Json.leaf_obj, Json.touches]
          cases hk : Dict.find d k with
          | none =>
            rw [find_mergeFields_of_none hk]
            rfl
          | some v =>
            have hv := ih (Json.distinct_of_find hd hk) (Dict.get d' k)
            rw [find_mergeFields hd hk, Option.any_some, Option.bind_some, Option.bind_some, hv]
            -- a key that the old object lacks is null for the merge
            cases hk' : Dict.find d' k with
            | some w => rw [Dict.get, hk', Option.getD_some, Option.bind_some]
            | none =>
              have hnull : Json.leaf .null path = none := by
                cases path with
                | nil => rfl
                | cons k path => exact Json.leaf_of_not_obj rfl k path
              rw [Dict.get, hk', Option.getD_none, hnull, Option.bind_none]
        | _ => exact Bool.noConfusion hold
      · have hold := Bool.eq_false_iff.mpr hold
        rw [deepMerge_of_not_obj hold, Json.leaf_of_not_obj hold]
        cases htouch : (Json.obj d).touches (k :: path) with
        | true => rw [if_pos rfl]
        | false => rw [if_neg Bool.false_ne_true, Json.leaf_of_not_touches htouch]
    | _ =>
      rw [deepMerge_not_obj rfl]
      rfl

/-- What stands at a path of a merge stands there in one of the documents, or is an object
where both have one. -/
theorem walk_deepMerge {new : Json} (hd : new.distinct = true) {old v : Json} {path : List String}
    (h : (deepMerge old new).walk path = some v) :
    new.walk path = some v ∨ old.walk path = some v ∨
      (v.isObj = true ∧ ∃ d, new.walk path = some (.obj d)) := by
  induction path generalizing old new with
  | nil =>
    rw [Json.walk_nil] at h
    obtain rfl := Option.some.inj h
    cases new with
    | obj d =>
      cases old with
      | obj d' =>
        rw [deepMerge_obj]
        exact .inr (.inr ⟨rfl, d, rfl⟩)
      | _ => exact .inl (by rw [deepMerge_of_not_obj rfl, Json.walk_nil])
    | _ => exact .inl (by rw [deepMerge_not_obj rfl, Json.walk_nil])
  | cons k path ih =>
    cases new with
    | obj d =>
      cases old with
      | obj d' =>
        rw [Json.distinct] at hd
        rw [deepMerge_obj, Json.walk_obj] at h
        rw [Json.walk_obj, Json.walk_obj]
        cases hk : Dict.find d k with
        | none =>
          rw [find_mergeFields_of_none hk] at h
          exact .inr (.inl h)
        | some w =>
          rw [find_mergeFields hd hk, Option.bind_some] at h
          rw [Option.bind_some]
          cases hk' : Dict.find d' k with
          | none =>
            rw [Dict.get, hk', Option.getD_none, deepMerge_of_not_obj rfl] at h
            exact .inl h
          | some u =>
            rw [Dict.get, hk', Option.getD_some] at h
            exact ih (Json.distinct_of_find hd hk) h
      | _ =>
        rw [deepMerge_of_not_obj rfl] at h
        exact .inl h
    | _ =>
      rw [deepMerge_not_obj rfl] at h
      exact .inl h

def dots : List String → String
  | [] => ""
  | k :: path => "." ++ k ++ dots path

def dotted : List String → String
  | [] => ""
  | k :: path => k ++ dots path

/-- A leaf of the new document that differs from what the old one has in its place. -/
def Changed (old new : Json) (path : List String) (v : Json) : Prop :=
  new.walk path = some v ∧ v.isObj = false ∧ v.pyEq (old.under path) = false

theorem asDict_under (old : Json) (k : String) (path : List String) :
    (Dict.get (old.asDict.getD []) k).under path = old.under (k :: path) := by
  cases old with
  | obj d => exact Json.under_get d k path
  | _ => cases path <;> rfl

theorem mem_diffLeaf {v : Json} (hv : v.isObj = false) {out : Dict} {start : String} {old : Json}
    {field : String × Json}
    (h : field ∈ if v.pyEq old then out else Dict.set out start (.arr [old, v])) :
    field ∈ out ∨ ∃ path w, Changed old v path w ∧
      field = (start ++ dots path, .arr [old.under path, w]) := by
  split at h
  · exact .inl h
  · rename_i hne
    refine (Dict.mem_set h).imp_right fun heq => ⟨[], v, ⟨Json.walk_nil v, hv, ?_⟩, ?_⟩
    · rw [Json.under_nil]
      exact Bool.eq_false_iff.mpr hne
    · rw [heq, Json.under_nil, dots, String.append_empty]

mutual

theorem mem_diffValue : ∀ {v : Json}, v.distinct = true → ∀ {out : Dict} {start : String}
    {old : Json} {field : String × Json}, field ∈ diffValue out start old v →
      field ∈ out ∨ ∃ path w, Changed old v path w ∧
        field = (start ++ dots path, .arr [old.under path, w])
  | .obj new, hd, out, start, old, field, h => by
    rw [diffValue] at h
    rw [Json.distinct] at hd
    obtain h | h := Dict.mem_update h
    · exact .inl h
    · obtain h | ⟨k, v, path, w, hk, hchanged, heq⟩ := mem_diffFields hd h
      · exact absurd h List.not_mem_nil
      · obtain ⟨hwalk, hobj, hne⟩ := hchanged
        rw [asDict_under] at hne heq
        refine .inr ⟨k :: path, w, ⟨?_, hobj, hne⟩, ?_⟩
        · rw [Json.walk_obj, hk, Option.bind_some, hwalk]
        · rw [heq, dots]
          simp only [String.append_assoc]
  | .null, _, _, _, _, _, h => mem_diffLeaf rfl (by rwa [diffValue.eq_def] at h)
  | .bool _, _, _, _, _, _, h => mem_diffLeaf rfl (by rwa [diffValue.eq_def] at h)
  | .int _, _, _, _, _, _, h => mem_diffLeaf rfl (by rwa [diffValue.eq_def] at h)
  | .float _, _, _, _, _, _, h => mem_diffLeaf rfl (by rwa [diffValue.eq_def] at h)
  | .str _, _, _, _, _, _, h => mem_diffLeaf rfl (by rwa [diffValue.eq_def] at h)
  | .arr _, _, _, _, _, _, h => mem_diffLeaf rfl (by rwa [diffValue.eq_def] at h)

theorem mem_diffFields : ∀ {new : Dict}, Json.distinctFields new = true → ∀ {out : Dict}
    {start : String} {old : Dict} {field : String × Json}, field ∈ diffFields out start old new →
      field ∈ out ∨ ∃ k v path w, Dict.find new k = some v ∧
        Changed (Dict.get old k) v path w ∧
          field = (start ++ k ++ dots path, .arr [(Dict.get old k).under path, w])
  | [], _, _, _, _, _, h => .inl h
  | (k, v) :: new, hd, out, start, old, field, h => by
    obtain ⟨hk, hv, hd⟩ := Json.distinctFields_cons.mp hd
    rw [diffFields] at h
    obtain h | ⟨l, u, path, w, hl, hchanged, heq⟩ := mem_diffFields hd h
    · obtain h | ⟨path, w, hchanged, heq⟩ := mem_diffValue hv h
      · exact .inl h
      · exact .inr ⟨k, v, path, w, by rw [Dict.find, if_pos rfl], hchanged, heq⟩
    · have hne : k ≠ l := by
        rintro rfl
        rw [hk] at hl
        exact absurd hl (by simp)
      exact .inr ⟨l, u, path, w, by rw [Dict.find, if_neg hne, hl], hchanged, heq⟩

end

theorem diffValue_not_obj {v : Json} (hv : v.isObj = false) (out : Dict) (start : String)
    (old : Json) : diffValue out start old v =
      if v.pyEq old then out else Dict.set out start (.arr [old, v]) := by
  cases v with
  | obj d => exact Bool.noConfusion hv
  | _ => rw [diffValue.eq_def]

theorem has_diffValue_of_has {out : Dict} {key : String} (h : Dict.has out key = true)
    (start : String) (old v : Json) : Dict.has (diffValue out start old v) key = true := by
  cases hv : v.isObj with
  | true =>
    cases v with
    | obj new => rw [diffValue, Dict.has_update, h, Bool.or_true]
    | _ => exact Bool.noConfusion hv
  | false =>
    rw [diffValue_not_obj hv]
    split
    · exact h
    · rw [Dict.has_set, h, Bool.or_true]

theorem has_diffFields_of_has {out : Dict} {key : String} (h : Dict.has out key = true)
    (start : String) (old new : Dict) : Dict.has (diffFields out start old new) key = true := by
  induction new generalizing out with
  | nil => exact h
  | cons field new ih =>
    obtain ⟨k, v⟩ := field
    rw [diffFields]
    exact ih (has_diffValue_of_has h (start ++ k) (Dict.get old k) v)

theorem has_diffFields_of_value {start : String} {old new : Dict} {key k : String} {v : Json}
    (hk : Dict.find new k = some v)
    (h : ∀ out, Dict.has (diffValue out (start ++ k) (Dict.get old k) v) key = true)
    (out : Dict) : Dict.has (diffFields out start old new) key = true := by
  -- The walk of the diff meets the values of the new document one after another.
  induction new generalizing out with
  | nil => exact absurd hk (by simp [Dict.find])
  | cons field new ih =>
    obtain ⟨l, w⟩ := field
    rw [diffFields]
    rw [Dict.find] at hk
    split at hk
    · rename_i hl
      obtain rfl := Option.some.inj hk
      subst hl
      exact has_diffFields_of_has (h out) start old new
    · exact ih hk (diffValue out (start ++ l) (Dict.get old l) w)

theorem has_diffValue {old v w : Json} {path : List String} (h : Changed old v path w)
    (out : Dict) (start : String) :
    Dict.has (diffValue out start old v) (start ++ dots path) = true := by
  induction path generalizing old v out start with
  | nil =>
    obtain ⟨hwalk, hobj, hne⟩ := h
    rw [Json.walk_nil] at hwalk
    obtain rfl := Option.some.inj hwalk
    rw [Json.under_nil] at hne
    rw [diffValue_not_obj hobj, hne, if_neg Bool.false_ne_true, dots, String.append_empty,
      Dict.has_set, decide_eq_true rfl, Bool.true_or]
  | cons k path ih =>
    obtain ⟨hwalk, hobj, hne⟩ := h
    cases v with
    | obj new =>
      rw [Json.walk_obj] at hwalk
      obtain ⟨u, hk, hu⟩ := Option.bind_eq_some_iff.mp hwalk
      rw [← asDict_under] at hne
      have hinner : ∀ out, Dict.has (diffValue out (start ++ "." ++ k)
          (Dict.get (old.asDict.getD []) k) u) (start ++ "." ++ k ++ dots path) = true :=
        fun out => ih ⟨hu, hobj, hne⟩ out (start ++ "." ++ k)
      have htext : start ++ dots (k :: path) = start ++ "." ++ k ++ dots path := by
        rw [dots]
        simp only [String.append_assoc]
      rw [diffValue, Dict.has_update, htext, has_diffFields_of_value hk hinner, Bool.true_or]
    | _ => exact absurd hwalk (by simp [Json.walk])

def Dotless (path : List String) : Prop := ∀ k ∈ path, '.' ∉ k.toList

theorem dotted_chars_inj {cs ds : List Char} {r s : List String} (hc : '.' ∉ cs)
    (hd : '.' ∉ ds) (h : cs ++ (dots r).toList = ds ++ (dots s).toList) :
    cs = ds ∧ (dots r).toList = (dots s).toList := by
  have hdots : ∀ r : List String, ∀ c ∈ (dots r).toList.head?, c = '.' := by
    intro r c hc
    cases r with
    | nil => exact absurd hc (by simp [dots])
    | cons k path => simpa [dots, eq_comm] using hc
  induction cs generalizing ds with
  | nil =>
    cases ds with
    | nil => exact ⟨rfl, h⟩
    | cons d ds =>
      have hhead := hdots r d (by rw [List.nil_append] at h; rw [h]; rfl)
      exact absurd (hhead ▸ List.mem_cons_self) hd
  | cons c cs ih =>
    cases ds with
    | nil =>
      have hhead := hdots s c (by rw [List.nil_append] at h; rw [← h]; rfl)
      exact absurd (hhead ▸ List.mem_cons_self) hc
    | cons d ds =>
      obtain ⟨hhead, htail⟩ := List.cons.inj h
      obtain ⟨heq, hrest⟩ := ih (fun hmem => hc (List.mem_cons_of_mem _ hmem))
        (fun hmem => hd (List.mem_cons_of_mem _ hmem)) htail
      exact ⟨by rw [hhead, heq], hrest⟩

theorem dots_inj {r s : List String} (hr : Dotless r) (hs : Dotless s) (h : dots r = dots s) :
    r = s := by
  induction r generalizing s with
  | nil =>
    cases s with
    | nil => rfl
    | cons k s =>
      have hchars := congrArg String.toList h
      exact absurd hchars (by simp [dots])
  | cons k r ih =>
    cases s with
    | nil =>
      have hchars := congrArg String.toList h
      exact absurd hchars (by simp [dots])
    | cons l s =>
      have hchars := congrArg String.toList h
      simp only [dots, String.toList_append, List.append_assoc,
        List.append_cancel_left_eq] at hchars
      obtain ⟨hkl, hrest⟩ :=
        dotted_chars_inj (hr k List.mem_cons_self) (hs l List.mem_cons_self) hchars
      obtain rfl := String.toList_inj.mp hkl
      have htail := ih (fun k hk => hr k (List.mem_cons_of_mem _ hk))
        (fun k hk => hs k (List.mem_cons_of_mem _ hk)) (String.toList_inj.mp hrest)
      rw [htail]

theorem dotted_inj {k l : String} {r s : List String} (hr : Dotless (k :: r))
    (hs : Dotless (l :: s)) (h : dotted (k :: r) = dotted (l :: s)) : k :: r = l :: s := by
  have htext : dots (k :: r) = dots (l :: s) := by
    rw [dotted, dotted] at h
    rw [dots, dots, String.append_assoc, String.append_assoc, h]
  exact dots_inj hr hs htext

/-- Every key of the document is free of dots, so that a path can be read off its text. -/
def DotlessKeys (j : Json) : Prop := ∀ path v, j.walk path = some v → Dotless path

theorem changed_of_find {old new : Dict} (hd : Json.distinctFields new = true)
    (hdots : DotlessKeys (.obj new)) {k : String} {path : List String}
    (hpath : Dotless (k :: path)) {entry : Json}
    (h : Dict.find (diffSettings old new) (dotted (k :: path)) = some entry) :
    ∃ v, Changed (.obj old) (.obj new) (k :: path) v ∧
      entry = .arr [(Json.obj old).under (k :: path), v] := by
  obtain h | ⟨l, u, tail, w, hl, hchanged, heq⟩ := mem_diffFields hd (Dict.mem_of_find h)
  · exact absurd h List.not_mem_nil
  · obtain ⟨hwalk, hobj, hne⟩ := hchanged
    obtain ⟨htext, hentry⟩ := Prod.mk.inj heq
    rw [Json.under_get] at hne hentry
    have hfull : (Json.obj new).walk (l :: tail) = some w := by
      rw [Json.walk_obj, hl, Option.bind_some, hwalk]
    rw [String.empty_append] at htext
    obtain ⟨rfl, rfl⟩ := List.cons.inj (dotted_inj hpath (hdots _ w hfull) htext)
    exact ⟨w, ⟨hfull, hobj, hne⟩, hentry⟩

theorem has_of_changed {old new : Dict} {path : List String} {v : Json}
    (h : Changed (.obj old) (.obj new) path v) :
    Dict.has (diffSettings old new) (dotted path) = true := by
  cases path with
  | nil =>
    obtain ⟨hwalk, hobj, -⟩ := h
    rw [Json.walk_nil] at hwalk
    obtain rfl := Option.some.inj hwalk
    exact Bool.noConfusion hobj
  | cons k path =>
    obtain ⟨hwalk, hobj, hne⟩ := h
    rw [Json.walk_obj] at hwalk
    obtain ⟨u, hk, hu⟩ := Option.bind_eq_some_iff.mp hwalk
    rw [← Json.under_get] at hne
    have htext : dotted (k :: path) = "" ++ k ++ dots path := by
      rw [dotted, String.empty_append]
    rw [diffSettings, htext]
    exact has_diffFields_of_value hk (fun out => has_diffValue ⟨hu, hobj, hne⟩ out ("" ++ k)) []

theorem not_changed_of_isEmpty {old new : Dict} (h : (diffSettings old new).isEmpty = true)
    (path : List String) (v : Json) : ¬ Changed (.obj old) (.obj new) path v := by
  intro hchanged
  have hhas := has_of_changed hchanged
  rw [List.isEmpty_iff.mp h] at hhas
  exact Bool.noConfusion hhas

theorem scalar_of_not_changed {old new : Json} (hd : new.distinct = true) {path : List String}
    {v : Json} (hv : new.walk path = some v) (hobj : v.isObj = false)
    (h : ¬ Changed old new path v) : v.scalar = old.leaf path := by
  have heq : v.pyEq (old.under path) = true := by
    by_contra hne
    exact h ⟨hv, hobj, Bool.eq_false_iff.mpr hne⟩
  have hvalue := Json.value_of_pyEq (Json.distinct_of_walk hd hv) heq
  rw [Json.scalar, hvalue, Json.leaf, Json.under]
  cases old.walk path with
  | none => rfl
  | some w => rfl

theorem find_jsonbConcat (stored excluded : Dict) (key : String) :
    Dict.find (jsonbConcat stored excluded) key =
      (Dict.find excluded key).or (Dict.find stored key) := by
  induction excluded with
  | nil => rfl
  | cons field excluded ih =>
    obtain ⟨k, v⟩ := field
    rw [jsonbConcat, List.foldr_cons, Json.find_insertJsonb, Dict.find_pop, Dict.find]
    by_cases hk : k = key
    · rw [if_pos hk, if_pos hk]
      rfl
    · rw [if_neg hk, if_neg hk, if_neg hk]
      exact ih

theorem mem_jsonbConcat {stored excluded : Dict} {field : String × Json}
    (h : field ∈ jsonbConcat stored excluded) : field ∈ stored ∨ field ∈ excluded := by
  induction excluded with
  | nil => exact .inl h
  | cons other excluded ih =>
    rw [jsonbConcat, List.foldr_cons] at h
    obtain rfl | h := List.mem_cons.mp ((Json.insertJsonb_perm _ _).mem_iff.mp h)
    · exact .inr List.mem_cons_self
    · exact (ih (Dict.mem_of_mem_pop h)).imp_right (List.mem_cons_of_mem _)

variable {floats : JsonbFloats}

def Kept (floats : JsonbFloats) (d : Dict) : Prop :=
  ∀ x ∈ Json.floatLeavesFields d, floats.Keeps x

theorem Kept.find {d : Dict} (h : Kept floats d) {key : String} {v : Json}
    (hv : Dict.find d key = some v) : ∀ x ∈ v.floatLeaves, floats.Keeps x :=
  fun x hx => h x (Json.mem_floatLeavesFields.mpr ⟨(key, v), Dict.mem_of_find hv, hx⟩)

mutual

theorem floatLeaves_deepMerge : ∀ {new old : Json} {x : PyFloat},
    x ∈ (deepMerge old new).floatLeaves → x ∈ old.floatLeaves ∨ x ∈ new.floatLeaves
  | .obj new, old, x, h => by
    cases old with
    | obj d =>
      rw [deepMerge_obj, Json.floatLeaves] at h
      rw [Json.floatLeaves, Json.floatLeaves]
      exact floatLeaves_mergeFields h
    | _ =>
      rw [deepMerge_of_not_obj rfl] at h
      exact .inr h
  | .null, _, _, h => .inr (by rwa [deepMerge_not_obj rfl] at h)
  | .bool _, _, _, h => .inr (by rwa [deepMerge_not_obj rfl] at h)
  | .int _, _, _, h => .inr (by rwa [deepMerge_not_obj rfl] at h)
  | .float _, _, _, h => .inr (by rwa [deepMerge_not_obj rfl] at h)
  | .str _, _, _, h => .inr (by rwa [deepMerge_not_obj rfl] at h)
  | .arr _, _, _, h => .inr (by rwa [deepMerge_not_obj rfl] at h)

theorem floatLeaves_mergeFields : ∀ {new out : Dict} {x : PyFloat},
    x ∈ Json.floatLeavesFields (mergeFields out new) →
      x ∈ Json.floatLeavesFields out ∨ x ∈ Json.floatLeavesFields new
  | [], _, _, h => .inl h
  | (k, v) :: new, out, x, h => by
    rw [mergeFields] at h
    rw [Json.floatLeavesFields, List.mem_append]
    obtain h | h := floatLeaves_mergeFields h
    · obtain ⟨field, hmem, hx⟩ := Json.mem_floatLeavesFields.mp h
      obtain hmem | rfl := Dict.mem_set hmem
      · exact .inl (Json.mem_floatLeavesFields.mpr ⟨field, hmem, hx⟩)
      · obtain hx | hx := floatLeaves_deepMerge hx
        · refine .inl (Json.mem_floatLeavesFields.mpr ?_)
          cases hk : Dict.find out k with
          | none =>
            rw [Dict.get, hk] at hx
            exact absurd hx List.not_mem_nil
          | some w =>
            rw [Dict.get, hk] at hx
            exact ⟨(k, w), Dict.mem_of_find hk, hx⟩
        · exact .inr (.inl hx)
    · exact .inr (.inr h)

end

theorem Kept.mergeFields {current new : Dict} (hcurrent : Kept floats current)
    (hnew : Kept floats new) : Kept floats (mergeFields current new) :=
  fun x hx => (floatLeaves_mergeFields hx).elim (hcurrent x) (hnew x)

theorem Kept.upsert {row : Option Dict} {excluded : Dict} (hrow : Kept floats (row.getD []))
    (h : Kept floats excluded) : Kept floats (upsert row (Json.jsonbFields floats excluded)) := by
  have hexcluded : Kept floats (Json.jsonbFields floats excluded) := Json.keeps_jsonbFields h
  cases row with
  | none => exact hexcluded
  | some stored =>
    intro x hx
    obtain ⟨field, hmem, hx⟩ := Json.mem_floatLeavesFields.mp hx
    obtain hmem | hmem := mem_jsonbConcat hmem
    · exact hrow x (Json.mem_floatLeavesFields.mpr ⟨field, hmem, hx⟩)
    · exact hexcluded x (Json.mem_floatLeavesFields.mpr ⟨field, hmem, hx⟩)

/-- An upsert takes whole sections: those of the excluded row, and the others as stored. -/
theorem leaf_upsert {excluded : Dict} (h : Kept floats excluded) (row : Option Dict) (k : String)
    (path : List String) :
    (Json.obj (upsert row (Json.jsonbFields floats excluded))).leaf (k :: path) =
      if Dict.has excluded k then (Json.obj excluded).leaf (k :: path)
      else (Json.obj (row.getD [])).leaf (k :: path) := by
  have hfind : Dict.find (upsert row (Json.jsonbFields floats excluded)) k =
      ((Dict.find excluded k).map (Json.jsonb floats)).or (Dict.find (row.getD []) k) := by
    cases row with
    | none =>
      rw [upsert, Json.find_jsonbFields]
      exact (Option.or_none).symm
    | some stored => rw [upsert, find_jsonbConcat, Json.find_jsonbFields, Option.getD_some]
  rw [Json.leaf_obj, hfind, Dict.has]
  cases hk : Dict.find excluded k with
  | none =>
    rw [Json.leaf_obj, Json.leaf_obj]
    rfl
  | some v =>
    rw [Json.leaf_obj, hk]
    exact Json.leaf_jsonb (h.find hk) path

theorem has_mergeFields (out new : Dict) (key : String) :
    Dict.has (mergeFields out new) key = (Dict.has new key || Dict.has out key) := by
  induction new generalizing out with
  | nil => rfl
  | cons field new ih =>
    obtain ⟨k, v⟩ := field
    rw [mergeFields, ih, Dict.has_set, Dict.has_cons, ← Bool.or_assoc,
      Bool.or_comm (Dict.has new key)]

end Memclaw.Settings

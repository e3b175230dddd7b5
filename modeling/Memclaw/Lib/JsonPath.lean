import Mathlib.Algebra.Field.Rat
import Mathlib.Data.List.Perm.Subperm
import Memclaw.Lib.Dict

/-! Paths into JSON values, and what `==` sees of a value: numbers by their size, objects
without the order of their keys. -/

namespace Memclaw.Lib

namespace Dict

theorem mem_of_find {d : Dict} {key : String} {v : Json} (h : find d key = some v) :
    (key, v) ∈ d := by
  induction d with
  | nil => exact absurd h (by simp [find])
  | cons field d ih =>
    obtain ⟨k, w⟩ := field
    rw [find] at h
    by_cases hk : k = key
    · rw [if_pos hk] at h
      rw [← hk, ← Option.some.inj h]
      exact List.mem_cons_self
    · rw [if_neg hk] at h
      exact List.mem_cons_of_mem _ (ih h)

theorem find_eq_none_iff {d : Dict} {key : String} :
    find d key = none ↔ key ∉ d.map Prod.fst := by
  induction d with
  | nil => simp [find]
  | cons field d ih =>
    obtain ⟨k, w⟩ := field
    rw [find, List.map_cons, List.mem_cons, not_or]
    by_cases hk : k = key
    · simp [hk]
    · rw [if_neg hk, ih]
      exact ⟨fun h => ⟨fun heq => hk heq.symm, h⟩, And.right⟩

theorem mem_set {d : Dict} {key : String} {value : Json} {field : String × Json}
    (h : field ∈ set d key value) : field ∈ d ∨ field = (key, value) := by
  induction d with
  | nil => exact .inr (List.mem_singleton.mp h)
  | cons other d ih =>
    obtain ⟨k, w⟩ := other
    rw [set] at h
    split at h
    · rename_i hk
      obtain rfl | h := List.mem_cons.mp h
      · exact .inr (by rw [hk])
      · exact .inl (List.mem_cons_of_mem _ h)
    · obtain rfl | h := List.mem_cons.mp h
      · exact .inl List.mem_cons_self
      · exact (ih h).imp_left (List.mem_cons_of_mem _)

theorem set_of_find {d : Dict} {key : String} {v : Json} (h : find d key = some v) :
    set d key v = d := by
  induction d with
  | nil => exact absurd h (by simp [find])
  | cons field d ih =>
    obtain ⟨k, w⟩ := field
    rw [find] at h
    rw [set]
    by_cases hk : k = key
    · rw [if_pos hk] at h ⊢
      rw [hk, Option.some.inj h]
    · rw [if_neg hk] at h ⊢
      rw [ih h]

theorem mem_update {d patch : Dict} {field : String × Json} (h : field ∈ update d patch) :
    field ∈ d ∨ field ∈ patch := by
  induction patch generalizing d with
  | nil => exact .inl h
  | cons other patch ih =>
    obtain h | h := ih h
    · obtain h | rfl := mem_set h
      · exact .inl h
      · exact .inr List.mem_cons_self
    · exact .inr (List.mem_cons_of_mem _ h)

theorem mem_of_mem_pop {d : Dict} {key : String} {field : String × Json}
    (h : field ∈ pop d key) : field ∈ d := by
  induction d with
  | nil => exact h
  | cons other d ih =>
    obtain ⟨k, w⟩ := other
    rw [pop] at h
    split at h
    · exact List.mem_cons_of_mem _ (ih h)
    · obtain rfl | h := List.mem_cons.mp h
      · exact List.mem_cons_self
      · exact List.mem_cons_of_mem _ (ih h)

theorem has_cons (k : String) (v : Json) (d : Dict) (key : String) :
    has ((k, v) :: d) key = (decide (k = key) || has d key) := by
  rw [has, find, has]
  by_cases h : k = key <;> simp [h]

theorem has_set (d : Dict) (key other : String) (value : Json) :
    has (set d key value) other = (decide (key = other) || has d other) := by
  rw [has, find_set, has]
  by_cases h : key = other <;> simp [h]

theorem has_update (d patch : Dict) (key : String) :
    has (update d patch) key = (has patch key || has d key) := by
  induction patch generalizing d with
  | nil => rfl
  | cons other patch ih =>
    obtain ⟨k, v⟩ := other
    rw [update, List.foldl_cons]
    refine (ih (set d k v)).trans ?_
    rw [has_set, has_cons, ← Bool.or_assoc, Bool.or_comm (has patch key)]

end Dict

namespace Json

mutual

def distinct : Json → Bool
  | arr items => distinctItems items
  | obj fields => distinctFields fields
  | null => true
  | bool _ => true
  | int _ => true
  | float _ => true
  | str _ => true

def distinctItems : List Json → Bool
  | [] => true
  | j :: js => j.distinct && distinctItems js

def distinctFields : Dict → Bool
  | [] => true
  | (k, v) :: d => !Dict.has d k && (v.distinct && distinctFields d)

end

theorem distinctFields_cons {k : String} {v : Json} {d : Dict} :
    distinctFields ((k, v) :: d) = true ↔
      Dict.find d k = none ∧ v.distinct = true ∧ distinctFields d = true := by
  rw [distinctFields, Bool.and_eq_true, Bool.and_eq_true, Dict.has, Bool.not_eq_true',
    Option.isSome_eq_false_iff, Option.isNone_iff_eq_none]

theorem distinct_of_find {d : Dict} (h : distinctFields d = true) {key : String} {v : Json}
    (hv : Dict.find d key = some v) : v.distinct = true := by
  induction d with
  | nil => exact absurd hv (by simp [Dict.find])
  | cons field d ih =>
    obtain ⟨k, w⟩ := field
    obtain ⟨-, hw, hd⟩ := distinctFields_cons.mp h
    rw [Dict.find] at hv
    by_cases hk : k = key
    · rw [if_pos hk] at hv
      exact Option.some.inj hv ▸ hw
    · rw [if_neg hk] at hv
      exact ih hd hv

theorem find_of_mem {d : Dict} (h : distinctFields d = true) {key : String} {v : Json}
    (hv : (key, v) ∈ d) : Dict.find d key = some v := by
  induction d with
  | nil => exact absurd hv List.not_mem_nil
  | cons field d ih =>
    obtain ⟨k, w⟩ := field
    obtain ⟨hk, -, hd⟩ := distinctFields_cons.mp h
    rw [Dict.find]
    rcases List.mem_cons.mp hv with heq | hv
    · obtain ⟨rfl, rfl⟩ := Prod.mk.inj heq
      rw [if_pos rfl]
    · have hrest := ih hd hv
      have hne : k ≠ key := by
        rintro rfl
        rw [hk] at hrest
        exact absurd hrest (by simp)
      rw [if_neg hne, hrest]

theorem nodup_keys {d : Dict} (h : distinctFields d = true) : (d.map Prod.fst).Nodup := by
  induction d with
  | nil => exact List.nodup_nil
  | cons field d ih =>
    obtain ⟨k, v⟩ := field
    obtain ⟨hk, -, hd⟩ := distinctFields_cons.mp h
    exact List.nodup_cons.mpr ⟨Dict.find_eq_none_iff.mp hk, ih hd⟩

def walk : Json → List String → Option Json
  | j, [] => some j
  | obj d, k :: path => (Dict.find d k).bind (walk · path)
  | _, _ :: _ => none

def isObj : Json → Bool
  | obj _ => true
  | _ => false

theorem exists_obj {j : Json} (h : j.isObj = true) : ∃ d, j = obj d := by
  cases j with
  | obj d => exact ⟨d, rfl⟩
  | _ => exact Bool.noConfusion h

@[simp] theorem walk_nil (j : Json) : j.walk [] = some j := by cases j <;> rfl

@[simp] theorem walk_obj (d : Dict) (k : String) (path : List String) :
    (obj d).walk (k :: path) = (Dict.find d k).bind (walk · path) := rfl

theorem walk_of_not_obj {j : Json} (h : j.isObj = false) (k : String) (path : List String) :
    j.walk (k :: path) = none := by
  cases j with
  | obj d => exact Bool.noConfusion h
  | _ => rfl

theorem walk_append (j : Json) (path tail : List String) :
    j.walk (path ++ tail) = (j.walk path).bind (walk · tail) := by
  induction path generalizing j with
  | nil => simp
  | cons k path ih =>
    by_cases hj : j.isObj = true
    · obtain ⟨d, rfl⟩ := exists_obj hj
      rw [List.cons_append, walk_obj, walk_obj]
      cases Dict.find d k with
      | none => rfl
      | some v => exact ih v
    · have hj := Bool.eq_false_iff.mpr hj
      rw [List.cons_append, walk_of_not_obj hj, walk_of_not_obj hj]
      rfl

def under (j : Json) (path : List String) : Json := (j.walk path).getD .null

theorem under_nil (j : Json) : j.under [] = j := by rw [under, walk_nil, Option.getD_some]

theorem under_get (d : Dict) (k : String) (path : List String) :
    (Dict.get d k).under path = (obj d).under (k :: path) := by
  rw [under, under, walk_obj, Dict.get]
  cases Dict.find d k with
  | some v => rfl
  | none => cases path <;> rfl

/-- Induction over a value through the fields of its objects. -/
theorem induction_fields {P : Json → Prop} (hother : ∀ j, j.isObj = false → P j)
    (hobj : ∀ d, (∀ k v, Dict.find d k = some v → P v) → P (obj d)) : ∀ j, P j
  | obj d => hobj d fun k v hv =>
    have hlt : sizeOf v < sizeOf d :=
      Nat.lt_trans (by rw [Prod.mk.sizeOf_spec]; omega)
        (List.sizeOf_lt_of_mem (Dict.mem_of_find hv))
    induction_fields hother hobj v
  | null => hother _ rfl
  | bool _ => hother _ rfl
  | int _ => hother _ rfl
  | float _ => hother _ rfl
  | str _ => hother _ rfl
  | arr _ => hother _ rfl
termination_by j => sizeOf j
decreasing_by
  simp
  omega

theorem distinct_of_walk {j v : Json} {path : List String} (h : j.distinct = true)
    (hv : j.walk path = some v) : v.distinct = true := by
  induction path generalizing j with
  | nil =>
    rw [walk_nil] at hv
    exact Option.some.inj hv ▸ h
  | cons k path ih =>
    cases j with
    | obj d =>
      obtain ⟨w, hw, hv⟩ := Option.bind_eq_some_iff.mp hv
      exact ih (distinct_of_find (by rwa [distinct] at h) hw) hv
    | _ => exact absurd hv (by simp [walk])

end Json

/-- What `==` compares of a value. -/
inductive Value
  | null
  | number (q : ℚ)
  | infinite (neg : Bool)
  | nan
  | str (s : String)
  | arr (items : List Value)
  | obj (fields : String → Option Value)

def Value.scalar : Value → Option Value
  | .null => none
  | .obj _ => none
  | v => some v

def Binary64.toRat (x : Binary64) : ℚ := (if x.neg then -(x.num : ℤ) else x.num : ℤ) / (x.den : ℚ)

theorem Binary64.toRat_of_mant {x : Binary64} (h : x.mant = 0) : x.toRat = 0 := by
  simp [Binary64.toRat, Binary64.num, h]

def PyFloat.isFinite : PyFloat → Bool
  | .finite _ => true
  | _ => false

def PyFloat.value : PyFloat → Value
  | .finite x => .number x.toRat
  | .infinite neg => .infinite neg
  | .nan => .nan

namespace Json

mutual

def value : Json → Value
  | null => .null
  | bool b => .number (if b then 1 else 0)
  | int i => .number i
  | float x => x.value
  | str s => .str s
  | arr items => .arr (valueItems items)
  | obj fields => .obj (valueFields fields)

def valueItems : List Json → List Value
  | [] => []
  | j :: js => j.value :: valueItems js

def valueFields : Dict → String → Option Value
  | [], _ => none
  | (k, v) :: d, key => if k = key then some v.value else valueFields d key

end

theorem valueFields_eq (d : Dict) (key : String) :
    valueFields d key = (Dict.find d key).map value := by
  induction d with
  | nil => rfl
  | cons field d ih =>
    obtain ⟨k, v⟩ := field
    rw [valueFields, Dict.find, ih]
    by_cases hk : k = key
    · rw [if_pos hk, if_pos hk]
      rfl
    · rw [if_neg hk, if_neg hk]

theorem toRat_of_intEqFloat {i : ℤ} {x : Binary64} (h : intEqFloat i x = true) :
    x.toRat = i := by
  have hden : (x.den : ℚ) ≠ 0 := by
    rw [Binary64.den]
    simp
  rw [intEqFloat, decide_eq_true_eq] at h
  rw [Binary64.toRat, h, Int.cast_mul, Int.cast_natCast, mul_div_cancel_right₀ _ hden]

theorem value_of_floatEq {x y : PyFloat} (h : floatEq x y = true) : x.value = y.value := by
  cases x with
  | finite x =>
    cases y with
    | finite y =>
      rw [floatEq, Bool.or_eq_true, Bool.and_eq_true, decide_eq_true_eq, decide_eq_true_eq,
        decide_eq_true_eq] at h
      obtain rfl | ⟨hx, hy⟩ := h
      · rfl
      · rw [PyFloat.value, PyFloat.value, Binary64.toRat_of_mant hx, Binary64.toRat_of_mant hy]
    | _ => exact Bool.noConfusion h
  | infinite a =>
    cases y with
    | infinite b => rw [decide_eq_true_eq.mp h]
    | _ => exact Bool.noConfusion h
  | nan => cases y <;> exact Bool.noConfusion h

theorem value_of_asInt {j : Json} {i : ℤ} (h : j.asInt = some i) : j.value = .number i := by
  cases j with
  | int k =>
    obtain rfl := Option.some.inj h
    rw [value]
  | bool b =>
    obtain rfl := Option.some.inj h
    rw [value]
    cases b <;> simp
  | _ => exact absurd h (by simp [asInt])

theorem value_of_intEq {b : Json} {i : ℤ}
    (h : (match b with
      | float (.finite x) => intEqFloat i x
      | _ => decide (b.asInt = some i)) = true) : b.value = .number i := by
  cases b with
  | float x =>
    cases x with
    | finite x => rw [value, PyFloat.value, toRat_of_intEqFloat h]
    | _ => exact absurd h (by simp [asInt])
  | _ => exact value_of_asInt (decide_eq_true_eq.mp h)

theorem value_of_isStr {j : Json} {s : String} (h : j.isStr s = true) : j.value = .str s := by
  cases j with
  | str t =>
    rw [isStr, decide_eq_true_eq] at h
    rw [value, h]
  | _ => exact Bool.noConfusion h

theorem valueFields_of_subset {fields others : Dict} (hd : distinctFields fields = true)
    (hlen : fields.length = others.length)
    (h : ∀ k v, (k, v) ∈ fields → ∃ w, Dict.find others k = some w ∧ v.value = w.value) :
    valueFields fields = valueFields others := by
  -- Objects of one length are equal when every field of the one is found in the other.
  have hsub : (fields.map Prod.fst) ⊆ (others.map Prod.fst) := by
    intro k hk
    obtain ⟨⟨k', v⟩, hmem, rfl⟩ := List.mem_map.mp hk
    obtain ⟨w, hw, -⟩ := h k' v hmem
    exact List.mem_map.mpr ⟨(k', w), Dict.mem_of_find hw, rfl⟩
  have hperm : (fields.map Prod.fst).Perm (others.map Prod.fst) :=
    ((nodup_keys hd).subperm hsub).perm_of_length_le (by simp [hlen])
  funext key
  rw [valueFields_eq, valueFields_eq]
  cases hkey : Dict.find fields key with
  | none =>
    -- a key that only the other object has would make that one longer
    have hnot := Dict.find_eq_none_iff.mp hkey
    have hother := Dict.find_eq_none_iff.mpr fun hmem => hnot (hperm.mem_iff.mpr hmem)
    rw [hother]
  | some v =>
    obtain ⟨w, hw, hvw⟩ := h key v (Dict.mem_of_find hkey)
    rw [hw, Option.map_some, Option.map_some, hvw]

mutual

theorem value_of_pyEq : ∀ {a b : Json}, a.distinct = true → a.pyEq b = true → a.value = b.value
  | null, b, _, h => by
    cases b with
    | null => rfl
    | _ => exact Bool.noConfusion h
  | str s, b, _, h => by
    rw [value, value_of_isStr (by rwa [pyEq] at h)]
  | bool p, b, _, h => by
    rw [pyEq.eq_def] at h
    rw [value_of_intEq h, value]
    cases p <;> simp
  | int i, b, _, h => by
    rw [pyEq.eq_def] at h
    rw [value_of_intEq h, value]
  | float x, b, _, h => by
    rw [pyEq.eq_def] at h
    cases b with
    | float y =>
      rw [value, value]
      apply value_of_floatEq
      cases x <;> exact h
    | int i =>
      cases x with
      | finite x => rw [value, value, PyFloat.value, toRat_of_intEqFloat h]
      | _ => exact Bool.noConfusion h
    | bool p =>
      cases x with
      | finite x =>
        rw [value, value, PyFloat.value, toRat_of_intEqFloat h]
        cases p <;> simp
      | _ => exact Bool.noConfusion h
    | _ => cases x <;> exact Bool.noConfusion h
  | arr items, b, hd, h => by
    rw [pyEq.eq_def] at h
    rw [distinct] at hd
    cases b with
    | arr others => rw [value, value, valueItems_of_itemsEq hd h]
    | _ => exact Bool.noConfusion h
  | obj fields, b, hd, h => by
    rw [pyEq.eq_def] at h
    rw [distinct] at hd
    cases b with
    | obj others =>
      rw [Bool.and_eq_true, decide_eq_true_eq] at h
      rw [value, value, valueFields_of_subset hd h.1 (find_of_fieldsEq hd h.2)]
    | _ => exact Bool.noConfusion h

theorem valueItems_of_itemsEq : ∀ {js ks : List Json}, distinctItems js = true →
    itemsEq js ks = true → valueItems js = valueItems ks
  | [], [], _, _ => rfl
  | [], _ :: _, _, h => Bool.noConfusion h
  | _ :: _, [], _, h => Bool.noConfusion h
  | j :: js, k :: ks, hd, h => by
    rw [itemsEq, Bool.and_eq_true] at h
    rw [distinctItems, Bool.and_eq_true] at hd
    rw [valueItems, valueItems, value_of_pyEq hd.1 h.1, valueItems_of_itemsEq hd.2 h.2]

theorem find_of_fieldsEq : ∀ {fields others : Dict}, distinctFields fields = true →
    fieldsEq fields others = true → ∀ k v, (k, v) ∈ fields →
      ∃ w, Dict.find others k = some w ∧ v.value = w.value
  | [], _, _, _, _, _, hmem => absurd hmem List.not_mem_nil
  | (k, v) :: fields, others, hd, h, l, u, hmem => by
    rw [fieldsEq, Bool.and_eq_true] at h
    obtain ⟨-, hv, hd⟩ := distinctFields_cons.mp hd
    obtain hhead | hmem := List.mem_cons.mp hmem
    · obtain ⟨rfl, rfl⟩ := Prod.mk.inj hhead
      cases hfind : Dict.find others l with
      | none =>
        rw [hfind] at h
        exact Bool.noConfusion h.1
      | some w =>
        rw [hfind] at h
        exact ⟨w, rfl, value_of_pyEq hv h.1⟩
    · exact find_of_fieldsEq hd h.2 l u hmem

end

def scalar (j : Json) : Option Value := j.value.scalar

def leaf (j : Json) (path : List String) : Option Value := (j.walk path).bind scalar

/-- The document says what stands at the path: the path does not run into a missing key. -/
def touches : Json → List String → Bool
  | obj d, k :: path => (Dict.find d k).any (touches · path)
  | _, _ => true

theorem leaf_obj (d : Dict) (k : String) (path : List String) :
    (obj d).leaf (k :: path) = (Dict.find d k).bind (leaf · path) := by
  rw [leaf, walk_obj, Option.bind_assoc]
  rfl

theorem leaf_nil (j : Json) : j.leaf [] = j.scalar := by rw [leaf, walk_nil, Option.bind_some]

theorem leaf_of_not_obj {j : Json} (h : j.isObj = false) (k : String) (path : List String) :
    j.leaf (k :: path) = none := by
  rw [leaf, walk_of_not_obj h, Option.bind_none]

theorem leaf_of_not_touches {j : Json} {path : List String} (h : j.touches path = false) :
    j.leaf path = none := by
  induction path generalizing j with
  | nil => cases j <;> exact Bool.noConfusion h
  | cons k path ih =>
    cases j with
    | obj d =>
      rw [leaf_obj]
      rw [touches] at h
      cases hk : Dict.find d k with
      | none => rfl
      | some v =>
        rw [hk, Option.any_some] at h
        exact ih h
    | _ => exact Bool.noConfusion h

theorem touches_of_walk {j v : Json} {path : List String} (h : j.walk path = some v) :
    j.touches path = true := by
  induction path generalizing j with
  | nil => cases j <;> rfl
  | cons k path ih =>
    cases j with
    | obj d =>
      obtain ⟨w, hw, hv⟩ := Option.bind_eq_some_iff.mp h
      rw [touches, hw, Option.any_some]
      exact ih hv
    | _ => rfl

theorem scalar_obj (d : Dict) : (obj d).scalar = none := by
  rw [scalar, value]
  rfl

theorem scalar_of_isObj {j : Json} (h : j.isObj = true) : j.scalar = none := by
  cases j with
  | obj d => exact scalar_obj d
  | _ => exact Bool.noConfusion h

end Json

/-- The column gives back a float of the same value, which it then keeps, or the int that the
float equals. -/
def JsonbFloats.Keeps (floats : JsonbFloats) (x : PyFloat) : Prop :=
  (∃ y, floats.back x = .float y ∧ floats.back y = .float y ∧ y.value = x.value) ∨
    ∃ i : ℤ, floats.back x = .int i ∧ x.value = .number i

theorem JsonbFloats.Keeps.same (x : PyFloat) : JsonbFloats.same.Keeps x := .inl ⟨x, rfl, rfl, rfl⟩

namespace Json

theorem mem_floatLeavesFields {d : Dict} {x : PyFloat} :
    x ∈ floatLeavesFields d ↔ ∃ field ∈ d, x ∈ field.2.floatLeaves := by
  induction d with
  | nil => simp [floatLeavesFields]
  | cons field d ih =>
    obtain ⟨k, v⟩ := field
    simp [floatLeavesFields, ih]

variable {floats : JsonbFloats}

mutual

theorem value_jsonb : ∀ {j : Json}, (∀ x ∈ j.floatLeaves, floats.Keeps x) →
    (j.jsonb floats).value = j.value
  | null, _ => by rw [jsonb]
  | bool _, _ => by rw [jsonb]
  | int _, _ => by rw [jsonb]
  | str _, _ => by rw [jsonb]
  | float x, h => by
    obtain ⟨y, hback, -, hy⟩ | ⟨i, hback, hx⟩ := h x (by simp [floatLeaves])
    · rw [jsonb, hback, value, value, hy]
    · rw [jsonb, hback, value, value, hx]
  | arr items, h => by
    rw [jsonb, value, value, valueItems_jsonb (by rwa [floatLeaves] at h)]
  | obj fields, h => by
    rw [jsonb, value, value]
    congr 1
    funext key
    rw [valueFields_eq, valueFields_eq, find_jsonbFields, Option.map_map]
    cases hfind : Dict.find fields key with
    | none => rfl
    | some v =>
      have hv := value_jsonb_of_mem (by rwa [floatLeaves] at h) key v (Dict.mem_of_find hfind)
      rw [Option.map_some, Option.map_some, Function.comp_apply, hv]

theorem valueItems_jsonb : ∀ {items : List Json}, (∀ x ∈ floatLeavesItems items, floats.Keeps x) →
    valueItems (jsonbItems floats items) = valueItems items
  | [], _ => rfl
  | j :: js, h => by
    rw [floatLeavesItems, List.forall_mem_append] at h
    rw [jsonbItems, valueItems, valueItems, value_jsonb h.1, valueItems_jsonb h.2]

theorem value_jsonb_of_mem : ∀ {d : Dict}, (∀ x ∈ floatLeavesFields d, floats.Keeps x) →
    ∀ k v, (k, v) ∈ d → (v.jsonb floats).value = v.value
  | [], _, _, _, hmem => absurd hmem List.not_mem_nil
  | (k, v) :: d, h, l, w, hmem => by
    rw [floatLeavesFields, List.forall_mem_append] at h
    obtain hhead | hmem := List.mem_cons.mp hmem
    · obtain ⟨rfl, rfl⟩ := Prod.mk.inj hhead
      exact value_jsonb h.1
    · exact value_jsonb_of_mem h.2 l w hmem

end

theorem keeps_back {x y : PyFloat} (h : floats.Keeps x) (hy : y ∈ (floats.back x).floatLeaves) :
    floats.Keeps y := by
  obtain ⟨z, hback, hagain, -⟩ | ⟨i, hback, -⟩ := h
  · rw [hback, floatLeaves, List.mem_singleton] at hy
    rw [hy]
    exact .inl ⟨z, hagain, hagain, rfl⟩
  · rw [hback, floatLeaves] at hy
    exact absurd hy List.not_mem_nil

mutual

theorem keeps_jsonb : ∀ {j : Json}, (∀ x ∈ j.floatLeaves, floats.Keeps x) →
    ∀ x ∈ (j.jsonb floats).floatLeaves, floats.Keeps x
  | null, _, _, hx => absurd hx (by simp [jsonb, floatLeaves])
  | bool _, _, _, hx => absurd hx (by simp [jsonb, floatLeaves])
  | int _, _, _, hx => absurd hx (by simp [jsonb, floatLeaves])
  | str _, _, _, hx => absurd hx (by simp [jsonb, floatLeaves])
  | float x, h, y, hy => by
    rw [floatLeaves, List.forall_mem_singleton] at h
    rw [jsonb] at hy
    exact keeps_back h hy
  | arr items, h, x, hx => by
    rw [floatLeaves] at h
    rw [jsonb, floatLeaves] at hx
    exact keeps_jsonbItems h x hx
  | obj fields, h, x, hx => by
    rw [floatLeaves] at h
    rw [jsonb, floatLeaves] at hx
    exact keeps_jsonbFields h x hx

theorem keeps_jsonbItems : ∀ {items : List Json}, (∀ x ∈ floatLeavesItems items, floats.Keeps x) →
    ∀ x ∈ floatLeavesItems (jsonbItems floats items), floats.Keeps x
  | [], _, _, hx => absurd hx List.not_mem_nil
  | j :: js, h, x, hx => by
    rw [floatLeavesItems, List.forall_mem_append] at h
    rw [jsonbItems, floatLeavesItems, List.mem_append] at hx
    exact hx.elim (keeps_jsonb h.1 x) (keeps_jsonbItems h.2 x)

theorem keeps_jsonbFields : ∀ {d : Dict}, (∀ x ∈ floatLeavesFields d, floats.Keeps x) →
    ∀ x ∈ floatLeavesFields (jsonbFields floats d), floats.Keeps x
  | [], _, _, hx => absurd hx List.not_mem_nil
  | (k, v) :: d, h, x, hx => by
    rw [floatLeavesFields, List.forall_mem_append] at h
    rw [jsonbFields, mem_floatLeavesFields] at hx
    obtain ⟨field, hmem, hx⟩ := hx
    obtain rfl | hmem := List.mem_cons.mp ((insertJsonb_perm _ _).mem_iff.mp hmem)
    · exact keeps_jsonb h.1 x hx
    · exact keeps_jsonbFields h.2 x (mem_floatLeavesFields.mpr ⟨field, hmem, hx⟩)

end

theorem walk_jsonb (j : Json) (path : List String) :
    (j.jsonb floats).walk path = (j.walk path).map (jsonb floats) := by
  induction path generalizing j with
  | nil => rw [walk_nil, walk_nil, Option.map_some]
  | cons k path ih =>
    cases j with
    | obj d =>
      rw [jsonb, walk_obj, walk_obj, find_jsonbFields]
      cases Dict.find d k with
      | none => rfl
      | some v => exact ih v
    | float x =>
      obtain ⟨i, hback⟩ | ⟨y, hback⟩ := jsonb_float_cases floats x
      · rw [hback]
        rfl
      · rw [hback]
        rfl
    | _ =>
      rw [jsonb]
      rfl

theorem floatLeaves_walk {j v : Json} {path : List String} (hv : j.walk path = some v)
    {x : PyFloat} (hx : x ∈ v.floatLeaves) : x ∈ j.floatLeaves := by
  induction path generalizing j with
  | nil =>
    rw [walk_nil] at hv
    exact Option.some.inj hv ▸ hx
  | cons k path ih =>
    cases j with
    | obj d =>
      obtain ⟨w, hw, hv⟩ := Option.bind_eq_some_iff.mp hv
      rw [floatLeaves]
      exact mem_floatLeavesFields.mpr ⟨(k, w), Dict.mem_of_find hw, ih hv⟩
    | _ => exact absurd hv (by simp [walk])

theorem scalar_jsonb {j : Json} (h : ∀ x ∈ j.floatLeaves, floats.Keeps x) :
    (j.jsonb floats).scalar = j.scalar := by
  rw [scalar, value_jsonb h, scalar]

theorem leaf_jsonb {j : Json} (h : ∀ x ∈ j.floatLeaves, floats.Keeps x) (path : List String) :
    (j.jsonb floats).leaf path = j.leaf path := by
  rw [leaf, leaf, walk_jsonb]
  cases hv : j.walk path with
  | none => rfl
  | some v => exact scalar_jsonb fun x hx => h x (floatLeaves_walk hv hx)

end Json

end Memclaw.Lib

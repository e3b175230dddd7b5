import Mathlib.Data.List.Perm.Basic
import Memclaw.Lib.DictDefs

/-! Lookups after updates of a dict, and after a trip of it through a JSONB column. -/

namespace Memclaw.Lib

namespace Dict

@[simp] theorem find_set (d : Dict) (key other : String) (value : Json) :
    find (set d key value) other = if key = other then some value else find d other := by
  induction d with
  | nil => rfl
  | cons field d ih =>
    obtain ⟨k, v⟩ := field
    rw [set]
    by_cases hk : k = key
    · subst hk
      rw [if_pos rfl, find, find]
      by_cases hother : k = other
      · rw [if_pos hother, if_pos hother]
      · rw [if_neg hother, if_neg hother, if_neg hother]
    · rw [if_neg hk, find, find, ih]
      by_cases hother : k = other
      · have hne : key ≠ other := fun h => hk (hother.trans h.symm)
        rw [if_pos hother, if_neg hne, if_pos hother]
      · rw [if_neg hother, if_neg hother]

@[simp] theorem find_pop (d : Dict) (key other : String) :
    find (pop d key) other = if key = other then none else find d other := by
  induction d with
  | nil => exact (ite_self _).symm
  | cons field d ih =>
    obtain ⟨k, v⟩ := field
    rw [pop]
    by_cases hk : k = key
    · rw [if_pos hk, ih, find]
      by_cases hother : key = other
      · rw [if_pos hother, if_pos hother]
      · have hne : k ≠ other := fun h => hother (hk.symm.trans h)
        rw [if_neg hother, if_neg hother, if_neg hne]
    · rw [if_neg hk, find, find, ih]
      by_cases hother : k = other
      · have hne : key ≠ other := fun h => hk (hother.trans h.symm)
        rw [if_pos hother, if_neg hne, if_pos hother]
      · rw [if_neg hother, if_neg hother]

@[simp] theorem get_set (d : Dict) (key other : String) (value : Json) :
    get (set d key value) other = if key = other then value else get d other := by
  rw [get, find_set]
  by_cases h : key = other
  · rw [if_pos h, if_pos h]
    rfl
  · rw [if_neg h, if_neg h]
    rfl

@[simp] theorem get_pop (d : Dict) (key other : String) :
    get (pop d key) other = if key = other then .null else get d other := by
  rw [get, find_pop]
  by_cases h : key = other
  · rw [if_pos h, if_pos h]
    rfl
  · rw [if_neg h, if_neg h]
    rfl

theorem get_update_of_ne {d patch : Dict} {key : String} (h : ∀ field ∈ patch, field.1 ≠ key) :
    get (update d patch) key = get d key := by
  induction patch generalizing d with
  | nil => rfl
  | cons field patch ih =>
    have hhead := h field List.mem_cons_self
    rw [update, List.foldl_cons]
    refine (ih fun other hother => h other (List.mem_cons_of_mem _ hother)).trans ?_
    rw [get_set, if_neg hhead]

theorem get_pops_of_notMem {d : Dict} {keys : List String} {key : String} (h : key ∉ keys) :
    get (keys.foldl pop d) key = get d key := by
  induction keys generalizing d with
  | nil => rfl
  | cons other keys ih =>
    have hne : other ≠ key := fun heq => h (heq ▸ List.mem_cons_self)
    rw [List.foldl_cons, ih fun hmem => h (List.mem_cons_of_mem _ hmem), get_pop, if_neg hne]

end Dict

namespace Json

variable (floats : JsonbFloats)

theorem jsonbKeyLt_irrefl (k : String) : jsonbKeyLt k k = false := by
  have htext : ∀ cs : List Char, textLt cs cs = false := by
    intro cs
    induction cs with
    | nil => rfl
    | cons c cs ih => simp [textLt, ih]
  simp [jsonbKeyLt, htext]

theorem insertJsonb_perm (field : String × Json) (d : Dict) :
    (insertJsonb field d).Perm (field :: d) := by
  induction d with
  | nil => exact List.Perm.refl _
  | cons other d ih =>
    rw [insertJsonb]
    split
    · exact (ih.cons other).trans (List.Perm.swap field other d)
    · exact List.Perm.refl _

theorem find_insertJsonb (k : String) (v : Json) (d : Dict) (key : String) :
    Dict.find (insertJsonb (k, v) d) key = if k = key then some v else Dict.find d key := by
  induction d with
  | nil => rfl
  | cons other d ih =>
    obtain ⟨l, w⟩ := other
    rw [insertJsonb]
    by_cases hlt : jsonbKeyLt l k
    · -- a key that is passed over is another key
      have hne : l ≠ k := by
        rintro rfl
        rw [jsonbKeyLt_irrefl] at hlt
        exact Bool.false_ne_true hlt
      rw [if_pos hlt, Dict.find, ih, Dict.find]
      by_cases hl : l = key
      · have hk : k ≠ key := fun h => hne (hl.trans h.symm)
        rw [if_pos hl, if_neg hk, if_pos hl]
      · rw [if_neg hl, if_neg hl]
    · rw [if_neg hlt, Dict.find]

@[simp] theorem find_jsonbFields (d : Dict) (key : String) :
    Dict.find (jsonbFields floats d) key = (Dict.find d key).map (jsonb floats) := by
  induction d with
  | nil => rfl
  | cons field d ih =>
    obtain ⟨k, v⟩ := field
    rw [jsonbFields, find_insertJsonb, ih, Dict.find]
    by_cases hk : k = key
    · rw [if_pos hk, if_pos hk]
      rfl
    · rw [if_neg hk, if_neg hk]

@[simp] theorem get_jsonbFields (d : Dict) (key : String) :
    Dict.get (jsonbFields floats d) key = (Dict.get d key).jsonb floats := by
  rw [Dict.get, find_jsonbFields, Dict.get]
  cases Dict.find d key with
  | none => simp [jsonb]
  | some v => rfl

@[simp] theorem jsonb_null : (null).jsonb floats = null := rfl

@[simp] theorem jsonb_str (s : String) : (str s).jsonb floats = str s := rfl

@[simp] theorem jsonb_int (i : Int) : (int i).jsonb floats = int i := rfl

@[simp] theorem jsonb_arr (items : List Json) :
    (arr items).jsonb floats = arr (items.map (jsonb floats)) := by
  show arr (jsonbItems floats items) = _
  congr 1
  induction items with
  | nil => rfl
  | cons j js ih => rw [jsonbItems, ih, List.map_cons]

@[simp] theorem jsonb_obj (fields : Dict) :
    (obj fields).jsonb floats = obj (jsonbFields floats fields) := rfl

theorem jsonb_float_cases (x : PyFloat) :
    (∃ i, (float x).jsonb floats = int i) ∨ ∃ y, (float x).jsonb floats = float y := by
  have hnumber := floats.number x
  show (∃ i, floats.back x = int i) ∨ ∃ y, floats.back x = float y
  cases h : floats.back x with
  | int i => exact .inl ⟨i, rfl⟩
  | float y => exact .inr ⟨y, rfl⟩
  | _ =>
    rw [h] at hnumber
    exact absurd hnumber Bool.false_ne_true

theorem eq_of_jsonb {β : Type} {f : Json → β} (number : β) (hint : ∀ i, f (int i) = number)
    (hfloat : ∀ x, f (float x) = number)
    (harr : ∀ items, f (arr (items.map (jsonb floats))) = f (arr items))
    (hobj : ∀ fields, f (obj (jsonbFields floats fields)) = f (obj fields)) (j : Json) :
    f (j.jsonb floats) = f j := by
  cases j with
  | float x =>
    obtain ⟨i, h⟩ | ⟨y, h⟩ := jsonb_float_cases floats x
    · rw [h, hint, hfloat]
    · rw [h, hfloat, hfloat]
  | arr items => rw [jsonb_arr, harr]
  | obj fields => rw [jsonb_obj, hobj]
  | _ => rfl

@[simp] theorem truthy_jsonb (j : Json) : (j.jsonb floats).truthy = j.truthy := by
  cases j with
  | arr items => cases items <;> simp [truthy]
  | obj fields =>
    rw [jsonb_obj]
    cases fields with
    | nil => rfl
    | cons field fields =>
      have hperm := insertJsonb_perm (field.1, field.2.jsonb floats) (jsonbFields floats fields)
      have hne : insertJsonb (field.1, field.2.jsonb floats) (jsonbFields floats fields) ≠ [] := by
        intro h
        rw [h] at hperm
        exact List.cons_ne_nil _ _ hperm.nil_eq.symm
      rw [truthy, truthy, jsonbFields]
      simpa using hne
  | float x => exact floats.truthy x
  | null => rfl
  | bool b => rfl
  | int i => rfl
  | str s => rfl

@[simp] theorem asStr_jsonb (j : Json) : (j.jsonb floats).asStr = j.asStr :=
  eq_of_jsonb floats none (fun _ => rfl) (fun _ => rfl) (fun _ => rfl) (fun _ => rfl) j

@[simp] theorem textOrFalse_jsonb (j : Json) : (j.jsonb floats).textOrFalse = j.textOrFalse := by
  have htruthy := truthy_jsonb floats j
  cases j with
  | float x =>
    obtain ⟨i, h⟩ | ⟨y, h⟩ := jsonb_float_cases floats x <;> rw [h] at htruthy ⊢ <;>
      simp only [textOrFalse, htruthy]
  | arr items =>
    rw [jsonb_arr] at htruthy ⊢
    simp only [textOrFalse, htruthy]
  | obj fields =>
    rw [jsonb_obj] at htruthy ⊢
    simp only [textOrFalse, htruthy]
  | _ => rfl

@[simp] theorem isStr_jsonb (j : Json) (s : String) : (j.jsonb floats).isStr s = j.isStr s :=
  eq_of_jsonb floats (f := fun j => j.isStr s) false (fun _ => rfl) (fun _ => rfl) (fun _ => rfl)
    (fun _ => rfl) j

end Json

end Memclaw.Lib

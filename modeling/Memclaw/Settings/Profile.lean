import Memclaw.Settings.Validate
import Memclaw.Settings.ValidateDefs

/-! The two checks of a search profile: the strict one of a write and the sanitiser of a read. They
agree on a profile exactly where it has no bool that an int rule lets through, no NaN, and no int
that is too large for a float. -/

namespace Memclaw.Settings

open Memclaw.Lib

/-- `float(value)` where a float is expected and `isinstance(value, int)`; a bool is an int. -/
def toFloat (rule : SearchRule) (v : Json) : Except Raised Json :=
  match rule.isFloat, v.asInt with
  | true, some i => asFloat rule (.int i)
  | _, _ => .ok v

/-- `isinstance(value, expected_type)`. -/
def SearchRule.isInstance (rule : SearchRule) : Json → Bool
  | .int _ => !rule.isFloat
  | .bool _ => !rule.isFloat
  | .float _ => rule.isFloat
  | _ => false

def pyMin (a b : Json) : Json := if numLt b.value a.value then b else a

def pyMax (a b : Json) : Json := if numLt a.value b.value then b else a

def SearchRule.clamp (rule : SearchRule) (v : Json) : Json := pyMax rule.lo (pyMin rule.hi v)

/-- What is kept of an entry. The default of every rule is `None`, so that a value of a wrong type
leaves nothing. -/
def sanitiseEntry (key : String) (v : Json) : Except Raised (Option Json) :=
  match searchProfileRules.lookup key with
  | none => .ok (some v)
  | some rule => do
    let v ← toFloat rule v
    if rule.isInstance v then
      if rule.within v then .ok (some v) else .ok (some (rule.clamp v))
    else .ok none

def sanitiseEntries (cleaned : Dict) : Dict → Except Raised Dict
  | [] => .ok cleaned
  | (key, v) :: profile => do
    match ← sanitiseEntry key v with
    | some kept => sanitiseEntries (Dict.set cleaned key kept) profile
    | none => sanitiseEntries cleaned profile

def validateSearchProfile (profile : Dict) : Except Raised Dict := sanitiseEntries [] profile

variable {env : SettingsEnv} {key : String} {rule : SearchRule} {v w : Json}

def SearchRule.wellFormed (rule : SearchRule) : Bool :=
  rule.typed rule.lo && rule.typed rule.hi &&
    match rule.lo.value, rule.hi.value with
    | .number lo, .number hi => lo ≤ hi
    | _, _ => false

theorem wellFormed_of_lookup (h : searchProfileRules.lookup key = some rule) :
    rule.wellFormed = true := by
  have hall : (searchProfileRules.all fun entry => entry.2.wellFormed) = true := by
    decide +kernel
  obtain ⟨front, back, hsplit, -⟩ := List.lookup_eq_some_iff.mp h
  exact List.all_eq_true.mp hall (key, rule) (by rw [hsplit]; simp)

theorem SearchRule.bounds (h : rule.wellFormed = true) :
    (rule.typed rule.lo = true ∧ rule.typed rule.hi = true) ∧
      ∃ lo hi : ℚ, rule.lo.value = .number lo ∧ rule.hi.value = .number hi ∧ lo ≤ hi := by
  rw [SearchRule.wellFormed, Bool.and_eq_true, Bool.and_eq_true] at h
  obtain ⟨htyped, hbounds⟩ := h
  refine ⟨htyped, ?_⟩
  split at hbounds
  · next lo hi hlo hhi => exact ⟨lo, hi, hlo, hhi, of_decide_eq_true hbounds⟩
  · exact Bool.noConfusion hbounds

structure SearchRule.Admits (rule : SearchRule) (v : Json) : Prop where
  typed : rule.typed v = true
  lo_le : numLe rule.lo.value v.value = true
  le_hi : numLe v.value rule.hi.value = true

theorem numLt_asymm {a b : Value} (h : numLt a b = true) : numLt b a = false := by
  cases a <;> cases b <;> simp_all [numLt]
  exact h.le

theorem within_iff (hrule : rule.wellFormed = true) (hv : v.value ≠ .nan)
    (hnumber : rule.typed v = true) :
    rule.within v = true ↔ numLe rule.lo.value v.value = true ∧
      numLe v.value rule.hi.value = true := by
  obtain ⟨-, lo, hi, hlo, hhi, -⟩ := SearchRule.bounds hrule
  rw [SearchRule.within, hlo, hhi, Bool.and_eq_true, Bool.not_eq_true', Bool.not_eq_true']
  cases v with
  | int i => simp [Json.value, numLt, numLe]
  | float x =>
    cases x with
    | finite x => simp [Json.value, PyFloat.value, numLt, numLe]
    | infinite neg => cases neg <;> simp [Json.value, PyFloat.value, numLt, numLe]
    | nan => exact absurd rfl hv
  | _ => exact Bool.noConfusion hnumber

theorem clamp_cases (h : rule.within v = false) :
    rule.clamp v = rule.lo ∨ rule.clamp v = rule.hi := by
  rw [SearchRule.within, Bool.and_eq_false_iff, Bool.not_eq_false', Bool.not_eq_false'] at h
  unfold SearchRule.clamp pyMin
  rcases h with hlow | hhigh
  · split
    · rw [pyMax, numLt_asymm hlow, if_neg Bool.false_ne_true]
      exact .inl rfl
    · unfold pyMax
      split
      · exact .inr rfl
      · exact .inl rfl
  · rw [numLt_asymm hhigh, if_neg Bool.false_ne_true]
    unfold pyMax
    split
    · exact .inr rfl
    · exact .inl rfl

theorem admits_bounds (h : rule.wellFormed = true) :
    rule.Admits rule.lo ∧ rule.Admits rule.hi := by
  obtain ⟨⟨hlotyped, hhityped⟩, lo, hi, hlo, hhi, hle⟩ := SearchRule.bounds h
  have hordered : numLe (.number lo) (.number hi) = true := decide_eq_true hle
  refine ⟨⟨hlotyped, ?_, ?_⟩, hhityped, ?_, ?_⟩
  · rw [hlo]
    exact decide_eq_true le_rfl
  · rwa [hlo, hhi]
  · rwa [hlo, hhi]
  · rw [hhi]
    exact decide_eq_true le_rfl

theorem SearchRule.Admits.within (hrule : rule.wellFormed = true) (h : rule.Admits v) :
    rule.within v = true := by
  have hnan : v.value ≠ .nan := by
    intro hnan
    have hle := h.lo_le
    rw [hnan] at hle
    cases hlo : rule.lo.value <;> rw [hlo] at hle <;> exact Bool.noConfusion hle
  exact (within_iff hrule hnan h.typed).mpr ⟨h.lo_le, h.le_hi⟩

/-- No bool that an int rule lets through, no int too large for a float, no NaN for a float. -/
structure SearchRule.Sane (rule : SearchRule) (v : Json) : Prop where
  bool : ∀ b, v = .bool b → rule.isFloat = false → rule.within v = false
  float : ∃ w, toFloat rule v = .ok w
  nan : rule.isFloat = true → v ≠ .float .nan

theorem toFloat_of_typed (h : rule.typed v = true) : toFloat rule v = .ok v := by
  cases v with
  | int i =>
    have hint : rule.isFloat = false := by simpa [SearchRule.typed] using h
    rw [toFloat, hint]
  | float x =>
    unfold toFloat
    rw [Json.asInt.eq_def]
    cases rule.isFloat <;> rfl
  | _ => exact Bool.noConfusion h

theorem isInstance_of_typed (h : rule.typed v = true) : rule.isInstance v = true := by
  cases v with
  | int _ => exact h
  | float _ => exact h
  | _ => exact Bool.noConfusion h

theorem sanitiseEntry_same (hkey : searchProfileRules.lookup key = some rule)
    (hfloat : toFloat rule v = .ok w) (hinstance : rule.isInstance w = true)
    (hwithin : rule.within w = true) : sanitiseEntry key v = .ok (some w) := by
  unfold sanitiseEntry
  rw [hkey]
  dsimp only
  rw [bind_of_ok hfloat, if_pos hinstance, if_pos hwithin]

theorem toFloat_ok (hkey : searchProfileRules.lookup key = some rule)
    (h : ∃ kept, sanitiseEntry key v = .ok kept) : ∃ w, toFloat rule v = .ok w := by
  obtain ⟨kept, hkept⟩ := h
  unfold sanitiseEntry at hkept
  rw [hkey] at hkept
  obtain ⟨w, hw, -⟩ := ok_of_bind hkept
  exact ⟨w, hw⟩

theorem asFloat_of_typed (h : rule.typed v = true) : asFloat rule v = .ok v := by
  cases v with
  | int i =>
    have hint : rule.isFloat = false := by simpa [SearchRule.typed] using h
    rw [asFloat.eq_def, hint]
  | float x =>
    rw [asFloat.eq_def]
    cases rule.isFloat <;> rfl
  | _ => exact Bool.noConfusion h

theorem checkEntry_of_admits (hkey : searchProfileRules.lookup key = some rule)
    (htyped : rule.typed v = true) (hwithin : rule.within v = true) :
    checkEntry env key v = .ok () := by
  unfold checkEntry
  rw [hkey]
  dsimp only
  rw [bind_of_ok (asFloat_of_typed htyped), checkBounds, if_pos htyped, if_pos hwithin]

theorem of_checkEntry (h : checkEntry env key v = .ok ()) :
    ∃ rule w, searchProfileRules.lookup key = some rule ∧ asFloat rule v = .ok w ∧
      rule.typed w = true ∧ rule.within w = true := by
  unfold checkEntry at h
  split at h
  · exact nomatch h
  · next rule hkey =>
    obtain ⟨w, hw, h⟩ := ok_of_bind h
    unfold checkBounds at h
    split at h
    · next htyped =>
      split at h
      · next hwithin => exact ⟨rule, w, hkey, hw, htyped, hwithin⟩
      · exact nomatch h
    · exact nomatch h

theorem sanitiseEntry_of_asFloat (hkey : searchProfileRules.lookup key = some rule)
    (hw : asFloat rule v = .ok w) (htyped : rule.typed w = true) (hwithin : rule.within w = true) :
    sanitiseEntry key v = .ok (some w) := by
  -- The sanitiser makes of such a value what the strict check made of it.
  have hfloat : toFloat rule v = .ok w := by
    cases v with
    | int i =>
      unfold toFloat
      cases hrule : rule.isFloat with
      | true => exact hw
      | false =>
        rw [asFloat.eq_def, hrule] at hw
        exact hw
    | bool b =>
      rw [asFloat.eq_def] at hw
      cases hrule : rule.isFloat <;> rw [hrule] at hw <;>
      · obtain rfl := Except.ok.inj hw
        exact Bool.noConfusion htyped
    | _ =>
      rw [asFloat.eq_def] at hw
      unfold toFloat
      cases hrule : rule.isFloat <;> rw [hrule] at hw <;> exact hw
  exact sanitiseEntry_same hkey hfloat (isInstance_of_typed htyped) hwithin

theorem typed_of_toFloat (hsane : rule.Sane v) (hw : toFloat rule v = .ok w)
    (hinstance : rule.isInstance w = true) (hwithin : rule.within w = true) :
    rule.typed w = true ∧ w.value ≠ .nan := by
  -- What the sanitiser keeps as it is, is of the rule's type and no NaN.
  unfold toFloat at hw
  split at hw
  · next i hrule _ =>
    rw [asFloat.eq_def, hrule] at hw
    dsimp only at hw
    split at hw
    · obtain rfl := Except.ok.inj hw
      refine ⟨hrule, ?_⟩
      rw [Json.value, PyFloat.value]
      exact Value.noConfusion
    · cases hw
  · next hnot =>
    obtain rfl := Except.ok.inj hw
    cases v with
    | int i =>
      refine ⟨hinstance, ?_⟩
      rw [Json.value]
      exact Value.noConfusion
    | bool b =>
      have hint : rule.isFloat = false := by simpa [SearchRule.isInstance] using hinstance
      rw [hsane.bool b rfl hint] at hwithin
      exact Bool.noConfusion hwithin
    | float x =>
      refine ⟨hinstance, ?_⟩
      cases x with
      | nan => exact absurd rfl (hsane.nan hinstance)
      | _ =>
        rw [Json.value, PyFloat.value]
        exact Value.noConfusion
    | _ => exact Bool.noConfusion hinstance

theorem sanitiseEntry_admits (hkey : searchProfileRules.lookup key = some rule)
    (hsane : rule.Sane v) :
    sanitiseEntry key v = .ok none ∨ ∃ w, sanitiseEntry key v = .ok (some w) ∧ rule.Admits w := by
  -- A sane value leaves one that the rule admits, or nothing.
  obtain ⟨w, hw⟩ := hsane.float
  have hrule := wellFormed_of_lookup hkey
  unfold sanitiseEntry
  rw [hkey]
  dsimp only
  rw [bind_of_ok hw]
  split
  · next hinstance =>
    refine .inr ?_
    split
    · next hwithin =>
      obtain ⟨htyped, hnan⟩ := typed_of_toFloat hsane hw hinstance hwithin
      obtain ⟨hlo, hhi⟩ := (within_iff hrule hnan htyped).mp hwithin
      exact ⟨w, rfl, htyped, hlo, hhi⟩
    · next hout =>
      refine ⟨_, rfl, ?_⟩
      rcases clamp_cases (Bool.eq_false_iff.mpr hout) with hclamp | hclamp
      · rw [hclamp]
        exact (admits_bounds hrule).1
      · rw [hclamp]
        exact (admits_bounds hrule).2
  · exact .inl rfl

def keptEntry (field : String × Json) : Option (String × Json) :=
  match sanitiseEntry field.1 field.2 with
  | .ok kept => kept.map fun v => (field.1, v)
  | .error _ => none

theorem set_fresh {d : Dict} (h : Dict.find d key = none) : Dict.set d key v = d ++ [(key, v)] := by
  induction d with
  | nil => rfl
  | cons field d ih =>
    obtain ⟨k, w⟩ := field
    rw [Dict.find] at h
    split at h
    · exact nomatch h
    · next hne => rw [Dict.set, if_neg hne, ih h, List.cons_append]

/-- Where no entry raises, the sanitiser returns what it keeps of the entries, in their order. -/
theorem sanitiseEntries_eq {profile cleaned : Dict} (hkeys : (profile.map Prod.fst).Nodup)
    (hfresh : ∀ field ∈ profile, Dict.find cleaned field.1 = none)
    (hok : ∀ field ∈ profile, ∃ kept, sanitiseEntry field.1 field.2 = .ok kept) :
    sanitiseEntries cleaned profile = .ok (cleaned ++ profile.filterMap keptEntry) := by
  induction profile generalizing cleaned with
  | nil => rw [sanitiseEntries, List.filterMap_nil, List.append_nil]
  | cons field profile ih =>
    obtain ⟨k, v⟩ := field
    obtain ⟨hk, hkeys⟩ := List.nodup_cons.mp hkeys
    obtain ⟨kept, hkept⟩ := hok (k, v) List.mem_cons_self
    have hrest := fun field hmem => hok field (List.mem_cons_of_mem (k, v) hmem)
    rw [sanitiseEntries, bind_of_ok hkept, List.filterMap_cons, keptEntry, hkept]
    cases kept with
    | none => exact ih hkeys (fun field hmem => hfresh field (List.mem_cons_of_mem _ hmem)) hrest
    | some w =>
      have hfresh' : ∀ field ∈ profile, Dict.find (Dict.set cleaned k w) field.1 = none := by
        intro field hmem
        have hin : field.1 ∈ profile.map Prod.fst := List.mem_map_of_mem hmem
        have hne : k ≠ field.1 := fun heq => hk (heq ▸ hin)
        rw [Dict.find_set, if_neg hne]
        exact hfresh field (List.mem_cons_of_mem _ hmem)
      refine (ih hkeys hfresh' hrest).trans ?_
      rw [set_fresh (hfresh (k, v) List.mem_cons_self), List.append_assoc]
      rfl

theorem of_sanitiseEntries {profile cleaned s : Dict} (h : sanitiseEntries cleaned profile = .ok s)
    {field : String × Json} (hfield : field ∈ profile) :
    ∃ kept, sanitiseEntry field.1 field.2 = .ok kept := by
  induction profile generalizing cleaned with
  | nil => exact absurd hfield List.not_mem_nil
  | cons other profile ih =>
    obtain ⟨k, v⟩ := other
    rw [sanitiseEntries] at h
    obtain ⟨kept, hkept, h⟩ := ok_of_bind h
    rcases List.mem_cons.mp hfield with rfl | hfield
    · exact ⟨kept, hkept⟩
    · cases kept with
      | none => exact ih h hfield
      | some w => exact ih h hfield

theorem checkEntries_iff {profile : Dict} : checkEntries env profile = .ok () ↔
    ∀ field ∈ profile, checkEntry env field.1 field.2 = .ok () := by
  induction profile with
  | nil => simp [checkEntries]
  | cons field profile ih =>
    obtain ⟨k, v⟩ := field
    rw [List.forall_mem_cons, ← ih, checkEntries]
    constructor
    · intro h
      obtain ⟨_, hentry, hrest⟩ := ok_of_bind h
      exact ⟨hentry, hrest⟩
    · rintro ⟨hentry, hrest⟩
      rw [bind_of_ok hentry, hrest]

def asDefault (profile : Dict) : Dict := [("search", .obj [("default_profile", .obj profile)])]

def known (profile : Dict) : Dict :=
  profile.filter fun field => (searchProfileRules.lookup field.1).isSome

def Converted (profile s : Dict) : Prop :=
  List.Forall₂ (fun field field' => field'.1 = field.1 ∧ ∃ rule,
    searchProfileRules.lookup field.1 = some rule ∧ asFloat rule field.2 = .ok field'.2) profile s

/-- The two checks agree on a profile: what the strict one accepts the sanitiser leaves; the known
part of what the sanitiser makes is accepted by the strict one and left by the sanitiser; and each
known entry that it makes is of its type and in its range. -/
structure Agreement (env : SettingsEnv) (profile : Dict) : Prop where
  kept : validateDefaultSearchProfile env (asDefault profile) = .ok () →
    ∃ s, validateSearchProfile profile = .ok s ∧ Converted profile s
  accepted : ∃ s, validateSearchProfile profile = .ok s ∧
    validateDefaultSearchProfile env (asDefault (known s)) = .ok () ∧
      validateSearchProfile (known s) = .ok (known s)
  scored : ∀ s, validateSearchProfile profile = .ok s → ∀ key v, (key, v) ∈ s →
    ∀ rule, searchProfileRules.lookup key = some rule → rule.Admits v

section Agreement

variable {profile : Dict}

theorem validateSearchProfile_eq (hd : Json.distinctFields profile = true)
    (hok : ∀ field ∈ profile, ∃ kept, sanitiseEntry field.1 field.2 = .ok kept) :
    validateSearchProfile profile = .ok (profile.filterMap keptEntry) :=
  sanitiseEntries_eq (Json.nodup_keys hd) (fun _ _ => rfl) hok

theorem converted_of_strict (hd : Json.distinctFields profile = true)
    (h : checkEntries env profile = .ok ()) :
    ∃ s, validateSearchProfile profile = .ok s ∧ Converted profile s := by
  have hentry : ∀ field ∈ profile, ∃ rule w, searchProfileRules.lookup field.1 = some rule ∧
      asFloat rule field.2 = .ok w ∧ sanitiseEntry field.1 field.2 = .ok (some w) := by
    intro field hfield
    obtain ⟨rule, w, hkey, hw, htyped, hwithin⟩ := of_checkEntry (checkEntries_iff.mp h field hfield)
    exact ⟨rule, w, hkey, hw, sanitiseEntry_of_asFloat hkey hw htyped hwithin⟩
  refine ⟨_, validateSearchProfile_eq hd fun field hfield => ?_, ?_⟩
  · obtain ⟨rule, w, -, -, hkept⟩ := hentry field hfield
    exact ⟨some w, hkept⟩
  · clear h hd
    induction profile with
    | nil => exact .nil
    | cons field profile ih =>
      obtain ⟨rule, w, hkey, hw, hkept⟩ := hentry field List.mem_cons_self
      have hfield : keptEntry field = some (field.1, w) := by
        rw [keptEntry, hkept]
        rfl
      rw [List.filterMap_cons_some hfield]
      refine .cons ⟨rfl, rule, hkey, hw⟩ (ih fun field hfield => ?_)
      exact hentry field (List.mem_cons_of_mem _ hfield)

/-- Every value that a rule speaks of is sane for it. -/
def SaneProfile (profile : Dict) : Prop :=
  ∀ field ∈ profile, ∀ rule, searchProfileRules.lookup field.1 = some rule → rule.Sane field.2

theorem sanitiseEntry_ok (h : SaneProfile profile) {field : String × Json}
    (hfield : field ∈ profile) : ∃ kept, sanitiseEntry field.1 field.2 = .ok kept := by
  cases hkey : searchProfileRules.lookup field.1 with
  | none =>
    refine ⟨some field.2, ?_⟩
    unfold sanitiseEntry
    rw [hkey]
  | some rule =>
    obtain hnone | ⟨w, hw, -⟩ := sanitiseEntry_admits hkey (h field hfield rule hkey)
    · exact ⟨none, hnone⟩
    · exact ⟨some w, hw⟩

theorem kept_admits (h : SaneProfile profile) {field : String × Json}
    (hfield : field ∈ profile.filterMap keptEntry) {rule : SearchRule}
    (hkey : searchProfileRules.lookup field.1 = some rule) : rule.Admits field.2 := by
  obtain ⟨source, hsource, hkept⟩ := List.mem_filterMap.mp hfield
  unfold keptEntry at hkept
  split at hkept
  · next kept hentry =>
    obtain ⟨w, rfl, rfl⟩ := Option.map_eq_some_iff.mp hkept
    obtain hnone | ⟨w', hw', hadmits⟩ :=
      sanitiseEntry_admits hkey (h source hsource rule hkey)
    · rw [hnone] at hentry
      exact nomatch hentry
    · rw [hw'] at hentry
      rw [← Option.some.inj (Except.ok.inj hentry)]
      exact hadmits
  · exact nomatch hkept

theorem accepted_of_admits (env : SettingsEnv) (hkeys : (profile.map Prod.fst).Nodup)
    (h : ∀ field ∈ profile, ∃ rule, searchProfileRules.lookup field.1 = some rule ∧
      rule.Admits field.2) :
    checkEntries env profile = .ok () ∧ validateSearchProfile profile = .ok profile := by
  have hkept : ∀ field ∈ profile, sanitiseEntry field.1 field.2 = .ok (some field.2) := by
    intro field hfield
    obtain ⟨rule, hkey, hadmits⟩ := h field hfield
    exact sanitiseEntry_same hkey (toFloat_of_typed hadmits.typed)
      (isInstance_of_typed hadmits.typed) (hadmits.within (wellFormed_of_lookup hkey))
  constructor
  · refine checkEntries_iff.mpr fun field hfield => ?_
    obtain ⟨rule, hkey, hadmits⟩ := h field hfield
    exact checkEntry_of_admits hkey hadmits.typed (hadmits.within (wellFormed_of_lookup hkey))
  · have hall : profile.filterMap keptEntry = profile := by
      refine (List.filterMap_congr fun field hfield => ?_).trans List.filterMap_some
      rw [keptEntry, hkept field hfield]
      rfl
    refine (sanitiseEntries_eq hkeys (fun _ _ => rfl)
      fun field hfield => ⟨_, hkept field hfield⟩).trans ?_
    rw [hall, List.nil_append]

theorem keys_kept (profile : Dict) :
    ((profile.filterMap keptEntry).map Prod.fst).Sublist (profile.map Prod.fst) := by
  induction profile with
  | nil => exact .slnil
  | cons field profile ih =>
    rw [List.filterMap_cons]
    split
    · exact ih.cons _
    · next kept hkept =>
      have hsame : kept.1 = field.1 := by
        unfold keptEntry at hkept
        split at hkept
        · obtain ⟨w, -, rfl⟩ := Option.map_eq_some_iff.mp hkept
          rfl
        · exact nomatch hkept
      rw [List.map_cons, List.map_cons, hsame]
      exact ih.cons_cons _

/-- The two checks agree on a profile exactly where its values are sane. -/
theorem agreement_iff (env : SettingsEnv) (profile : Dict)
    (hd : Json.distinctFields profile = true) :
    Agreement env profile ↔ SaneProfile profile := by
  constructor
  · rintro ⟨-, ⟨s, hs, -⟩, hscored⟩ field hfield rule hkey
    have hok : ∀ field ∈ profile, ∃ kept, sanitiseEntry field.1 field.2 = .ok kept :=
      fun field hfield => of_sanitiseEntries hs hfield
    obtain rfl := Except.ok.inj ((validateSearchProfile_eq hd hok).symm.trans hs)
    have hsame : toFloat rule field.2 = .ok field.2 → rule.isInstance field.2 = true →
        rule.within field.2 = true → rule.Admits field.2 := by
      intro hfloat hinstance hwithin
      refine hscored _ hs field.1 field.2 (List.mem_filterMap.mpr ⟨field, hfield, ?_⟩) rule hkey
      rw [keptEntry, sanitiseEntry_same hkey hfloat hinstance hwithin]
      rfl
    refine ⟨fun b hb hint => ?_, toFloat_ok hkey (hok field hfield), fun hfloat hnan => ?_⟩
    · by_contra hwithin
      rw [hb] at hsame hwithin
      have htrue : rule.isInstance (.bool b) = true := by simp [SearchRule.isInstance, hint]
      have hadmits := hsame (by rw [toFloat, hint]) htrue (Bool.not_eq_false _ ▸ hwithin)
      exact Bool.noConfusion hadmits.typed
    · rw [hnan] at hsame
      obtain ⟨-, lo, hi, hlo, hhi, -⟩ := SearchRule.bounds (wellFormed_of_lookup hkey)
      have hwithin : rule.within (.float .nan) = true := by
        rw [SearchRule.within, hlo, hhi]
        rfl
      have hadmits := hsame (by rw [toFloat, hfloat]; rfl) hfloat hwithin
      have hle := hadmits.lo_le
      rw [hlo] at hle
      exact Bool.noConfusion hle
  · intro h
    have hs := validateSearchProfile_eq hd fun field hfield => sanitiseEntry_ok h hfield
    have hadmits : ∀ field ∈ known (profile.filterMap keptEntry), ∃ rule,
        searchProfileRules.lookup field.1 = some rule ∧ rule.Admits field.2 := by
      intro field hfield
      obtain ⟨hmem, hknown⟩ := List.mem_filter.mp hfield
      obtain ⟨rule, hkey⟩ := Option.isSome_iff_exists.mp hknown
      exact ⟨rule, hkey, kept_admits h hmem hkey⟩
    have hkeys : ((known (profile.filterMap keptEntry)).map Prod.fst).Nodup :=
      ((Json.nodup_keys hd).sublist (keys_kept profile)).sublist (List.filter_sublist.map _)
    obtain ⟨hstrict, hfixed⟩ := accepted_of_admits env hkeys hadmits
    refine ⟨converted_of_strict hd, ⟨_, hs, hstrict, hfixed⟩, fun s' hs' key v hmem rule hkey => ?_⟩
    obtain rfl := Except.ok.inj (hs.symm.trans hs')
    exact kept_admits h hmem hkey

end Agreement

def sampleProfile : Dict := [("top_k", .int 8), ("min_similarity", .int 2), ("label", .str "x")]

def plainEnv : SettingsEnv := ⟨fun _ => true, fun _ => none⟩

theorem agreement_iff_sample : Agreement plainEnv sampleProfile ↔ SaneProfile sampleProfile :=
  agreement_iff plainEnv sampleProfile (by decide)

/-- A bool that counts as an int in range reaches the scorer. -/
theorem not_agreement_bool : ¬ Agreement plainEnv [("top_k", .bool true)] := by
  intro h
  have hs : validateSearchProfile [("top_k", .bool true)] = .ok [("top_k", .bool true)] := by rfl
  have hadmits : SearchRule.Admits ⟨false, .int 1, .int 20⟩ (.bool true) :=
    h.scored _ hs "top_k" (.bool true) List.mem_cons_self _ rfl
  exact Bool.noConfusion hadmits.typed

end Memclaw.Settings

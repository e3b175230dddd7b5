import Mathlib.Algebra.Order.Ring.Unbundled.Rat
import Memclaw.Settings.Serial
import Memclaw.Settings.Validate

/-! Histories of `update_settings`: what the checks accept keeps the stored settings valid. -/

namespace Memclaw.Settings

open Memclaw.Lib Memclaw.Lib.Interleave

variable {floats : JsonbFloats} {env : SettingsEnv}

theorem validateSettings_raises {p : Payload} (hplain : NoObjects p.fields)
    (hfloat : Floatable p.fields) (henv : env.CronOk) {raised : Raised}
    (h : validateSettings env p.fields = .error raised) : raised.isValueError = true := by
  rw [validateSettings] at h
  obtain h | ⟨_, hkeys, h⟩ := error_of_bind h
  · exact checkKeys_raises h
  obtain h | ⟨_, hleaf, h⟩ := error_of_bind h
  · exact validateLeafTypes_raises h
  have hp := Shaped.of_checks hkeys hleaf hplain
  obtain h | ⟨_, -, h⟩ := error_of_bind h
  · exact validateGovernanceEnums_raises hp h
  obtain h | ⟨_, -, h⟩ := error_of_bind h
  · exact validateDefaultSearchProfile_raises hp hfloat h
  · exact checkCron_raises hp henv h

theorem walk_parent {p : Dict} (keys : List String) {key : String} {v : Json}
    (h : (Json.obj p).walk (keys ++ [key]) = some v) :
    ∃ d, (Json.obj p).walk keys = some (.obj d) := by
  rw [Json.walk_append] at h
  obtain ⟨w, hw, hv⟩ := Option.bind_eq_some_iff.mp h
  cases w with
  | obj d => exact ⟨d, hw⟩
  | _ => exact absurd hv (by simp [Json.walk])

theorem get_of_walk {p d : Dict} {keys : List String} {key : String} {v : Json}
    (hd : (Json.obj p).walk keys = some (.obj d))
    (hv : (Json.obj p).walk (keys ++ [key]) = some v) : Dict.get d key = v := by
  rw [walk_snoc hd] at hv
  rw [Dict.get, hv, Option.getD_some]

theorem subDict_of_walk {p d inner : Dict} {keys : List String} {key : String}
    (hd : (Json.obj p).walk keys = some (.obj d))
    (hinner : (Json.obj p).walk (keys ++ [key]) = some (.obj inner)) :
    subDict d key = .ok inner := by
  rw [walk_snoc hd] at hinner
  rw [subDict, hinner]

theorem enumAllowed_of_checkEnum {path : String} {allowed : List String} {v : Json}
    (h : checkEnum env path allowed v = .ok ()) : EnumAllowed allowed v := by
  rw [checkEnum] at h
  split at h
  · rename_i hnull
    exact .inl hnull
  · cases v with
    | str s =>
      simp only [Json.inSet] at h
      split at h
      · exact absurd h (by simp)
      · rename_i hin
        exact .inr ⟨s, List.contains_iff_mem.mp (Option.some.inj hin), rfl⟩
      · exact absurd h (by simp)
    | _ => exact absurd h (by simp [Json.inSet])

theorem confidenceAllowed_of_check {v : Json} (h : checkConfidence env v = .ok ()) :
    ConfidenceAllowed v := by
  cases v with
  | null => exact .inl rfl
  | bool b => exact .inr (Bool.and_eq_true_iff.mp (of_test_ok h))
  | int i => exact .inr (Bool.and_eq_true_iff.mp (of_test_ok h))
  | float x => exact .inr (Bool.and_eq_true_iff.mp (of_test_ok h))
  | _ => exact absurd h (by simp [checkConfidence])

theorem validateGovernance_ok {gov : Dict} (h : validateGovernance env gov = .ok ()) :
    ∃ pii nb pregate, subDict gov "pii" = .ok pii ∧ subDict gov "non_business" = .ok nb ∧
      subDict nb "pregate" = .ok pregate ∧ EnumAllowed piiActions (Dict.get pii "action") ∧
        EnumAllowed nonBusinessDispositions (Dict.get nb "disposition") ∧
          EnumAllowed pregateProviders (Dict.get pregate "provider") ∧
            ConfidenceAllowed (Dict.get pregate "min_confidence") := by
  rw [validateGovernance] at h
  obtain ⟨pii, hpii, h⟩ := ok_of_bind h
  obtain ⟨_, haction, h⟩ := ok_of_bind h
  obtain ⟨nb, hnb, h⟩ := ok_of_bind h
  obtain ⟨_, hdisposition, h⟩ := ok_of_bind h
  obtain ⟨pregate, hpregate, h⟩ := ok_of_bind h
  obtain ⟨_, hprovider, hconfidence⟩ := ok_of_bind h
  exact ⟨pii, nb, pregate, hpii, hnb, hpregate, enumAllowed_of_checkEnum haction,
    enumAllowed_of_checkEnum hdisposition, enumAllowed_of_checkEnum hprovider,
    confidenceAllowed_of_check hconfidence⟩

theorem validateGovernance_of_walk {p gov : Dict} (h : validateGovernanceEnums env p = .ok ())
    (hgov : (Json.obj p).walk ["governance"] = some (.obj gov)) :
    validateGovernance env gov = .ok () := by
  have hwalk : (Json.obj p).walk ([] ++ ["governance"]) = some (.obj gov) := hgov
  have hget : Dict.get p "governance" = .obj gov := get_of_walk (Json.walk_nil (.obj p)) hwalk
  rwa [validateGovernanceEnums, hget] at h

def SearchRule.bounded (rule : SearchRule) : Bool :=
  match rule.lo.value, rule.hi.value with
  | .number lo, .number hi => -1000 ≤ lo && hi ≤ 1000
  | _, _ => false

theorem bounded_of_lookup {key : String} {rule : SearchRule}
    (h : searchProfileRules.lookup key = some rule) : rule.bounded = true := by
  have hall : (searchProfileRules.all fun entry => entry.2.bounded) = true := by decide +kernel
  obtain ⟨front, back, hsplit, -⟩ := List.lookup_eq_some_iff.mp h
  exact List.all_eq_true.mp hall (key, rule) (by rw [hsplit]; simp)

theorem bounds_of_lookup {key : String} {rule : SearchRule}
    (h : searchProfileRules.lookup key = some rule) :
    ∃ lo hi : ℚ, rule.lo.value = .number lo ∧ rule.hi.value = .number hi ∧ -1000 ≤ lo ∧
      hi ≤ 1000 := by
  have hbounded := bounded_of_lookup h
  rw [SearchRule.bounded] at hbounded
  split at hbounded
  · rename_i lo hi hlo hhi
    rw [Bool.and_eq_true, decide_eq_true_eq, decide_eq_true_eq] at hbounded
    exact ⟨lo, hi, hlo, hhi, hbounded⟩
  · exact Bool.noConfusion hbounded

theorem checkEntries_entry {profile : Dict} (h : checkEntries env profile = .ok ()) {key : String}
    {v : Json} (hv : Dict.find profile key = some v) : checkEntry env key v = .ok () :=
  field_of_loop (checkEntry env) (fun _ _ _ => by rw [checkEntries]) h hv

theorem value_of_typed {rule : SearchRule} {v w : Json}
    (hfinite : ∀ x, v = .float x → x.isFinite = true) (hw : asFloat rule v = .ok w)
    (htyped : rule.typed w = true) : ∃ q : ℚ, w.value = .number q := by
  have hsame : v = w → ∃ q : ℚ, w.value = .number q := by
    rintro rfl
    cases v with
    | int i => exact ⟨i, by rw [Json.value]⟩
    | float x =>
      have hx := hfinite x rfl
      cases x with
      | finite x => exact ⟨x.toRat, by rw [Json.value]; rfl⟩
      | _ => exact Bool.noConfusion hx
    | _ => exact Bool.noConfusion htyped
  rw [asFloat.eq_def] at hw
  split at hw
  · split at hw
    · rename_i x _
      obtain rfl := Except.ok.inj hw
      exact ⟨x.toRat, by rw [Json.value]; rfl⟩
    · exact absurd hw (by simp)
  · exact hsame (Except.ok.inj hw)

theorem numLe_of_not_numLt {p q : ℚ} (h : numLt (.number q) (.number p) = false) :
    numLe (.number p) (.number q) = true := by
  rw [numLt, decide_eq_false_iff_not] at h
  rw [numLe, decide_eq_true_eq]
  exact not_lt.mp h

theorem entryAllowed_of_checkEntry {key : String} {v : Json}
    (hfinite : ∀ x, v = .float x → x.isFinite = true) (h : checkEntry env key v = .ok ()) :
    EntryAllowed key v := by
  rw [checkEntry] at h
  split at h
  · exact absurd h (by simp)
  · rename_i rule hrule
    obtain ⟨w, hw, h⟩ := ok_of_bind h
    obtain ⟨lo, hi, hlo, hhi, -, -⟩ := bounds_of_lookup hrule
    refine ⟨rule, hrule, w, hw, ?_⟩
    rw [checkBounds] at h
    split at h
    · rename_i htyped
      obtain ⟨q, hq⟩ := value_of_typed hfinite hw htyped
      split at h
      · rename_i hwithin
        rw [SearchRule.within, Bool.and_eq_true, Bool.not_eq_true', Bool.not_eq_true', hlo, hhi, hq]
          at hwithin
        rw [hlo, hhi, hq]
        exact ⟨htyped, numLe_of_not_numLt hwithin.1, numLe_of_not_numLt hwithin.2⟩
      · exact absurd h (by simp)
    · exact absurd h (by simp)

theorem Payload.finite_of_walk (p : Payload) {keys : List String} {x : PyFloat}
    (h : p.json.walk keys = some (.float x)) : x.isFinite = true := by
  have hmem : x ∈ p.json.floatLeaves := Json.floatLeaves_walk h (by simp [Json.floatLeaves])
  rw [Payload.json, Json.floatLeaves] at hmem
  exact List.all_eq_true.mp p.finite x hmem

theorem entryAllowed_of_validate {p : Payload}
    (h : validateDefaultSearchProfile env p.fields = .ok ()) {key : String} {v : Json}
    (hv : (Json.obj p.fields).walk ["search", "default_profile", key] = some v) :
    EntryAllowed key v := by
  have hkeys : (Json.obj p.fields).walk (["search", "default_profile"] ++ [key]) = some v := hv
  obtain ⟨profile, hprofile⟩ := walk_parent _ hkeys
  have hparent :
      (Json.obj p.fields).walk (["search"] ++ ["default_profile"]) = some (.obj profile) := hprofile
  obtain ⟨search, hsearch⟩ := walk_parent _ hparent
  have htop : (Json.obj p.fields).walk ([] ++ ["search"]) = some (.obj search) := hsearch
  rw [validateDefaultSearchProfile, bind_of_ok (subDict_of_walk (Json.walk_nil _) htop),
    get_of_walk hsearch hparent] at h
  have hfind : Dict.find profile key = some v := by rw [← walk_snoc hprofile, hkeys]
  refine entryAllowed_of_checkEntry ?_ (checkEntries_entry h hfind)
  rintro x rfl
  exact p.finite_of_walk hv

theorem validateGovernanceEnums_ok {p : Dict} (h : validateGovernanceEnums env p = .ok ()) :
    (∀ v, (Json.obj p).walk ["governance", "pii", "action"] = some v → EnumAllowed piiActions v) ∧
    (∀ v, (Json.obj p).walk ["governance", "non_business", "disposition"] = some v →
      EnumAllowed nonBusinessDispositions v) ∧
    (∀ v, (Json.obj p).walk ["governance", "non_business", "pregate", "provider"] = some v →
      EnumAllowed pregateProviders v) ∧
    ∀ v, (Json.obj p).walk ["governance", "non_business", "pregate", "min_confidence"] = some v →
      ConfidenceAllowed v := by
  -- The checked sections of governance, as far as a payload has them.
  -- the objects on the way to a value are the ones that the checks went through
  have hsection : ∀ {key : String} {d : Dict},
      (Json.obj p).walk (["governance"] ++ [key]) = some (.obj d) →
        ∃ gov, (Json.obj p).walk ["governance"] = some (.obj gov) ∧ subDict gov key = .ok d ∧
          validateGovernance env gov = .ok () := by
    intro key d hd
    obtain ⟨gov, hgov⟩ := walk_parent _ hd
    exact ⟨gov, hgov, subDict_of_walk hgov hd, validateGovernance_of_walk h hgov⟩
  have hpregate : ∀ {d : Dict},
      (Json.obj p).walk (["governance", "non_business"] ++ ["pregate"]) = some (.obj d) →
        EnumAllowed pregateProviders (Dict.get d "provider") ∧
          ConfidenceAllowed (Dict.get d "min_confidence") := by
    intro d hd
    obtain ⟨nb, hnb⟩ := walk_parent _ hd
    obtain ⟨gov, -, hsub, hok⟩ := hsection hnb
    obtain ⟨_, nb', pregate, -, hnb', hpregate, -, -, hprovider, hconfidence⟩ :=
      validateGovernance_ok hok
    obtain rfl := Except.ok.inj (hsub.symm.trans hnb')
    obtain rfl := Except.ok.inj ((subDict_of_walk hnb hd).symm.trans hpregate)
    exact ⟨hprovider, hconfidence⟩
  refine ⟨fun v hv => ?_, fun v hv => ?_, fun v hv => ?_, fun v hv => ?_⟩
  · obtain ⟨pii, hpii⟩ := walk_parent ["governance", "pii"] hv
    obtain ⟨gov, -, hsub, hok⟩ := hsection hpii
    obtain ⟨pii', _, _, hpii', -, -, haction, -, -, -⟩ := validateGovernance_ok hok
    obtain rfl := Except.ok.inj (hsub.symm.trans hpii')
    rwa [get_of_walk hpii hv] at haction
  · obtain ⟨nb, hnb⟩ := walk_parent ["governance", "non_business"] hv
    obtain ⟨gov, -, hsub, hok⟩ := hsection hnb
    obtain ⟨_, nb', _, -, hnb', -, -, hdisposition, -, -⟩ := validateGovernance_ok hok
    obtain rfl := Except.ok.inj (hsub.symm.trans hnb')
    rwa [get_of_walk hnb hv] at hdisposition
  · obtain ⟨d, hd⟩ := walk_parent ["governance", "non_business", "pregate"] hv
    have hprovider := (hpregate hd).1
    rwa [get_of_walk hd hv] at hprovider
  · obtain ⟨d, hd⟩ := walk_parent ["governance", "non_business", "pregate"] hv
    have hconfidence := (hpregate hd).2
    rwa [get_of_walk hd hv] at hconfidence

theorem Valid.of_checks {p : Payload} (hplain : NoObjects p.fields)
    (h : validateSettings env p.fields = .ok ()) : Valid p.fields := by
  rw [validateSettings] at h
  obtain ⟨_, hkeys, h⟩ := ok_of_bind h
  obtain ⟨_, hleaf, h⟩ := ok_of_bind h
  obtain ⟨_, henums, h⟩ := ok_of_bind h
  obtain ⟨_, hprofile, -⟩ := ok_of_bind h
  have hp := Shaped.of_checks hkeys hleaf hplain
  obtain ⟨haction, hdisposition, hprovider, hconfidence⟩ := validateGovernanceEnums_ok henums
  intro keys v hv
  refine ⟨hp.leaves keys v hv, ?_, ?_, ?_, ?_, ?_, ?_⟩
  · rintro rfl
    exact haction v hv
  · rintro rfl
    exact hdisposition v hv
  · rintro rfl
    exact hprovider v hv
  · rintro rfl
    exact hconfidence v hv
  · rintro rfl
    exact hp.objects (s := []) rfl hv
  · rintro key rfl
    exact entryAllowed_of_validate hprofile hv

theorem Allowed.congr {keys : List String} {v w : Json} (h : Allowed keys v)
    (hleaf : LeafAllowed (dotted keys) v → LeafAllowed (dotted keys) w)
    (henum : ∀ names, EnumAllowed names v → EnumAllowed names w)
    (hconfidence : ConfidenceAllowed v → ConfidenceAllowed w)
    (hobj : v.isObj = true → w.isObj = true)
    (hentry : ∀ key, EntryAllowed key v → EntryAllowed key w) : Allowed keys w where
  leaf := hleaf h.leaf
  action hkeys := henum _ (h.action hkeys)
  disposition hkeys := henum _ (h.disposition hkeys)
  provider hkeys := henum _ (h.provider hkeys)
  confidence hkeys := hconfidence (h.confidence hkeys)
  profile hkeys := hobj (h.profile hkeys)
  entry key hkeys := hentry key (h.entry key hkeys)

def isContainer : Json → Bool
  | .obj _ => true
  | .arr _ => true
  | _ => false

section Container

variable {v : Json} (hv : isContainer v = true)

include hv

theorem isNull_of_container : v.isNull = false := by
  cases v <;> first | rfl | exact Bool.noConfusion hv

theorem not_enumAllowed_of_container (names : List String) : ¬ EnumAllowed names v := by
  rintro (hnull | ⟨s, -, rfl⟩)
  · exact Bool.noConfusion ((isNull_of_container hv).symm.trans hnull)
  · exact Bool.noConfusion hv

theorem not_confidenceAllowed_of_container : ¬ ConfidenceAllowed v := by
  rintro (hnull | ⟨hle, -⟩)
  · exact Bool.noConfusion ((isNull_of_container hv).symm.trans hnull)
  · cases v with
    | obj d =>
      rw [Json.value] at hle
      exact Bool.noConfusion hle
    | arr items =>
      rw [Json.value] at hle
      exact Bool.noConfusion hle
    | _ => exact Bool.noConfusion hv

theorem not_entryAllowed_of_container (key : String) : ¬ EntryAllowed key v := by
  rintro ⟨rule, -, u, hu, htyped, -⟩
  have hsame : asFloat rule v = .ok v := by
    cases v with
    | int i => exact Bool.noConfusion hv
    | _ => cases hfloat : rule.isFloat <;> rw [asFloat.eq_def, hfloat]
  obtain rfl := Except.ok.inj (hsame.symm.trans hu)
  cases v <;> first | exact Bool.noConfusion htyped | exact Bool.noConfusion hv

theorem Allowed.container {keys : List String} {w : Json} (h : Allowed keys v)
    (haccepts : ∀ expected : LeafType, expected.accepts v = true →
      expected.accepts w = true ∧ ∀ range, inRange range w = true)
    (hobj : v.isObj = true → w.isObj = true) : Allowed keys w := by
  refine h.congr ?_ ?_ ?_ hobj ?_
  · intro hleaf expected hexpected
    obtain hnull | ⟨hv', -⟩ := hleaf expected hexpected
    · exact Bool.noConfusion ((isNull_of_container hv).symm.trans hnull)
    · obtain ⟨hw, hrange⟩ := haccepts expected hv'
      exact .inr ⟨hw, fun range _ => hrange range⟩
  · exact fun names henum => absurd henum (not_enumAllowed_of_container hv names)
  · exact fun hconfidence => absurd hconfidence (not_confidenceAllowed_of_container hv)
  · exact fun key hentry => absurd hentry (not_entryAllowed_of_container hv key)

end Container

theorem Allowed.obj {keys : List String} {d : Dict} (h : Allowed keys (.obj d)) (e : Dict) :
    Allowed keys (.obj e) := by
  refine h.container rfl (fun expected haccepts => ?_) fun _ => rfl
  cases expected <;> exact Bool.noConfusion haccepts

theorem Allowed.arr {keys : List String} {items : List Json} (h : Allowed keys (.arr items))
    (others : List Json) : Allowed keys (.arr others) := by
  refine h.container rfl (fun expected haccepts => ⟨?_, fun _ => rfl⟩) fun hobj => ?_
  · cases expected <;> first | rfl | exact Bool.noConfusion haccepts
  · exact Bool.noConfusion hobj

theorem Valid.mergeFields {old : Dict} {p : Payload} (hold : Valid old) (hp : Valid p.fields) :
    Valid (mergeFields old p.fields) := by
  intro keys v hv
  have hdistinct : (Json.obj p.fields).distinct = true := by
    rw [Json.distinct]
    exact p.distinct
  rw [← deepMerge_obj] at hv
  obtain hv | hv | ⟨hobj, d, hd⟩ := walk_deepMerge hdistinct hv
  · exact hp keys v hv
  · exact hold keys v hv
  · cases v with
    | obj e => exact (hp keys _ hd).obj e
    | _ => exact Bool.noConfusion hobj

/-- The column gives small floats back as floats of the same value: it keeps the decimal that
`repr` prints. -/
def SmallFloats (floats : JsonbFloats) : Prop :=
  ∀ x : Binary64, -1000 ≤ x.toRat → x.toRat ≤ 1000 →
    ∃ y : Binary64, floats.back (.finite x) = .float (.finite y) ∧ y.toRat = x.toRat

theorem int_of_ranged {path : String} {range : ℤ × ℤ} (h : leafRanges.lookup path = some range) :
    leafTypes.lookup path = some .int := by
  have hall : (leafRanges.all fun entry => leafTypes.lookup entry.1 = some .int) = true := by
    decide
  obtain ⟨front, back, hsplit, -⟩ := List.lookup_eq_some_iff.mp h
  exact of_decide_eq_true (List.all_eq_true.mp hall (path, range) (by rw [hsplit]; simp))

theorem back_of_between (hfloats : SmallFloats floats) {x : PyFloat} {lo hi : ℚ}
    (hlo : numLe (.number lo) x.value = true) (hhi : numLe x.value (.number hi) = true)
    (hlo' : -1000 ≤ lo) (hhi' : hi ≤ 1000) :
    ∃ y : Binary64, floats.back x = .float (.finite y) ∧
      (Json.float (.finite y)).value = (Json.float x).value := by
  cases x with
  | finite x =>
    rw [PyFloat.value, numLe, decide_eq_true_eq] at hlo hhi
    obtain ⟨y, hback, hy⟩ := hfloats x (hlo'.trans hlo) (hhi.trans hhi')
    refine ⟨y, hback, ?_⟩
    rw [Json.value, Json.value, PyFloat.value, PyFloat.value, hy]
  | infinite neg =>
    cases neg with
    | true => exact Bool.noConfusion hlo
    | false => exact Bool.noConfusion hhi
  | nan => exact Bool.noConfusion hlo

theorem Allowed.float (hfloats : SmallFloats floats) {keys : List String} {x : PyFloat}
    (h : Allowed keys (.float x)) : Allowed keys (floats.back x) := by
  refine h.congr ?_ ?_ ?_ (fun hobj => Bool.noConfusion hobj) ?_
  · intro hleaf expected hexpected
    obtain hnull | ⟨haccepts, -⟩ := hleaf expected hexpected
    · exact Bool.noConfusion hnull
    · obtain rfl : expected = .number := by
        cases expected <;> first | rfl | exact Bool.noConfusion haccepts
      refine .inr ⟨?_, fun range hrange => ?_⟩
      · have hnumber := floats.number x
        cases hback : floats.back x with
        | int i => rfl
        | float y => rfl
        | _ =>
          rw [hback] at hnumber
          exact Bool.noConfusion hnumber
      · have hint := (int_of_ranged hrange).symm.trans hexpected
        exact absurd hint (by simp)
  · rintro names (hnull | ⟨s, -, heq⟩)
    · exact Bool.noConfusion hnull
    · exact absurd heq (by simp)
  · rintro (hnull | ⟨hlo, hhi⟩)
    · exact Bool.noConfusion hnull
    · have hx : (Json.float x).value = x.value := by rw [Json.value]
      obtain ⟨y, hback, hy⟩ := back_of_between hfloats (hx ▸ hlo) (hx ▸ hhi)
        (by decide) (by decide)
      rw [hback]
      exact .inr ⟨by rw [hy]; exact hlo, by rw [hy]; exact hhi⟩
  · rintro key ⟨rule, hrule, u, hu, htyped, hlo, hhi⟩
    have hsame : ∀ z, asFloat rule (.float z) = .ok (.float z) := by
      intro z
      cases hf : rule.isFloat <;> rw [asFloat.eq_def, hf]
    obtain rfl := Except.ok.inj ((hsame x).symm.trans hu)
    have hx : (Json.float x).value = x.value := by rw [Json.value]
    obtain ⟨lo, hi, hlo', hhi', hsmall, hsmall'⟩ := bounds_of_lookup hrule
    obtain ⟨y, hback, hy⟩ := back_of_between hfloats (by rw [← hlo', ← hx]; exact hlo)
      (by rw [← hhi', ← hx]; exact hhi) hsmall hsmall'
    rw [hback]
    exact ⟨rule, hrule, _, hsame _, htyped, by rw [hy]; exact hlo, by rw [hy]; exact hhi⟩

theorem Valid.jsonbFields (hfloats : SmallFloats floats) {d : Dict} (h : Valid d) :
    Valid (Json.jsonbFields floats d) := by
  intro keys w hw
  rw [← Json.jsonb_obj, Json.walk_jsonb] at hw
  obtain ⟨v, hv, rfl⟩ := Option.map_eq_some_iff.mp hw
  have hallowed := h keys v hv
  cases v with
  | obj a =>
    rw [Json.jsonb]
    exact hallowed.obj _
  | arr a =>
    rw [Json.jsonb]
    exact hallowed.arr _
  | float x =>
    rw [Json.jsonb]
    exact hallowed.float hfloats
  | _ => rwa [Json.jsonb]

theorem Allowed.root (v : Json) : Allowed [] v where
  leaf expected hexpected := by
    have hnone : leafTypes.lookup (dotted []) = none := by decide
    exact absurd (hnone.symm.trans hexpected) (by simp)
  action hkeys := absurd hkeys (by simp)
  disposition hkeys := absurd hkeys (by simp)
  provider hkeys := absurd hkeys (by simp)
  confidence hkeys := absurd hkeys (by simp)
  profile hkeys := absurd hkeys (by simp)
  entry key hkeys := absurd hkeys (by simp)

theorem valid_empty : Valid [] := by
  intro keys v hv
  cases keys with
  | nil => exact Allowed.root v
  | cons k keys => exact absurd hv (by simp [Dict.find])

theorem Valid.upsert {row : Option Dict} {excluded : Dict} (hrow : Valid (row.getD []))
    (h : Valid excluded) : Valid (upsert row excluded) := by
  cases row with
  | none => exact h
  | some stored =>
    intro keys v hv
    cases keys with
    | nil => exact Allowed.root v
    | cons k keys =>
      rw [Settings.upsert, Json.walk_obj, find_jsonbConcat] at hv
      cases hk : Dict.find excluded k with
      | some u =>
        rw [hk, Option.some_or] at hv
        exact h (k :: keys) v (by rw [Json.walk_obj, hk, hv])
      | none =>
        rw [hk, Option.none_or] at hv
        exact hrow (k :: keys) v (by rw [Option.getD_some, Json.walk_obj, hv])

section Storable

variable {floats : JsonbFloats}

theorem storableFields_iff {d : Dict} :
    storableFields d = true ↔ ∀ field ∈ d, hasNul field.1 = false ∧ storable field.2 = true := by
  induction d with
  | nil => simp [storableFields]
  | cons field d ih =>
    obtain ⟨k, v⟩ := field
    simp [storableFields, ih, and_assoc]

mutual

theorem storable_deepMerge : ∀ {new old : Json}, storable old = true → storable new = true →
    storable (deepMerge old new) = true
  | .obj new, old, hold, hnew => by
    cases old with
    | obj d =>
      rw [deepMerge_obj, storable]
      exact storable_mergeFields hold hnew
    | _ =>
      rw [deepMerge_of_not_obj rfl]
      exact hnew
  | .null, _, _, hnew => by rwa [deepMerge_not_obj rfl]
  | .bool _, _, _, hnew => by rwa [deepMerge_not_obj rfl]
  | .int _, _, _, hnew => by rwa [deepMerge_not_obj rfl]
  | .float _, _, _, hnew => by rwa [deepMerge_not_obj rfl]
  | .str _, _, _, hnew => by rwa [deepMerge_not_obj rfl]
  | .arr _, _, _, hnew => by rwa [deepMerge_not_obj rfl]

theorem storable_mergeFields : ∀ {new out : Dict}, storableFields out = true →
    storableFields new = true → storableFields (mergeFields out new) = true
  | [], _, hout, _ => hout
  | (k, v) :: new, out, hout, hnew => by
    simp only [storableFields, Bool.and_eq_true, Bool.not_eq_true'] at hnew
    obtain ⟨hk, hv, hnew⟩ := hnew
    have hout' := storableFields_iff.mp hout
    have hold : storable (Dict.get out k) = true := by
      rw [Dict.get]
      cases hfind : Dict.find out k with
      | none => rfl
      | some w => exact (hout' _ (Dict.mem_of_find hfind)).2
    rw [mergeFields]
    refine storable_mergeFields (storableFields_iff.mpr fun field hfield => ?_) hnew
    obtain hfield | rfl := Dict.mem_set hfield
    · exact hout' field hfield
    · exact ⟨hk, storable_deepMerge hold hv⟩

end

/-- What the column gives back for a number, it takes again. -/
def FiniteFloats (floats : JsonbFloats) : Prop :=
  ∀ x : Binary64, storable (floats.back (.finite x)) = true

mutual

theorem storable_jsonb (hback : FiniteFloats floats) : ∀ {j : Json}, storable j = true →
    storable (j.jsonb floats) = true
  | .float (.finite x), _ => by
    rw [Json.jsonb]
    exact hback x
  | .arr items, h => by
    rw [Json.jsonb, storable]
    exact storableItems_jsonb hback h
  | .obj fields, h => by
    rw [Json.jsonb, storable]
    exact storableFields_jsonb hback h
  | .null, h => by rwa [Json.jsonb]
  | .bool _, h => by rwa [Json.jsonb]
  | .int _, h => by rwa [Json.jsonb]
  | .str _, h => by rwa [Json.jsonb]

theorem storableItems_jsonb (hback : FiniteFloats floats) : ∀ {items : List Json},
    storableItems items = true → storableItems (Json.jsonbItems floats items) = true
  | [], _ => rfl
  | j :: items, h => by
    rw [storableItems, Bool.and_eq_true] at h
    rw [Json.jsonbItems, storableItems, Bool.and_eq_true]
    exact ⟨storable_jsonb hback h.1, storableItems_jsonb hback h.2⟩

theorem storableFields_jsonb (hback : FiniteFloats floats) : ∀ {d : Dict},
    storableFields d = true → storableFields (Json.jsonbFields floats d) = true
  | [], _ => rfl
  | (k, v) :: d, h => by
    simp only [storableFields, Bool.and_eq_true, Bool.not_eq_true'] at h
    obtain ⟨hk, hv, hd⟩ := h
    rw [Json.jsonbFields]
    refine storableFields_iff.mpr fun field hfield => ?_
    obtain rfl | hfield := List.mem_cons.mp ((Json.insertJsonb_perm _ _).mem_iff.mp hfield)
    · exact ⟨hk, storable_jsonb hback hv⟩
    · exact storableFields_iff.mp (storableFields_jsonb hback hd) field hfield

end

theorem storable_upsert {row : Option Dict} {excluded : Dict}
    (hrow : storableFields (row.getD []) = true) (h : storableFields excluded = true) :
    storableFields (upsert row excluded) = true := by
  cases row with
  | none => exact h
  | some stored =>
    refine storableFields_iff.mpr fun field hfield => ?_
    obtain hmem | hmem := mem_jsonbConcat hfield
    · exact storableFields_iff.mp hrow field hmem
    · exact storableFields_iff.mp h field hmem

end Storable

def settle (floats : JsonbFloats) (env : SettingsEnv) (store : Store)
    (call : Payload × Option String) : Store :=
  (updateSettings floats env store call.1 call.2).2

/-- No object at a declared leaf, no int too large for a float in the profile, and no text
that the column refuses. -/
structure Ordinary (call : Payload × Option String) : Prop where
  noObjects : NoObjects call.1.fields
  floatable : Floatable call.1.fields
  storable : storableFields call.1.fields = true

/-- A rejected payload raises a `ValueError` and changes nothing; after an accepted one the
stored settings are valid. -/
def SoundUpdate (floats : JsonbFloats) (env : SettingsEnv) (store : Store)
    (call : Payload × Option String) : Prop :=
  match updateSettings floats env store call.1 call.2 with
  | (.error raised, next) => raised.isValueError = true ∧ next = store
  | (.ok _, next) => Valid next.organizationSettingsGet

theorem Valid.commit (hfloats : SmallFloats floats) {store : Store} {p : Payload}
    (hstore : Valid store.organizationSettingsGet) (hp : Valid p.fields)
    (changedBy : Option String) :
    Valid
      (store.commit floats p changedBy store.organizationSettingsGet).2.organizationSettingsGet :=
  Valid.upsert hstore ((hstore.mergeFields hp).jsonbFields hfloats)

/-- What is stored between two updates. -/
structure Stored (store : Store) : Prop where
  valid : Valid store.organizationSettingsGet
  storable : storableFields store.organizationSettingsGet = true

theorem updateSettings_sound (hfloats : SmallFloats floats) (hback : FiniteFloats floats)
    (henv : env.CronOk) {store : Store} (hstore : Stored store) {call : Payload × Option String}
    (hcall : Ordinary call) :
    SoundUpdate floats env store call ∧ Stored (settle floats env store call) := by
  rw [SoundUpdate, settle, updateSettings]
  cases hvalidate : validateSettings env call.1.fields with
  | error raised =>
    exact ⟨⟨validateSettings_raises hcall.noObjects hcall.floatable henv hvalidate, rfl⟩, hstore⟩
  | ok _ =>
    have hp := Valid.of_checks hcall.noObjects hvalidate
    have hmerged := storable_mergeFields hstore.storable hcall.storable
    cases hempty : (diffSettings store.organizationSettingsGet call.1.fields).isEmpty with
    | true =>
      simp only [Store.select, hempty, if_true]
      exact ⟨hstore.valid, hstore⟩
    | false =>
      simp only [Store.select, hempty, Bool.false_eq_true, if_false, hmerged, if_true]
      have hvalid := hstore.valid.commit hfloats hp call.2
      exact ⟨hvalid, hvalid, storable_upsert hstore.storable (storableFields_jsonb hback hmerged)⟩

/-- Over every history of ordinary payloads, from an organization without settings. -/
theorem settings_validation_sound (hfloats : SmallFloats floats) (hback : FiniteFloats floats)
    (henv : env.CronOk) {calls : List (Payload × Option String)}
    (h : ∀ call ∈ calls, Ordinary call) :
    Along (settle floats env) (SoundUpdate floats env) ⟨none, false, []⟩ calls := by
  have hstart : Stored ⟨none, false, []⟩ := ⟨valid_empty, rfl⟩
  have hstep : ∀ store call, Stored store → Ordinary call →
      SoundUpdate floats env store call ∧ Stored (settle floats env store call) :=
    fun _ _ hstore hcall => updateSettings_sound hfloats hback henv hstore hcall
  exact (Along.of_mem h).mono (fun store call hstore hcall => (hstep store call hstore hcall).2)
    (fun store call hstore hcall => (hstep store call hstore hcall).1) hstart

def asciiEnv : SettingsEnv := ⟨fun c => 32 ≤ c.toNat && c.toNat < 127, fun _ => none⟩

theorem switch_noObjects {topic name : String}
    (htopic : (leafTypes.lookup topic).isSome = false) :
    NoObjects (switch topic name).fields := by
  intro keys v hv hdeclared
  obtain rfl | rfl | rfl := walk_switch hv
  · exact Bool.noConfusion hdeclared
  · rw [dotted, dots, String.append_empty, htopic] at hdeclared
    exact Bool.noConfusion hdeclared
  · simp only [switch, Json.walk_obj, Dict.find, if_true, Option.bind_some, Json.walk_nil] at hv
    exact Option.some.inj hv ▸ rfl

theorem switch_floatable (topic name : String) : Floatable (switch topic name).fields := by
  intro key i rule hv
  obtain h | h | h := walk_switch hv <;> exact absurd h (by simp)

/-- An accepted payload and one with a key that the schema does not have. -/
theorem settings_validation_sound_sample :
    Along (settle JsonbFloats.same asciiEnv) (SoundUpdate JsonbFloats.same asciiEnv)
      ⟨none, false, []⟩
      [(switch "search" "recall_boost", none), (switch "search" "recall_bost", none)] := by
  refine settings_validation_sound (fun x _ _ => ⟨x, rfl, rfl⟩) (fun _ => rfl)
    (fun s raised h => ?_) ?_
  · exact absurd h (by simp [asciiEnv])
  · refine List.forall_mem_cons.mpr ⟨?_, List.forall_mem_singleton.mpr ?_⟩
    · exact ⟨switch_noObjects (by decide), switch_floatable _ _, by decide⟩
    · exact ⟨switch_noObjects (by decide), switch_floatable _ _, by decide⟩

/-- An object at a declared leaf is accepted and stored, or ends in a `TypeError`. -/
theorem nested_objects_pass :
    ¬ SoundUpdate JsonbFloats.same asciiEnv ⟨none, false, []⟩
        (⟨[("search", .obj [("recall_boost", .obj [("x", .bool true)])])], rfl, rfl⟩, none) ∧
      ¬ SoundUpdate JsonbFloats.same asciiEnv ⟨none, false, []⟩
        (⟨[("governance", .obj [("pii", .obj [("action", .obj [])])])], rfl, rfl⟩, none) := by
  constructor
  · intro h
    have hvalid : Valid [("search", .obj [("recall_boost", .obj [("x", .bool true)])])] := h
    have htype : leafTypes.lookup (dotted ["search", "recall_boost"]) = some .bool := by
      decide
    obtain hnull | ⟨haccepts, -⟩ := (hvalid ["search", "recall_boost"] _ rfl).leaf .bool htype
    · exact Bool.noConfusion hnull
    · exact Bool.noConfusion haccepts
  · rintro ⟨hvalue, -⟩
    exact Bool.noConfusion hvalue

end Memclaw.Settings

import Memclaw.Lib.Fallible
import Memclaw.Settings.Merge
import Memclaw.Settings.ValidateDefs

/-! What the checks of `update_settings` let through, and what they raise. -/

namespace Memclaw.Settings

open Memclaw.Lib Memclaw.Lib.Interleave

variable {floats : JsonbFloats} {env : SettingsEnv}

def LeafAllowed (path : String) (v : Json) : Prop :=
  ∀ expected, leafTypes.lookup path = some expected →
    v.isNull = true ∨ (expected.accepts v = true ∧
      ∀ range, leafRanges.lookup path = some range → inRange range v = true)

def EnumAllowed (allowed : List String) (v : Json) : Prop :=
  v.isNull = true ∨ ∃ s ∈ allowed, v = .str s

def ConfidenceAllowed (v : Json) : Prop :=
  v.isNull = true ∨ (numLe (.number 0) v.value = true ∧ numLe v.value (.number 1) = true)

def SearchRule.Allows (rule : SearchRule) (v : Json) : Prop :=
  ∃ w, asFloat rule v = .ok w ∧ rule.typed w = true ∧ numLe rule.lo.value w.value = true ∧
    numLe w.value rule.hi.value = true

def EntryAllowed (key : String) (v : Json) : Prop :=
  ∃ rule, searchProfileRules.lookup key = some rule ∧ rule.Allows v

structure Allowed (keys : List String) (v : Json) : Prop where
  leaf : LeafAllowed (dotted keys) v
  action : keys = ["governance", "pii", "action"] → EnumAllowed piiActions v
  disposition : keys = ["governance", "non_business", "disposition"] →
    EnumAllowed nonBusinessDispositions v
  provider : keys = ["governance", "non_business", "pregate", "provider"] →
    EnumAllowed pregateProviders v
  confidence : keys = ["governance", "non_business", "pregate", "min_confidence"] →
    ConfidenceAllowed v
  profile : keys = ["search", "default_profile"] → v.isObj = true
  entry : ∀ key, keys = ["search", "default_profile", key] → EntryAllowed key v

def Valid (d : Dict) : Prop := ∀ keys v, (Json.obj d).walk keys = some v → Allowed keys v

def Raised.isValueError : Raised → Bool
  | .valueError _ => true
  | _ => false

theorem field_of_loop {loop : Dict → Except Raised Unit}
    (body : String → Json → Except Raised Unit)
    (hloop : ∀ k v rest, loop ((k, v) :: rest) = body k v >>= fun _ => loop rest) {fields : Dict}
    (h : loop fields = .ok ()) {k : String} {v : Json} (hk : Dict.find fields k = some v) :
    body k v = .ok () := by
  induction fields with
  | nil => exact absurd hk (by simp [Dict.find])
  | cons field fields ih =>
    obtain ⟨l, w⟩ := field
    rw [hloop] at h
    obtain ⟨_, hhead, hrest⟩ := ok_of_bind h
    rw [Dict.find] at hk
    split at hk
    · rename_i hl
      subst hl
      exact Option.some.inj hk ▸ hhead
    · exact ih hrest hk

theorem checkItems_value {schema payload : Dict} {path : String}
    (h : checkItems env schema path payload = .ok ()) {k : String} {v : Json}
    (hk : Dict.find payload k = some v) :
    checkValue env (Dict.get schema k) (fullKey path k) v = .ok () :=
  field_of_loop (fun k v => checkValue env (Dict.get schema k) (fullKey path k) v)
    (fun _ _ _ => by rw [checkItems]) h hk

theorem checkValue_isObj {schema v : Json} {path : String}
    (h : checkValue env schema path v = .ok ()) {keys : List String} {s : Dict} {w : Json}
    (hschema : schema.walk keys = some (.obj s)) (hw : v.walk keys = some w) :
    w.isObj = true := by
  induction keys generalizing schema v path with
  | nil =>
    rw [Json.walk_nil] at hschema hw
    obtain rfl := Option.some.inj hschema
    obtain rfl := Option.some.inj hw
    cases v with
    | obj fields => rfl
    | _ => exact absurd h (by simp [checkValue])
  | cons k keys ih =>
    cases schema with
    | obj d =>
      obtain ⟨u, hu, hbelow⟩ := Option.bind_eq_some_iff.mp hschema
      cases v with
      | obj fields =>
        obtain ⟨x, hx, hwx⟩ := Option.bind_eq_some_iff.mp hw
        cases d with
        | nil => exact absurd hu (by simp [Dict.find])
        | cons first rest =>
          rw [checkValue] at h
          obtain ⟨_, -, hitems⟩ := ok_of_bind h
          have hvalue := checkItems_value hitems hx
          rw [Dict.get, hu, Option.getD_some] at hvalue
          exact ih hvalue hbelow hwx
      | _ => exact absurd hw (by simp [Json.walk])
    | _ => exact absurd hschema (by simp [Json.walk])

theorem validateLeafTypes_value {start : String} {payload : Dict}
    (h : validateLeafTypes env start payload = .ok ()) {k : String} {v : Json}
    (hk : Dict.find payload k = some v) : validateLeafValue env (start ++ k) v = .ok () :=
  field_of_loop (fun k v => validateLeafValue env (start ++ k) v)
    (fun _ _ _ => by rw [validateLeafTypes]) h hk

theorem leafAllowed_of_checkLeaf {path : String} {v : Json} (h : checkLeaf env path v = .ok ()) :
    LeafAllowed path v := by
  intro expected hexpected
  rw [checkLeaf, hexpected] at h
  refine .inr ?_
  cases haccepts : expected.accepts v with
  | false => simp [haccepts] at h
  | true =>
    refine ⟨rfl, fun range hrange => ?_⟩
    simp only [haccepts, hrange, if_true] at h
    by_contra hrange'
    simp [hrange'] at h

/-- Every leaf below a checked value is checked under its dotted path. -/
theorem leafAllowed_of_validate {v w : Json} {path : String}
    (h : validateLeafValue env path v = .ok ()) {keys : List String} (hw : v.walk keys = some w)
    (hobj : w.isObj = false) : LeafAllowed (path ++ dots keys) w := by
  induction keys generalizing v path with
  | nil =>
    rw [Json.walk_nil] at hw
    obtain rfl := Option.some.inj hw
    rw [dots, String.append_empty]
    cases v with
    | obj fields => exact Bool.noConfusion hobj
    | null => exact fun _ _ => .inl rfl
    | _ => exact leafAllowed_of_checkLeaf h
  | cons k keys ih =>
    cases v with
    | obj fields =>
      obtain ⟨u, hu, hw⟩ := Option.bind_eq_some_iff.mp hw
      rw [validateLeafValue] at h
      have htext : path ++ dots (k :: keys) = path ++ "." ++ k ++ dots keys := by
        rw [dots]
        simp only [String.append_assoc]
      rw [htext]
      exact ih (validateLeafTypes_value h hu) hw
    | _ => exact absurd hw (by simp [Json.walk])

/-- No object stands where a leaf is declared. -/
def NoObjects (p : Dict) : Prop :=
  ∀ keys v, (Json.obj p).walk keys = some v → (leafTypes.lookup (dotted keys)).isSome = true →
    v.isObj = false

structure Shaped (p : Dict) : Prop where
  objects : ∀ {keys : List String} {s : Dict} {w : Json},
    (Json.obj defaultSettings).walk keys = some (.obj s) →
      (Json.obj p).walk keys = some w → w.isObj = true
  leaves : ∀ keys v, (Json.obj p).walk keys = some v → LeafAllowed (dotted keys) v

theorem Shaped.of_checks {p : Dict} (hkeys : checkKeys env defaultSettings p = .ok ())
    (hleaf : validateLeafTypes env "" p = .ok ()) (hplain : NoObjects p) : Shaped p := by
  constructor
  · intro keys s w hschema hw
    have hvalue : checkValue env (.obj defaultSettings) "" (.obj p) = .ok () := hkeys
    exact checkValue_isObj hvalue hschema hw
  · intro keys v hv expected hexpected
    have hobj : v.isObj = false := hplain keys v hv (by rw [hexpected]; rfl)
    cases keys with
    | nil =>
      obtain rfl := Option.some.inj hv
      exact Bool.noConfusion hobj
    | cons k keys =>
      obtain ⟨u, hu, hwalk⟩ := Option.bind_eq_some_iff.mp hv
      have hallowed := leafAllowed_of_validate (validateLeafTypes_value hleaf hu) hwalk hobj
      rw [String.empty_append] at hallowed
      exact hallowed expected hexpected

def Under (p : Dict) (keys : List String) (d : Dict) : Prop :=
  d = [] ∨ (Json.obj p).walk keys = some (.obj d)

theorem walk_snoc {p d : Dict} {keys : List String} (h : (Json.obj p).walk keys = some (.obj d))
    (key : String) : (Json.obj p).walk (keys ++ [key]) = Dict.find d key := by
  rw [Json.walk_append, h, Option.bind_some, Json.walk_obj]
  cases Dict.find d key with
  | none => rfl
  | some v => exact Json.walk_nil v

theorem Under.get {p d : Dict} {keys : List String} (h : Under p keys d) (key : String) :
    Dict.get d key = .null ∨ (Json.obj p).walk (keys ++ [key]) = some (Dict.get d key) := by
  obtain rfl | h := h
  · exact .inl rfl
  · rw [walk_snoc h, Dict.get]
    cases Dict.find d key with
    | none => exact .inl rfl
    | some v => exact .inr rfl

theorem Under.subDict {p d s : Dict} {keys : List String} (h : Under p keys d) (hp : Shaped p)
    (key : String) (hschema : (Json.obj defaultSettings).walk (keys ++ [key]) = some (.obj s)) :
    ∃ inner, subDict d key = .ok inner ∧ Under p (keys ++ [key]) inner := by
  -- In a payload that has passed `_check_keys` the chain does not break.
  obtain rfl | h := h
  · exact ⟨[], rfl, .inl rfl⟩
  · have hwalk := walk_snoc h key
    rw [Settings.subDict]
    cases hfind : Dict.find d key with
    | none => exact ⟨[], rfl, .inl rfl⟩
    | some v =>
      rw [hfind] at hwalk
      have hobj := hp.objects hschema hwalk
      cases v with
      | obj fields => exact ⟨fields, rfl, .inr hwalk⟩
      | _ => exact Bool.noConfusion hobj

theorem Under.leaf {p d : Dict} {keys : List String} (h : Under p keys d) (hp : Shaped p)
    (key : String) {expected : LeafType}
    (htype : leafTypes.lookup (dotted (keys ++ [key])) = some expected) :
    (Dict.get d key).isNull = true ∨ expected.accepts (Dict.get d key) = true := by
  obtain hnull | hwalk := h.get key
  · exact .inl (by rw [hnull]; rfl)
  · exact (hp.leaves _ _ hwalk expected htype).imp_right And.left

theorem checkUnknown_raises {schema payload : Dict} {path : String} {raised : Raised}
    (h : checkUnknown env schema path payload = .error raised) : raised.isValueError = true := by
  rw [checkUnknown] at h
  obtain rfl := error_of_test h
  rfl

mutual

theorem checkValue_raises : ∀ {v : Json} {schema : Json} {path : String} {raised : Raised},
    checkValue env schema path v = .error raised → raised.isValueError = true
  | .obj fields, schema, path, raised, h => by
    cases schema with
    | obj d =>
      cases d with
      | nil => exact absurd h (by simp [checkValue])
      | cons first rest =>
        rw [checkValue] at h
        obtain h | ⟨_, -, h⟩ := error_of_bind h
        · exact checkUnknown_raises h
        · exact checkItems_raises h
    | _ => exact absurd h (by simp [checkValue])
  | .null, schema, _, _, h => by cases schema <;> simp [checkValue] at h; rw [← h]; rfl
  | .bool _, schema, _, _, h => by cases schema <;> simp [checkValue] at h; rw [← h]; rfl
  | .int _, schema, _, _, h => by cases schema <;> simp [checkValue] at h; rw [← h]; rfl
  | .float _, schema, _, _, h => by cases schema <;> simp [checkValue] at h; rw [← h]; rfl
  | .str _, schema, _, _, h => by cases schema <;> simp [checkValue] at h; rw [← h]; rfl
  | .arr _, schema, _, _, h => by cases schema <;> simp [checkValue] at h; rw [← h]; rfl

theorem checkItems_raises : ∀ {payload schema : Dict} {path : String} {raised : Raised},
    checkItems env schema path payload = .error raised → raised.isValueError = true
  | [], _, _, _, h => absurd h (by simp [checkItems])
  | (k, v) :: payload, schema, path, raised, h => by
    rw [checkItems] at h
    obtain h | ⟨_, -, h⟩ := error_of_bind h
    · exact checkValue_raises h
    · exact checkItems_raises h

end

theorem checkKeys_raises {schema payload : Dict} {raised : Raised}
    (h : checkKeys env schema payload = .error raised) : raised.isValueError = true := by
  rw [checkKeys] at h
  obtain h | ⟨_, -, h⟩ := error_of_bind h
  · exact checkUnknown_raises h
  · exact checkItems_raises h

theorem checkLeaf_raises {path : String} {v : Json} {raised : Raised}
    (h : checkLeaf env path v = .error raised) : raised.isValueError = true := by
  rw [checkLeaf] at h
  split at h
  · exact absurd h (by simp)
  · split at h
    · split at h
      · exact absurd h (by simp)
      · obtain rfl := error_of_test h
        rfl
    · obtain rfl := Except.error.inj h
      rfl

mutual

theorem validateLeafValue_raises : ∀ {v : Json} {path : String} {raised : Raised},
    validateLeafValue env path v = .error raised → raised.isValueError = true
  | .obj fields, _, _, h => validateLeafTypes_raises (by rwa [validateLeafValue] at h)
  | .null, _, _, h => absurd h (by simp [validateLeafValue])
  | .bool _, _, _, h => checkLeaf_raises (by rwa [validateLeafValue.eq_def] at h)
  | .int _, _, _, h => checkLeaf_raises (by rwa [validateLeafValue.eq_def] at h)
  | .float _, _, _, h => checkLeaf_raises (by rwa [validateLeafValue.eq_def] at h)
  | .str _, _, _, h => checkLeaf_raises (by rwa [validateLeafValue.eq_def] at h)
  | .arr _, _, _, h => checkLeaf_raises (by rwa [validateLeafValue.eq_def] at h)

theorem validateLeafTypes_raises : ∀ {payload : Dict} {start : String} {raised : Raised},
    validateLeafTypes env start payload = .error raised → raised.isValueError = true
  | [], _, _, h => absurd h (by simp [validateLeafTypes])
  | (k, v) :: payload, start, raised, h => by
    rw [validateLeafTypes] at h
    obtain h | ⟨_, -, h⟩ := error_of_bind h
    · exact validateLeafValue_raises h
    · exact validateLeafTypes_raises h

end

theorem checkEnum_raises {path : String} {allowed : List String} {v : Json}
    (hv : v.isNull = true ∨ LeafType.str.accepts v = true) {raised : Raised}
    (h : checkEnum env path allowed v = .error raised) : raised.isValueError = true := by
  rw [checkEnum] at h
  split at h
  · exact absurd h (by simp)
  · rename_i hnull
    obtain hv | hv := hv
    · exact absurd hv hnull
    · cases v with
      | str s =>
        simp only [Json.inSet] at h
        split at h
        · rename_i hin
          exact absurd hin (by simp)
        · exact absurd h (by simp)
        · obtain rfl := Except.error.inj h
          rfl
      | _ => exact Bool.noConfusion hv

theorem checkConfidence_raises {v : Json}
    (hv : v.isNull = true ∨ LeafType.number.accepts v = true) {raised : Raised}
    (h : checkConfidence env v = .error raised) : raised.isValueError = true := by
  cases v with
  | null => exact absurd h (by simp [checkConfidence])
  | int i =>
    obtain rfl := error_of_test h
    rfl
  | float x =>
    obtain rfl := error_of_test h
    rfl
  | _ => exact absurd hv (by simp [Json.isNull, LeafType.accepts])

theorem under_of_get {p d : Dict} {key : String} (h : Dict.get p key = .obj d) :
    Under p [key] d := by
  refine .inr ?_
  rw [Json.walk_obj]
  rw [Dict.get] at h
  cases hfind : Dict.find p key with
  | none => exact absurd h (by simp [hfind])
  | some v =>
    rw [hfind, Option.getD_some] at h
    rw [Option.bind_some, Json.walk_nil, h]

theorem validateGovernance_raises {p gov : Dict} (hp : Shaped p)
    (hgov : Under p ["governance"] gov) {raised : Raised}
    (h : validateGovernance env gov = .error raised) : raised.isValueError = true := by
  obtain ⟨pii, hpii, hpiiUnder⟩ := hgov.subDict hp "pii" rfl
  obtain ⟨nb, hnb, hnbUnder⟩ := hgov.subDict hp "non_business" rfl
  obtain ⟨pregate, hpregate, hpregateUnder⟩ := hnbUnder.subDict hp "pregate" rfl
  rw [validateGovernance, bind_of_ok hpii] at h
  obtain h | ⟨_, -, h⟩ := error_of_bind h
  · exact checkEnum_raises (hpiiUnder.leaf hp "action" rfl) h
  rw [bind_of_ok hnb] at h
  obtain h | ⟨_, -, h⟩ := error_of_bind h
  · exact checkEnum_raises (hnbUnder.leaf hp "disposition" rfl) h
  rw [bind_of_ok hpregate] at h
  obtain h | ⟨_, -, h⟩ := error_of_bind h
  · exact checkEnum_raises (hpregateUnder.leaf hp "provider" rfl) h
  · exact checkConfidence_raises (hpregateUnder.leaf hp "min_confidence" rfl) h

theorem validateGovernanceEnums_raises {p : Dict} (hp : Shaped p) {raised : Raised}
    (h : validateGovernanceEnums env p = .error raised) : raised.isValueError = true := by
  rw [validateGovernanceEnums] at h
  split at h
  · rename_i gov hgov
    exact validateGovernance_raises hp (under_of_get hgov) h
  · exact absurd h (by simp)

def Floatable (p : Dict) : Prop :=
  ∀ key i rule, (Json.obj p).walk ["search", "default_profile", key] = some (.int i) →
    searchProfileRules.lookup key = some rule → rule.isFloat = true →
      (Binary64.ofFrac (decide (i < 0)) i.natAbs 1).isSome = true

theorem checkBounds_raises {key : String} {rule : SearchRule} {v : Json} {raised : Raised}
    (h : checkBounds env key rule v = .error raised) : raised.isValueError = true := by
  rw [checkBounds] at h
  split at h
  · obtain rfl := error_of_test h
    rfl
  · obtain rfl := Except.error.inj h
    rfl

theorem asFloat_ok {rule : SearchRule} {v : Json}
    (h : ∀ i, v = .int i → rule.isFloat = true →
      (Binary64.ofFrac (decide (i < 0)) i.natAbs 1).isSome = true) :
    ∃ w, asFloat rule v = .ok w := by
  cases hfloat : rule.isFloat with
  | false => exact ⟨v, by rw [asFloat.eq_def, hfloat]⟩
  | true =>
    cases v with
    | int i =>
      obtain ⟨x, hx⟩ := Option.isSome_iff_exists.mp (h i rfl hfloat)
      exact ⟨.float (.finite x), by rw [asFloat.eq_def, hfloat]; simp only [hx]⟩
    | _ => exact ⟨_, by rw [asFloat.eq_def, hfloat]⟩

theorem checkEntry_raises {key : String} {v : Json}
    (hv : ∀ i rule, v = .int i → searchProfileRules.lookup key = some rule →
      rule.isFloat = true → (Binary64.ofFrac (decide (i < 0)) i.natAbs 1).isSome = true)
    {raised : Raised} (h : checkEntry env key v = .error raised) :
    raised.isValueError = true := by
  rw [checkEntry] at h
  split at h
  · obtain rfl := Except.error.inj h
    rfl
  · rename_i rule hrule
    obtain ⟨w, hw⟩ := asFloat_ok (fun i hi => hv i rule hi hrule)
    rw [bind_of_ok hw] at h
    exact checkBounds_raises h

theorem checkEntries_raises {profile : Dict} (hd : Json.distinctFields profile = true)
    (hfloat : ∀ key i rule, Dict.find profile key = some (.int i) →
      searchProfileRules.lookup key = some rule → rule.isFloat = true →
        (Binary64.ofFrac (decide (i < 0)) i.natAbs 1).isSome = true)
    {raised : Raised} (h : checkEntries env profile = .error raised) :
    raised.isValueError = true := by
  induction profile with
  | nil => exact absurd h (by simp [checkEntries])
  | cons field profile ih =>
    obtain ⟨key, v⟩ := field
    obtain ⟨hkey, -, hd⟩ := Json.distinctFields_cons.mp hd
    rw [checkEntries] at h
    obtain h | ⟨_, -, h⟩ := error_of_bind h
    · refine checkEntry_raises (fun i rule hv => hfloat key i rule ?_) h
      rw [Dict.find, if_pos rfl, hv]
    · refine ih hd (fun other i rule hother => hfloat other i rule ?_) h
      have hne : key ≠ other := by
        rintro rfl
        rw [hkey] at hother
        exact absurd hother (by simp)
      rw [Dict.find, if_neg hne, hother]

theorem validateDefaultSearchProfile_raises {p : Payload} (hp : Shaped p.fields)
    (hfloat : Floatable p.fields) {raised : Raised}
    (h : validateDefaultSearchProfile env p.fields = .error raised) :
    raised.isValueError = true := by
  have htop : Under p.fields [] p.fields := .inr (Json.walk_nil _)
  obtain ⟨search, hsearch, hunder⟩ := htop.subDict hp "search" rfl
  rw [validateDefaultSearchProfile, bind_of_ok hsearch] at h
  split at h
  · exact absurd h (by simp)
  · rename_i profile hprofile
    obtain hnull | hwalk := hunder.get "default_profile"
    · rw [hprofile] at hnull
      exact absurd hnull (by simp)
    · rw [hprofile] at hwalk
      have hdistinct : (Json.obj profile).distinct = true :=
        Json.distinct_of_walk (by rw [Json.distinct]; exact p.distinct) hwalk
      refine checkEntries_raises (by rwa [Json.distinct] at hdistinct) ?_ h
      intro key i rule hkey
      refine hfloat key i rule ?_
      have hsnoc := walk_snoc hwalk key
      exact hsnoc.trans hkey
  · obtain rfl := Except.error.inj h
    rfl

/-- The package raises a `ValueError` for a text that is no cron expression. -/
def SettingsEnv.CronOk (env : SettingsEnv) : Prop :=
  ∀ s raised, env.croniter (.str s) = some raised → raised.isValueError = true

theorem validateCron_raises (henv : env.CronOk) {s : String} {raised : Raised}
    (h : validateCron env (.str s) = .error raised) : raised.isValueError = true := by
  rw [validateCron] at h
  cases hcron : env.croniter (.str s) with
  | none =>
    rw [hcron] at h
    exact absurd h (by simp)
  | some r =>
    have hvalue := henv s r hcron
    rw [hcron] at h
    cases r with
    | valueError message =>
      obtain rfl := Except.error.inj h
      rfl
    | _ => exact Bool.noConfusion hvalue

theorem checkCron_raises {p : Dict} (hp : Shaped p) (henv : env.CronOk) {raised : Raised}
    (h : checkCron env p = .error raised) : raised.isValueError = true := by
  have htop : Under p [] p := .inr (Json.walk_nil _)
  obtain ⟨audit, haudit, hunder⟩ := htop.subDict hp "security_audit" rfl
  rw [checkCron, bind_of_ok haudit] at h
  dsimp only at h
  split at h
  · exact absurd h (by simp)
  · rename_i hnull
    obtain hcron | hcron := hunder.leaf hp "schedule_cron" rfl
    · exact absurd hcron hnull
    · cases hv : Dict.get audit "schedule_cron" with
      | str s =>
        rw [hv] at h
        exact validateCron_raises henv h
      | _ =>
        rw [hv] at hcron
        exact Bool.noConfusion hcron

end Memclaw.Settings

import Mathlib.Data.List.Induction
import Memclaw.Settings.Merge
import Memclaw.Settings.StoreDefs

/-! Interleaved updates of the settings of an organization against the same updates one after
another, and against the audit rows. -/

namespace Memclaw.Settings

open Memclaw.Lib Memclaw.Lib.Interleave

variable {ι : Type} {floats : JsonbFloats}

def serial (settings : Dict) (payloads : List Payload) : Json :=
  payloads.foldl (fun settings p => deepMerge settings p.json) (.obj settings)

def Store.leaf (store : Store) (path : List String) : Option Value :=
  (Json.obj store.organizationSettingsGet).leaf path

def newValue : Json → Json
  | .arr [_, v] => v
  | _ => .null

def lastNamed (audit : List AuditRow) (text : String) : Option Json :=
  audit.reverse.findSome? fun row => (Dict.find row.diff text).map newValue

def Call.isReturned : Call → Bool
  | .returned _ _ => true
  | _ => false

/-- The calls that returned, in an order in which they give the stored settings one after
another. -/
structure Serialised (start : Dict) (payload : ι → Payload) (pool : Pool ι Store Call)
    (order : List ι) : Prop where
  nodup : order.Nodup
  complete : ∀ i, i ∈ order ↔ (pool.parties i).isReturned = true
  leaves : ∀ path, pool.shared.leaf path = (serial start (order.map payload)).leaf path

/-- The last audit row of each leaf names its value; a leaf without one is as it was. -/
def Audited (start : Dict) (store : Store) : Prop :=
  ∀ k path, Dotless (k :: path) →
    store.leaf (k :: path) =
      match lastNamed store.audit (dotted (k :: path)) with
      | some v => v.scalar
      | none => (Json.obj start).leaf (k :: path)

/-- The payload has an object where the settings have no other value, and another value
where they have no object with leaves. -/
def Fits (settings : Dict) (p : Payload) : Prop :=
  ∀ path v, p.json.walk path = some v →
    (v.isObj = true → (Json.obj settings).leaf path = none) ∧
      (v.isObj = false → ∀ k tail, (Json.obj settings).leaf (path ++ k :: tail) = none)

/-- The payload sets every leaf that the settings have in its sections. -/
def Covers (p : Payload) (settings : Dict) : Prop :=
  ∀ k path, Dict.has p.fields k = true → (Json.obj settings).leaf (k :: path) ≠ none →
    ∃ v, p.json.walk (k :: path) = some v ∧ v.scalar ≠ none

/-- Texts and numbers that a diff and the column keep apart. -/
structure Plain (floats : JsonbFloats) (p : Payload) : Prop where
  kept : Kept floats p.fields
  dotless : DotlessKeys p.json

/-- A payload fits the row that it is compared with, and where a row has appeared since a
call found none, the payload covers it. -/
def Admits (floats : JsonbFloats) (pool : Pool ι Store Call) (event : ι × Outcome) : Prop :=
  match event.2, pool.parties event.1 with
  | .done, .ready p _ =>
    (pool.shared.row.isSome && pool.shared.locked) = false →
      Plain floats p ∧ Fits pool.shared.organizationSettingsGet p
  | .done, .selected p _ _ false =>
    pool.shared.locked = false → ∀ stored, pool.shared.row = some stored → Covers p stored
  | _, _ => True

theorem Payload.json_distinct (p : Payload) : p.json.distinct = true := by
  rw [Payload.json, Json.distinct]
  exact p.distinct

/-- A path that a document speaks of ends in a value, or runs below one that is no object. -/
theorem walk_of_touches {j : Json} {path : List String} (h : j.touches path = true) :
    (∃ v, j.walk path = some v) ∨
      ∃ front k tail v, path = front ++ k :: tail ∧ j.walk front = some v ∧ v.isObj = false := by
  induction path generalizing j with
  | nil => exact .inl ⟨j, Json.walk_nil j⟩
  | cons k path ih =>
    cases hj : j.isObj with
    | false => exact .inr ⟨[], k, path, j, rfl, Json.walk_nil j, hj⟩
    | true =>
      cases j with
      | obj d =>
        rw [Json.touches] at h
        obtain ⟨w, hw, hwt⟩ := (Option.any_eq_true _ _).mp h
        obtain ⟨v, hv⟩ | ⟨front, l, tail, v, rfl, hv, hobj⟩ := ih hwt
        · exact .inl ⟨v, by rw [Json.walk_obj, hw, Option.bind_some, hv]⟩
        · exact .inr ⟨k :: front, l, tail, v, rfl,
            by rw [Json.walk_obj, hw, Option.bind_some, hv], hobj⟩
      | _ => exact Bool.noConfusion hj

theorem leaf_of_walk {j v : Json} {path : List String} (h : j.walk path = some v) :
    j.leaf path = v.scalar := by
  rw [Json.leaf, h, Option.bind_some]

theorem leaf_of_fits {settings : Dict} {p : Payload} (hfits : Fits settings p)
    {path : List String} (htouch : p.json.touches path = true)
    (hsame : ∀ v, ¬ Changed (.obj settings) p.json path v) :
    p.json.leaf path = (Json.obj settings).leaf path := by
  obtain ⟨v, hv⟩ | ⟨front, k, tail, v, rfl, hv, hobj⟩ := walk_of_touches htouch
  · rw [leaf_of_walk hv]
    cases hobj : v.isObj with
    | true =>
      rw [(hfits path v hv).1 hobj]
      exact Json.scalar_of_isObj hobj
    | false => exact scalar_of_not_changed p.json_distinct hv hobj (hsame v)
  · have hbelow : p.json.walk (front ++ k :: tail) = none := by
      rw [Json.walk_append, hv, Option.bind_some, Json.walk_of_not_obj hobj]
    rw [(hfits front v hv).2 hobj k tail, Json.leaf, hbelow, Option.bind_none]

theorem leaf_of_covers {settings : Dict} {p : Payload} (hcovers : Covers p settings) {k : String}
    {path : List String} (hk : Dict.has p.fields k = true)
    (hleaf : p.json.leaf (k :: path) = none) : (Json.obj settings).leaf (k :: path) = none := by
  by_contra hne
  obtain ⟨v, hv, hscalar⟩ := hcovers k path hk hne
  exact hscalar (leaf_of_walk hv ▸ hleaf)

/-- What a call read before its upsert: the row as it still is, or no row where the payload
covers the one that there is now. -/
def Meets (store : Store) (p : Payload) (current : Dict) : Prop :=
  (current = store.organizationSettingsGet ∧ Fits current p) ∨
    (current = [] ∧ Covers p store.organizationSettingsGet)

theorem not_touches_of_not_has {p : Payload} {k : String} (h : Dict.has p.fields k = false)
    (path : List String) : p.json.touches (k :: path) = false := by
  have hnone := Option.isSome_eq_false_iff.mp h
  rw [Payload.json, Json.touches, Option.isNone_iff_eq_none.mp hnone]
  rfl

theorem leaf_merged (current : Dict) (p : Payload) (path : List String) :
    (Json.obj (mergeFields current p.fields)).leaf path =
      if p.json.touches path then p.json.leaf path else (Json.obj current).leaf path := by
  rw [← deepMerge_obj]
  exact leaf_deepMerge p.json_distinct (.obj current) path

theorem leaf_empty (path : List String) : (Json.obj []).leaf path = none := by
  cases path with
  | nil => rfl
  | cons k path => rfl

theorem leaf_commit {store : Store} {p : Payload} {current : Dict} (hmeets : Meets store p current)
    (hcurrent : Kept floats current) (hkept : Kept floats p.fields) (changedBy : Option String)
    (path : List String) :
    (store.commit floats p changedBy current).2.leaf path =
      if p.json.touches path then p.json.leaf path else store.leaf path := by
  cases path with
  | nil =>
    have htouch : p.json.touches [] = true := rfl
    rw [htouch, if_pos rfl, Store.leaf, Json.leaf_nil, Json.scalar_obj, Payload.json,
      Json.leaf_nil, Json.scalar_obj]
  | cons k path =>
    rw [Store.leaf, Store.organizationSettingsGet, Store.commit, Option.getD_some,
      leaf_upsert (hcurrent.mergeFields hkept), has_mergeFields, leaf_merged]
    cases hk : Dict.has p.fields k with
    | false =>
      rw [Bool.false_or, not_touches_of_not_has hk, if_neg Bool.false_ne_true,
        if_neg Bool.false_ne_true]
      obtain ⟨rfl, -⟩ | ⟨rfl, -⟩ := hmeets
      · exact ite_self _
      · rfl
    | true =>
      rw [Bool.true_or, if_pos rfl]
      cases htouch : p.json.touches (k :: path) with
      | true => rw [if_pos rfl, if_pos rfl]
      | false =>
        rw [if_neg Bool.false_ne_true, if_neg Bool.false_ne_true]
        obtain ⟨rfl, -⟩ | ⟨rfl, hcovers⟩ := hmeets
        · rfl
        · -- the whole section is replaced, and had no other leaf
          have hnone := leaf_of_covers hcovers hk (Json.leaf_of_not_touches htouch)
          rw [leaf_empty, Store.leaf, hnone]

theorem lastNamed_append (audit : List AuditRow) (row : AuditRow) (text : String) :
    lastNamed (audit ++ [row]) text =
      ((Dict.find row.diff text).map newValue).or (lastNamed audit text) := by
  rw [lastNamed, List.reverse_append, List.reverse_singleton, List.singleton_append,
    List.findSome?_cons]
  cases (Dict.find row.diff text).map newValue with
  | none => rfl
  | some v => rfl

theorem leaf_of_not_named {store : Store} {p : Payload} {current : Dict}
    (hmeets : Meets store p current) {k : String} {path : List String}
    (h : Dict.find (diffSettings current p.fields) (dotted (k :: path)) = none)
    (htouch : p.json.touches (k :: path) = true) :
    p.json.leaf (k :: path) = store.leaf (k :: path) := by
  -- A leaf that the diff does not name keeps its value.
  have hsame : ∀ v, ¬ Changed (.obj current) p.json (k :: path) v := by
    intro v hchanged
    have hhas := has_of_changed hchanged
    rw [Dict.has, h] at hhas
    exact Bool.noConfusion hhas
  obtain ⟨rfl, hfits⟩ | ⟨rfl, hcovers⟩ := hmeets
  · exact leaf_of_fits hfits htouch hsame
  · -- against an empty document only nulls and objects go unnamed
    have hnone : p.json.leaf (k :: path) = none := by
      cases hv : p.json.walk (k :: path) with
      | none => rw [Json.leaf, hv, Option.bind_none]
      | some v =>
        rw [leaf_of_walk hv]
        cases hobj : v.isObj with
        | true => exact Json.scalar_of_isObj hobj
        | false =>
          rw [scalar_of_not_changed p.json_distinct hv hobj (hsame v)]
          exact leaf_empty _
    have hk : Dict.has p.fields k = true := by
      by_contra hk
      rw [not_touches_of_not_has (Bool.eq_false_iff.mpr hk)] at htouch
      exact Bool.noConfusion htouch
    rw [hnone, Store.leaf, leaf_of_covers hcovers hk hnone]

theorem Audited.commit {start : Dict} {store : Store} (h : Audited start store) {p : Payload}
    {current : Dict} (hmeets : Meets store p current) (hcurrent : Kept floats current)
    (hp : Plain floats p) (changedBy : Option String) :
    Audited start (store.commit floats p changedBy current).2 := by
  intro k path hpath
  have hold := h k path hpath
  have haudit : lastNamed (store.commit floats p changedBy current).2.audit (dotted (k :: path)) =
      ((Dict.find (Json.jsonbFields floats (diffSettings current p.fields))
        (dotted (k :: path))).map newValue).or (lastNamed store.audit (dotted (k :: path))) :=
    lastNamed_append _ _ _
  rw [leaf_commit hmeets hcurrent hp.kept, haudit, Json.find_jsonbFields]
  cases hfind : Dict.find (diffSettings current p.fields) (dotted (k :: path)) with
  | none =>
    rw [Option.map_none, Option.map_none, Option.none_or, ← hold]
    cases htouch : p.json.touches (k :: path) with
    | false => rw [if_neg Bool.false_ne_true]
    | true => rw [if_pos rfl, leaf_of_not_named hmeets hfind htouch]
  | some entry =>
    obtain ⟨v, hchanged, rfl⟩ := changed_of_find p.distinct hp.dotless hpath hfind
    have hwalk : p.json.walk (k :: path) = some v := hchanged.1
    have hv : ∀ x ∈ v.floatLeaves, floats.Keeps x := fun x hx =>
      hp.kept x (by simpa [Payload.json, Json.floatLeaves] using Json.floatLeaves_walk hwalk hx)
    rw [Json.touches_of_walk hwalk, if_pos rfl, leaf_of_walk hwalk, Option.map_some,
      Option.map_some, Option.some_or]
    have hback : newValue (Json.jsonb floats (.arr [(Json.obj current).under (k :: path), v])) =
        v.jsonb floats := by
      rw [Json.jsonb, Json.jsonbItems, Json.jsonbItems, Json.jsonbItems]
      rfl
    rw [hback]
    exact (Json.scalar_jsonb hv).symm

def Call.holdsLock : Call → Bool
  | .selected _ _ _ holds => holds
  | _ => false

inductive Turn (floats : JsonbFloats) (store : Store) : Outcome → Call → Call × Store → Prop
  | stay (outcome : Outcome) (call : Call) : Turn floats store outcome call (call, store)
  | abort {call : Call} (h : call.isReturned = false) : Turn floats store .aborted call
      (.failed, { store with locked := store.locked && !call.holdsLock })
  | same {p : Payload} {changedBy : Option String}
      (hfree : (store.row.isSome && store.locked) = false)
      (h : (diffSettings store.organizationSettingsGet p.fields).isEmpty = true) :
      Turn floats store .done (.ready p changedBy)
        (.returned store.organizationSettingsGet false, store)
  | select {p : Payload} {changedBy : Option String}
      (hfree : (store.row.isSome && store.locked) = false) :
      Turn floats store .done (.ready p changedBy)
        (.selected p changedBy store.organizationSettingsGet store.row.isSome,
          { store with locked := store.locked || store.row.isSome })
  | commit {p : Payload} {changedBy : Option String} {current : Dict} {holds : Bool}
      (hfree : (store.locked && !holds) = false) :
      Turn floats store .done (.selected p changedBy current holds)
        (store.commit floats p changedBy current)

theorem turn_update (floats : JsonbFloats) (outcome : Outcome) (call : Call) (store : Store) :
    Turn floats store outcome call (organizationSettingsUpdate floats outcome call store) := by
  cases call with
  | ready p changedBy =>
    cases outcome with
    | aborted =>
      have h : Turn floats store .aborted (.ready p changedBy)
          (.failed, { store with locked := store.locked && !false }) := .abort rfl
      rwa [Bool.not_false, Bool.and_true] at h
    | done =>
      rw [organizationSettingsUpdate]
      split
      · exact .stay _ _
      · rename_i hfree
        have hfree := Bool.eq_false_iff.mpr hfree
        rw [Store.select]
        split
        · rename_i h
          exact .same hfree h
        · exact .select hfree
  | selected p changedBy current holds =>
    cases outcome with
    | aborted => exact .abort rfl
    | done =>
      rw [organizationSettingsUpdate]
      split
      · exact .stay _ _
      · rename_i hfree
        exact .commit (Bool.eq_false_iff.mpr hfree)
  | returned settings changed => exact .stay _ _
  | failed => exact .stay _ _

def Call.Knows (floats : JsonbFloats) (payload : Payload) (call : Call) (store : Store) : Prop :=
  match call with
  | .ready p _ => p = payload
  | .selected p _ current true => p = payload ∧ Plain floats p ∧ store.row = some current ∧
      store.locked = true ∧ Fits current p
  | .selected p _ current false => p = payload ∧ Plain floats p ∧ current = []
  | _ => True

def Call.Apart (a b : Call) : Prop := ¬ (a.holdsLock = true ∧ b.holdsLock = true)

structure SerialInv (floats : JsonbFloats) (start : Dict) (payload : ι → Payload)
    (pool : Pool ι Store Call) : Prop where
  holds : pool.Holds (fun store => Kept floats store.organizationSettingsGet)
    (fun i => Call.Knows floats (payload i)) Call.Apart
  serialised : ∃ order, Serialised start payload pool order
  audited : Audited start pool.shared

theorem Call.Knows.of_not_holds {payload : Payload} {call : Call} {store : Store}
    (h : call.Knows floats payload store) (hholds : call.holdsLock = false) (other : Store) :
    call.Knows floats payload other := by
  -- A call that does not hold the lock knows nothing that another one can change.
  cases call with
  | selected p changedBy current holds =>
    cases holds with
    | true => exact Bool.noConfusion hholds
    | false => exact h
  | _ => exact h

theorem Call.Knows.locked {payload : Payload} {call : Call} {store : Store}
    (h : call.Knows floats payload store) (hholds : call.holdsLock = true) :
    store.locked = true ∧ store.row.isSome = true := by
  cases call with
  | selected p changedBy current holds =>
    cases holds with
    | true =>
      obtain ⟨-, -, hrow, hlocked, -⟩ := h
      exact ⟨hlocked, by rw [hrow]; rfl⟩
    | false => exact Bool.noConfusion hholds
  | _ => exact Bool.noConfusion hholds

/-- At its upsert a call knows enough for a merge into the row. -/
theorem Call.Knows.meets {payload p : Payload} {changedBy : Option String} {current : Dict}
    {holds : Bool} {store : Store}
    (h : (Call.selected p changedBy current holds).Knows floats payload store)
    (hkept : Kept floats store.organizationSettingsGet)
    (hcovers : holds = false → ∀ stored, store.row = some stored → Covers p stored) :
    p = payload ∧ Plain floats p ∧ Meets store p current ∧ Kept floats current := by
  cases holds with
  | true =>
    obtain ⟨hp, hplain, hrow, -, hfits⟩ := h
    have hcurrent : current = store.organizationSettingsGet := by
      rw [Store.organizationSettingsGet, hrow, Option.getD_some]
    exact ⟨hp, hplain, .inl ⟨hcurrent, hfits⟩, hcurrent ▸ hkept⟩
  | false =>
    obtain ⟨hp, hplain, rfl⟩ := h
    refine ⟨hp, hplain, ?_, fun x hx => absurd hx List.not_mem_nil⟩
    cases hrow : store.row with
    | none =>
      refine .inl ⟨by rw [Store.organizationSettingsGet, hrow, Option.getD_none], ?_⟩
      exact fun path v _ => ⟨fun _ => leaf_empty path, fun _ k tail => leaf_empty _⟩
    | some stored =>
      refine .inr ⟨rfl, ?_⟩
      rw [Store.organizationSettingsGet, hrow, Option.getD_some]
      exact hcovers rfl stored hrow

theorem Call.apart_of_free {a : Call} (h : a.holdsLock = false) (b : Call) :
    a.Apart b ∧ b.Apart a := by
  constructor
  · rintro ⟨ha, -⟩
    exact Bool.noConfusion (h.symm.trans ha)
  · rintro ⟨-, ha⟩
    exact Bool.noConfusion (h.symm.trans ha)

theorem SerialInv.others_free {start : Dict} {payload : ι → Payload} {pool : Pool ι Store Call}
    (h : SerialInv floats start payload pool) {i : ι}
    (hi : (pool.shared.row.isSome && pool.shared.locked) = false ∨
      (pool.shared.locked && !(pool.parties i).holdsLock) = false) :
    ∀ j, j ≠ i → (pool.parties j).holdsLock = false := by
  intro j hj
  by_contra hholds
  have hholds := Bool.not_eq_false _ ▸ hholds
  obtain ⟨hlocked, hrow⟩ := (h.holds.own j).locked hholds
  obtain hi | hi := hi
  · rw [hrow, hlocked] at hi
    exact Bool.noConfusion hi
  · rw [hlocked, Bool.true_and, Bool.not_eq_false'] at hi
    exact h.holds.pair i j hj.symm ⟨hi, hholds⟩

theorem SerialInv.begin {row : Option Dict} (hrow : Kept floats (row.getD []))
    (calls : ι → Payload × Option String) :
    SerialInv floats (row.getD []) (fun i => (calls i).1) (Store.start row calls) := by
  refine ⟨⟨hrow, fun i => rfl, ?_⟩, ⟨[], List.nodup_nil, ?_, fun path => rfl⟩, fun k path _ => rfl⟩
  · exact fun i j _ h => Bool.noConfusion h.1
  · exact fun i => ⟨fun h => absurd h List.not_mem_nil, fun h => Bool.noConfusion h⟩

theorem leaf_serial_of_touches (settings : Dict) {payloads : List Payload} {p : Payload}
    (hp : p ∈ payloads) {path : List String} (htouch : p.json.touches path = true) :
    ∃ q ∈ payloads, q.json.touches path = true ∧
      (serial settings payloads).leaf path = q.json.leaf path := by
  -- What stands at a path that a payload speaks of was written by one that does.
  induction payloads using List.reverseRecOn with
  | nil => exact absurd hp List.not_mem_nil
  | append_singleton payloads last ih =>
    have hleaf : (serial settings (payloads ++ [last])).leaf path =
        if last.json.touches path then last.json.leaf path
        else (serial settings payloads).leaf path := by
      rw [serial, List.foldl_append]
      exact leaf_deepMerge last.json_distinct _ path
    cases hlast : last.json.touches path with
    | true =>
      rw [hlast, if_pos rfl] at hleaf
      exact ⟨last, List.mem_append_right _ List.mem_cons_self, hlast, hleaf⟩
    | false =>
      rw [hlast, if_neg Bool.false_ne_true] at hleaf
      obtain hp | hp := List.mem_append.mp hp
      · obtain ⟨q, hq, hqtouch, hqleaf⟩ := ih hp
        exact ⟨q, List.mem_append_left _ hq, hqtouch, hleaf.trans hqleaf⟩
      · rw [List.mem_singleton.mp hp, hlast] at htouch
        exact Bool.noConfusion htouch

section Steps

variable [DecidableEq ι] {start : Dict} {payload : ι → Payload} {pool : Pool ι Store Call}
  {turn : Outcome → Call → Store → Call × Store}

theorem Serialised.unmoved {order : List ι} (h : Serialised start payload pool order) (i : ι)
    (outcome : Outcome) {next : Call × Store}
    (hnext : turn outcome (pool.parties i) pool.shared = next)
    (hreturned : next.1.isReturned = (pool.parties i).isReturned)
    (hleaf : ∀ path, next.2.leaf path = pool.shared.leaf path) :
    Serialised start payload (pool.step turn (i, outcome)) order := by
  subst hnext
  refine ⟨h.nodup, ?_, fun path => (hleaf path).trans (h.leaves path)⟩
  intro j
  rw [h.complete j]
  by_cases hj : j = i
  · subst hj
    rw [Pool.step_self, hreturned]
  · rw [Pool.step_of_ne turn pool hj]

theorem Serialised.append {order : List ι} (h : Serialised start payload pool order) (i : ι)
    (outcome : Outcome) {next : Call × Store}
    (hnext : turn outcome (pool.parties i) pool.shared = next)
    (hbefore : (pool.parties i).isReturned = false) (hreturned : next.1.isReturned = true)
    (hleaf : ∀ path, next.2.leaf path =
      if (payload i).json.touches path then (payload i).json.leaf path
      else pool.shared.leaf path) :
    Serialised start payload (pool.step turn (i, outcome)) (order ++ [i]) := by
  subst hnext
  have hnew : i ∉ order := by
    intro hmem
    rw [h.complete i, hbefore] at hmem
    exact Bool.noConfusion hmem
  refine ⟨List.nodup_append.mpr ⟨h.nodup, by simp, ?_⟩, ?_, ?_⟩
  · rintro a ha b hb rfl
    rw [List.mem_singleton] at hb
    exact hnew (hb ▸ ha)
  · intro j
    rw [List.mem_append, List.mem_singleton, h.complete j]
    by_cases hj : j = i
    · subst hj
      rw [Pool.step_self]
      exact ⟨fun _ => hreturned, fun _ => .inr rfl⟩
    · rw [Pool.step_of_ne turn pool hj]
      exact or_iff_left hj
  · intro path
    refine (hleaf path).trans ?_
    rw [serial, List.map_append, List.foldl_append, List.map_singleton, List.foldl_cons,
      List.foldl_nil, leaf_deepMerge (payload i).json_distinct, h.leaves path]
    rfl

theorem SerialInv.move (h : SerialInv floats start payload pool) (i : ι) (outcome : Outcome)
    {next : Call × Store}
    (hnext : organizationSettingsUpdate floats outcome (pool.parties i) pool.shared = next)
    (hfree : ∀ j, j ≠ i → (pool.parties j).holdsLock = false)
    (hkept : Kept floats next.2.organizationSettingsGet)
    (hknows : next.1.Knows floats (payload i) next.2)
    (hserial : ∃ order,
      Serialised start payload (pool.step (organizationSettingsUpdate floats) (i, outcome)) order)
    (haudit : Audited start next.2) :
    SerialInv floats start payload
      (pool.step (organizationSettingsUpdate floats) (i, outcome)) := by
  refine ⟨h.holds.step (i, outcome) next hnext hkept hknows ?_ ?_, hserial, ?_⟩
  · exact fun j hj => (h.holds.own j).of_not_holds (hfree j hj) next.2
  · exact fun j hj => (Call.apart_of_free (hfree j hj) next.1).symm
  · rw [Pool.step, hnext]
    exact haudit

theorem SerialInv.rest (h : SerialInv floats start payload pool) (i : ι) (outcome : Outcome)
    {next : Call}
    (hnext : organizationSettingsUpdate floats outcome (pool.parties i) pool.shared =
      (next, pool.shared))
    (hknows : next.Knows floats (payload i) pool.shared)
    (hholds : next.holdsLock = false ∨ next = pool.parties i)
    (hserial : ∃ order,
      Serialised start payload (pool.step (organizationSettingsUpdate floats) (i, outcome)) order) :
    SerialInv floats start payload
      (pool.step (organizationSettingsUpdate floats) (i, outcome)) := by
  refine ⟨h.holds.step (i, outcome) _ hnext h.holds.shared hknows ?_ ?_, hserial, ?_⟩
  · exact fun j _ => h.holds.own j
  · intro j hj
    obtain hholds | rfl := hholds
    · exact Call.apart_of_free hholds _
    · exact ⟨h.holds.pair i j hj.symm, h.holds.pair j i hj⟩
  · rw [Pool.step, hnext]
    exact h.audited

theorem SerialInv.kept (h : SerialInv floats start payload pool) (event : ι × Outcome)
    (hadmits : Admits floats pool event) :
    SerialInv floats start payload (pool.step (organizationSettingsUpdate floats) event) := by
  obtain ⟨i, outcome⟩ := event
  obtain ⟨order, hserial⟩ := h.serialised
  have hknows := h.holds.own i
  generalize hnext : organizationSettingsUpdate floats outcome (pool.parties i) pool.shared = next
  have hturn := turn_update floats outcome (pool.parties i) pool.shared
  rw [hnext] at hturn
  rw [Admits] at hadmits
  generalize hcall : pool.parties i = call at hturn hknows hadmits
  cases hturn with
  | stay =>
    subst hcall
    exact h.rest i outcome hnext hknows (.inr rfl)
      ⟨order, hserial.unmoved i outcome hnext rfl fun _ => rfl⟩
  | abort hreturned =>
    subst hcall
    have hunmoved := hserial.unmoved i .aborted hnext hreturned.symm fun _ => rfl
    cases hholds : (pool.parties i).holdsLock with
    | true =>
      have hothers := h.others_free (i := i) (.inr (by rw [hholds, Bool.not_true, Bool.and_false]))
      exact h.move i .aborted hnext hothers h.holds.shared trivial ⟨order, hunmoved⟩ h.audited
    | false =>
      rw [hholds, Bool.not_false, Bool.and_true] at hnext
      exact h.rest i .aborted hnext trivial (.inl rfl) ⟨order, hunmoved⟩
  | @same p changedBy hfree hsame =>
    obtain ⟨hplain, hfits⟩ := hadmits hfree
    obtain rfl : p = payload i := hknows
    have hreturned : (pool.parties i).isReturned = false := by rw [hcall]; rfl
    refine h.rest i .done hnext trivial (.inl rfl)
      ⟨order ++ [i], hserial.append i .done hnext hreturned rfl fun path => ?_⟩
    -- what the payload says is what the row has
    cases htouch : (payload i).json.touches path with
    | false => rw [if_neg Bool.false_ne_true]
    | true =>
      rw [if_pos rfl, Store.leaf,
        leaf_of_fits hfits htouch fun v => not_changed_of_isEmpty hsame path v]
  | @select p changedBy hfree =>
    obtain ⟨hplain, hfits⟩ := hadmits hfree
    obtain rfl : p = payload i := hknows
    refine h.move i .done hnext (h.others_free (.inl hfree)) h.holds.shared ?_
      ⟨order, hserial.unmoved i .done hnext (by rw [hcall]; rfl) fun _ => rfl⟩ h.audited
    cases hrow : pool.shared.row with
    | none => exact ⟨rfl, hplain, by rw [Store.organizationSettingsGet, hrow, Option.getD_none]⟩
    | some stored =>
      refine ⟨rfl, hplain, ?_, Bool.or_true _, hfits⟩
      rw [Store.organizationSettingsGet, hrow, Option.getD_some]
  | @commit p changedBy current holds hfree =>
    have hothers := h.others_free (i := i) (.inr (by rw [hcall]; exact hfree))
    have hreturned : (pool.parties i).isReturned = false := by rw [hcall]; rfl
    have hcovers : holds = false → ∀ stored, pool.shared.row = some stored → Covers p stored := by
      rintro rfl
      exact hadmits (by simpa using hfree)
    obtain ⟨rfl, hplain, hmeets, hcurrent⟩ := hknows.meets h.holds.shared hcovers
    have hleaf := leaf_commit hmeets hcurrent hplain.kept changedBy
    refine h.move i .done hnext hothers ?_ trivial
      ⟨order ++ [i], hserial.append i .done hnext hreturned rfl hleaf⟩
      (h.audited.commit hmeets hcurrent hplain changedBy)
    exact h.holds.shared.upsert (hcurrent.mergeFields hplain.kept)

/-- In every run of admitted turns the stored settings are those of the returned calls one
after another, no leaf is lost to a call that did not write it, and the audit rows name the
values of all leaves. -/
theorem settings_updates_serialise {row : Option Dict} (hrow : Kept floats (row.getD []))
    (calls : ι → Payload × Option String) {events : List (ι × Outcome)}
    (h : Along (Pool.step (organizationSettingsUpdate floats)) (Admits floats)
      (Store.start row calls) events) :
    (∃ order, Serialised (row.getD []) (fun i => (calls i).1)
      (run (Pool.step (organizationSettingsUpdate floats)) (Store.start row calls) events) order) ∧
    (∀ i path, ((run (Pool.step (organizationSettingsUpdate floats)) (Store.start row calls)
        events).parties i).isReturned = true → (calls i).1.json.touches path = true →
      ∃ j, ((run (Pool.step (organizationSettingsUpdate floats)) (Store.start row calls)
          events).parties j).isReturned = true ∧ (calls j).1.json.touches path = true ∧
        (run (Pool.step (organizationSettingsUpdate floats)) (Store.start row calls)
          events).shared.leaf path = (calls j).1.json.leaf path) ∧
    Audited (row.getD [])
      (run (Pool.step (organizationSettingsUpdate floats)) (Store.start row calls)
        events).shared := by
  have hinv := Along.invariant (P := SerialInv floats (row.getD []) fun i => (calls i).1)
    (fun pool event hpool hok => hpool.kept event hok) (SerialInv.begin hrow calls) h
  obtain ⟨order, horder⟩ := hinv.serialised
  refine ⟨⟨order, horder⟩, ?_, hinv.audited⟩
  intro i path hi htouch
  have hmem : (calls i).1 ∈ order.map fun i => (calls i).1 :=
    List.mem_map_of_mem ((horder.complete i).mpr hi)
  obtain ⟨q, hq, hqtouch, hqleaf⟩ := leaf_serial_of_touches (row.getD []) hmem htouch
  obtain ⟨j, hj, rfl⟩ := List.mem_map.mp hq
  exact ⟨j, (horder.complete j).mp hj, hqtouch, (horder.leaves path).trans hqleaf⟩

end Steps

def switch (topic name : String) : Payload := ⟨[(topic, .obj [(name, .bool true)])], rfl, rfl⟩

theorem walk_switch {topic name : String} {path : List String} {v : Json}
    (h : (switch topic name).json.walk path = some v) :
    path = [] ∨ path = [topic] ∨ path = [topic, name] := by
  cases path with
  | nil => exact .inl rfl
  | cons k path =>
    simp only [switch, Payload.json, Json.walk_obj, Dict.find] at h
    split at h
    · rename_i hk
      subst hk
      cases path with
      | nil => exact .inr (.inl rfl)
      | cons l path =>
        simp only [Option.bind_some, Json.walk_obj, Dict.find] at h
        split at h
        · rename_i hl
          subst hl
          cases path with
          | nil => exact .inr (.inr rfl)
          | cons m path => exact absurd h (by simp [Json.walk])
        · exact absurd h (by simp)
    · exact absurd h (by simp)

theorem switch_plain {topic name : String} (htopic : '.' ∉ topic.toList)
    (hname : '.' ∉ name.toList) : Plain JsonbFloats.same (switch topic name) := by
  refine ⟨fun x _ => JsonbFloats.Keeps.same x, ?_⟩
  intro path v hv k hk
  obtain rfl | rfl | rfl := walk_switch hv
  · exact absurd hk List.not_mem_nil
  · rwa [List.mem_singleton.mp hk]
  · obtain rfl | hk := List.mem_cons.mp hk
    · exact htopic
    · rwa [List.mem_singleton.mp hk]

def apartCalls (i : Bool) : Payload × Option String :=
  (if i then switch "recall" "enabled" else switch "search" "recall_boost", none)

/-- Two first writers of different sections. -/
theorem settings_updates_serialise_sample :
    ∃ order, Serialised [] (fun i => (apartCalls i).1)
      (run (Pool.step (organizationSettingsUpdate JsonbFloats.same)) (Store.start none apartCalls)
        [(false, .done), (true, .done), (true, .done), (false, .done)]) order := by
  have hkept : Kept JsonbFloats.same ((none : Option Dict).getD []) :=
    fun x _ => JsonbFloats.Keeps.same x
  have hfits : ∀ p, Fits [] p := fun p path v _ =>
    ⟨fun _ => leaf_empty path, fun _ k tail => leaf_empty _⟩
  refine (settings_updates_serialise hkept apartCalls ?_).1
  refine ⟨?_, ?_, ?_, ?_, trivial⟩
  · exact fun _ => ⟨switch_plain (by decide) (by decide), hfits _⟩
  · exact fun _ => ⟨switch_plain (by decide) (by decide), hfits _⟩
  · exact fun _ stored hrow => absurd hrow (by intro h; cases h)
  · -- the row that has appeared has another section
    rintro - stored hrow k path hk hne
    obtain rfl := Option.some.inj hrow
    have hkey : "search" = k := by
      by_contra hother
      have hfind : Dict.find [("search", .obj [("recall_boost", .bool true)])] k = none :=
        if_neg hother
      exact Bool.noConfusion ((congrArg Option.isSome hfind).symm.trans hk)
    subst hkey
    exact absurd rfl hne

def rivalCalls (i : Bool) : Payload × Option String :=
  (if i then switch "security_audit" "alerts_enabled"
    else switch "security_audit" "schedule_enabled", none)

/-- Of two first writers of one section the later one takes the leaf of the other away. -/
theorem first_writers_lose_leaf :
    ¬ ∃ order, Serialised [] (fun i => (rivalCalls i).1)
      (run (Pool.step (organizationSettingsUpdate JsonbFloats.same)) (Store.start none rivalCalls)
        [(false, .done), (true, .done), (false, .done), (true, .done)]) order := by
  rintro ⟨order, horder⟩
  have hmem : (rivalCalls false).1 ∈ order.map fun i => (rivalCalls i).1 :=
    List.mem_map_of_mem ((horder.complete false).mpr rfl)
  have htouch : (rivalCalls false).1.json.touches ["security_audit", "schedule_enabled"] = true :=
    rfl
  obtain ⟨q, hq, hqtouch, hleaf⟩ := leaf_serial_of_touches [] hmem htouch
  obtain ⟨i, -, rfl⟩ := List.mem_map.mp hq
  rw [← horder.leaves] at hleaf
  cases i with
  | true => exact Bool.noConfusion hqtouch
  | false =>
    have hnone : (run (Pool.step (organizationSettingsUpdate JsonbFloats.same))
        (Store.start none rivalCalls)
        [(false, .done), (true, .done), (false, .done), (true, .done)]).shared.leaf
          ["security_audit", "schedule_enabled"] = none := rfl
    have hsome : ((rivalCalls false).1.json.leaf
        ["security_audit", "schedule_enabled"]).isSome = true := rfl
    rw [← hleaf, hnone] at hsome
    exact Bool.noConfusion hsome

end Memclaw.Settings

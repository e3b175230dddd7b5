import Memclaw.Insights.Table

/-! One run without interference: when it leaves an insight of what it returns active, and when it
leaves the insights of before as they were. -/

namespace Memclaw.Insights

open Memclaw.Lib
open Memclaw.Write (BulkItemResult Existing Inserted NewRow Row Screened Slot Table WriteEnv
  bulkLookup bulkSlots dictGet resolveQueued screen storageResult)

namespace Persist

variable {p : Persist} {env : WriteEnv} {store : Store} {existing : List (String × Existing)}

def Kept (env : WriteEnv) (p : Persist) (i : ℕ) (content : String) : Prop :=
  (p.request.items.map (screen env p.key.tenantId))[i]? = some (.kept content)

def hashOf (p : Persist) (content : String) : String :=
  Write.contentHash p.key.tenantId p.key.fleetId content

def createdIds (env : WriteEnv) (p : Persist) (existing : List (String × Existing))
    (table : Table) : List (Option ℕ) :=
  ((bulkSlots env p.request p.bulkAttemptId existing).mapIdx (Write.resolve
    ((p.pending env existing).map (storageResult (table.insertAll (p.pending env existing))))
      p.bulkAttemptId (bulkSlots env p.request p.bulkAttemptId existing))).map BulkItemResult.id

theorem mem_createdIds {table : Table} {id : ℕ} :
    some id ∈ p.createdIds env existing table ↔ ∃ i slot,
      (bulkSlots env p.request p.bulkAttemptId existing)[i]? = some slot ∧
        (Write.resolve ((p.pending env existing).map
          (storageResult (table.insertAll (p.pending env existing)))) p.bulkAttemptId
            (bulkSlots env p.request p.bulkAttemptId existing) i slot).id = some id := by
  rw [createdIds, List.mem_map]
  constructor
  · rintro ⟨result, hresult, hid⟩
    obtain ⟨i, hi⟩ := List.mem_iff_getElem?.mp hresult
    rw [List.getElem?_mapIdx] at hi
    obtain ⟨slot, hslot, rfl⟩ := Option.map_eq_some_iff.mp hi
    exact ⟨i, slot, hslot, hid⟩
  · rintro ⟨i, slot, hslot, hid⟩
    refine ⟨_, List.mem_iff_getElem?.mpr ⟨i, ?_⟩, hid⟩
    rw [List.getElem?_mapIdx, hslot]
    rfl

theorem slot_of_kept (existing : List (String × Existing)) {i : ℕ} {content : String} (hkept : p.Kept env i content) :
    ∃ slot, (bulkSlots env p.request p.bulkAttemptId existing)[i]? = some slot ∧
      Write.KeptSlot p.request p.bulkAttemptId existing
        (bulkSlots env p.request p.bulkAttemptId existing) i content slot := by
  have hitem : (p.request.items.map (screen env p.request.tenantId))[i]? =
      some (.kept content) := hkept
  exact Write.bulkSlots_item hitem

theorem slot_of_refused {i : ℕ} {item : Screened} {slot : Slot}
    (hitem : (p.request.items.map (screen env p.request.tenantId))[i]? = some item)
    (hslot : (bulkSlots env p.request p.bulkAttemptId existing)[i]? = some slot)
    (hrefused : ∀ content, item ≠ .kept content) :
    ∃ result, slot = .done result ∧ result.id = none := by
  have hitemSlot : ∃ slot', (bulkSlots env p.request p.bulkAttemptId existing)[i]? = some slot' ∧
      Write.ItemSlot p.request p.bulkAttemptId existing
        (bulkSlots env p.request p.bulkAttemptId existing) i item slot' := Write.bulkSlots_item hitem
  obtain ⟨slot', hslot', hitemSlot⟩ := hitemSlot
  obtain rfl := Option.some.inj (hslot.symm.trans hslot')
  cases item with
  | kept content => exact absurd rfl (hrefused content)
  | short => exact hitemSlot
  | dropped => exact hitemSlot

theorem createdIds_of_found {table : Table} {i : ℕ} {content : String}
    (hkept : p.Kept env i content) {found : Existing}
    (hfound : dictGet existing (p.hashOf content) = some found) :
    some found.id ∈ p.createdIds env existing table := by
  obtain ⟨slot, hslot, hkeptSlot⟩ := slot_of_kept existing hkept
  have hpending : ∀ n ∈ p.pending env existing, n.contentHash ≠ p.hashOf content := by
    intro n hn hhash
    obtain ⟨-, -, -, -, hnone⟩ := Write.mem_pendingRows hn
    rw [hhash, hfound] at hnone
    exact Option.some_ne_none found hnone
  cases hkeptSlot with
  | found he =>
    obtain rfl := Option.some.inj (he.symm.trans hfound)
    refine mem_createdIds.mpr ⟨i, _, hslot, ?_⟩
    rw [Write.resolve]
    split <;> rfl
  | repeated hfirst hhash => exact absurd hhash (hpending _ (Write.queued_mem_pendingRows hfirst))
  | queued => exact absurd rfl (hpending _ (Write.queued_mem_pendingRows hslot))

theorem resolve_repeated {results : List Write.StorageResult} {bulkAttemptId : String}
    {all : List Slot} {first i id : ℕ} {n : NewRow} (hfirst : all[first]? = some (.queued n))
    (hid : (resolveQueued results first n).id = some id) :
    (Write.resolve results bulkAttemptId all i (.repeated first)).id = some id := by
  rw [Write.resolve, hfirst]
  dsimp only
  rw [hid]

section Fresh

variable {added : List Row} (hadded : Inserted store.table (p.pending env existing) added)
  (hfresh : ∀ r ∈ store.table.live, ¬ p.Made r)

include hadded hfresh

theorem resolveQueued_created {n : NewRow} (hn : n ∈ p.pending env existing) (i : ℕ) :
    ∃ r ∈ added, r.toNewRow = n ∧ (resolveQueued ((p.pending env existing).map
      (storageResult (store.table.insertAll (p.pending env existing)))) i n).id = some r.id := by
  obtain ⟨r, hr, hrow⟩ := exists_added hadded hfresh hn
  have hquery : ∃ entry, (store.table.insertAll (p.pending env existing)).2.find?
      (·.1 = n.clientRequestId) = some entry := by
    refine Option.ne_none_iff_exists'.mp fun hnone => ?_
    rw [hadded.returned] at hnone
    refine absurd (List.find?_eq_none.mp hnone _ (List.mem_map_of_mem hr)) ?_
    simp [← hrow]
  obtain ⟨entry, hentry⟩ := hquery
  have hmem := List.mem_of_find?_eq_some hentry
  rw [hadded.returned] at hmem
  obtain ⟨r', hr', rfl⟩ := List.mem_map.mp hmem
  have hrequest : r'.clientRequestId = n.clientRequestId := by simpa using List.find?_some hentry
  have hpending := hadded.sublist.mem (List.mem_map_of_mem hr')
  refine ⟨r', hr', Write.pendingRows_eq_of_request hpending hn hrequest, ?_⟩
  rw [pending, Write.resolveQueued_eq hn, storageResult]
  rw [pending] at hentry
  rw [hentry]

theorem createdIds_of_pending {n : NewRow} (hn : n ∈ p.pending env existing) :
    ∃ r ∈ added, r.toNewRow = n ∧ some r.id ∈ p.createdIds env existing store.table := by
  obtain ⟨slot, hslot, hqueued⟩ := List.mem_filterMap.mp hn
  obtain ⟨i, hi⟩ := List.mem_iff_getElem?.mp hslot
  obtain ⟨r, hr, hrow, hid⟩ := resolveQueued_created hadded hfresh hn i
  refine ⟨r, hr, hrow, mem_createdIds.mpr ⟨i, slot, hi, ?_⟩⟩
  cases slot with
  | queued n' =>
    obtain rfl := Option.some.inj hqueued
    exact hid
  | done result => exact absurd hqueued.symm (Option.some_ne_none n)
  | repeated first => exact absurd hqueued.symm (Option.some_ne_none n)

theorem id_of_kept {i : ℕ} {content : String} (hkept : p.Kept env i content) {slot : Slot}
    (hslot : (bulkSlots env p.request p.bulkAttemptId existing)[i]? = some slot) :
    ∃ id, (Write.resolve ((p.pending env existing).map
        (storageResult (store.table.insertAll (p.pending env existing)))) p.bulkAttemptId
          (bulkSlots env p.request p.bulkAttemptId existing) i slot).id = some id ∧
      ((∃ found, dictGet existing (p.hashOf content) = some found ∧ id = found.id) ∨
        ∃ r ∈ added, id = r.id) := by
  -- A finding that passes the checks gets the id of a row which the lookup found under its content,
  -- or of a row that the run inserts.
  obtain ⟨slot', hslot', hkeptSlot⟩ := slot_of_kept existing hkept
  obtain rfl := Option.some.inj (hslot.symm.trans hslot')
  cases hkeptSlot with
  | found he =>
    refine ⟨_, ?_, .inl ⟨_, he, rfl⟩⟩
    rw [Write.resolve]
    split <;> rfl
  | repeated hfirst hhash =>
    obtain ⟨r, hr, -, hid⟩ :=
      resolveQueued_created hadded hfresh (Write.queued_mem_pendingRows hfirst) _
    exact ⟨r.id, resolve_repeated hfirst hid, .inr ⟨r, hr, rfl⟩⟩
  | queued =>
    obtain ⟨r, hr, -, hid⟩ :=
      resolveQueued_created hadded hfresh (Write.queued_mem_pendingRows hslot) i
    exact ⟨r.id, hid, .inr ⟨r, hr, rfl⟩⟩

theorem createdIds_of_kept {i : ℕ} {content : String} (hkept : p.Kept env i content) :
    ∃ id, some id ∈ p.createdIds env existing store.table := by
  obtain ⟨slot, hslot, -⟩ := slot_of_kept existing hkept
  obtain ⟨id, hid, -⟩ := id_of_kept hadded hfresh hkept hslot
  exact ⟨id, mem_createdIds.mpr ⟨i, slot, hslot, hid⟩⟩

theorem kept_of_createdIds {id : ℕ} (hid : some id ∈ p.createdIds env existing store.table) :
    ∃ i content, p.Kept env i content ∧
      ((∃ found, dictGet existing (p.hashOf content) = some found ∧ id = found.id) ∨
        ∃ r ∈ added, id = r.id) := by
  obtain ⟨i, slot, hslot, hresult⟩ := mem_createdIds.mp hid
  have hlt : i < (p.request.items.map (screen env p.request.tenantId)).length := by
    have hlt := (List.getElem?_eq_some_iff.mp hslot).1
    rwa [Write.bulkSlots_length, ← List.length_map] at hlt
  obtain ⟨item, hitem⟩ : ∃ item, (p.request.items.map (screen env p.request.tenantId))[i]? =
      some item := ⟨_, List.getElem?_eq_getElem hlt⟩
  cases item with
  | kept content =>
    have hkept : p.Kept env i content := hitem
    obtain ⟨id', hid', hsource⟩ := id_of_kept hadded hfresh hkept hslot
    obtain rfl := Option.some.inj (hresult.symm.trans hid')
    exact ⟨i, content, hkept, hsource⟩
  | short =>
    obtain ⟨result, rfl, hnone⟩ := slot_of_refused hitem hslot (by simp)
    exact absurd (hresult.symm.trans hnone) (Option.some_ne_none id)
  | dropped =>
    obtain ⟨result, rfl, hnone⟩ := slot_of_refused hitem hslot (by simp)
    exact absurd (hresult.symm.trans hnone) (Option.some_ne_none id)

end Fresh

end Persist

namespace Persist

variable {p : Persist} {env : WriteEnv} {store : Store}

theorem inserted_self : store.inserted p store.table = store := by
  refine congrArg (Store.mk store.table) (funext fun id => ?_)
  split
  · rfl
  · next hnone =>
    have hfind : store.table.rows.find? (·.id = id) = none := by
      rw [List.find?_eq_none]
      intro r hr hid
      exact hnone (List.any_eq_true.mpr ⟨r, hr, hid⟩)
    rw [hfind]

/-- What the bulk create of a run leaves: the ids of its findings, and the store. -/
def attempt (env : WriteEnv) (p : Persist) (answers : Answers) (store : Store) :
    List (Option ℕ) × Store :=
  let existing := bulkLookup env store.table p.request
  if answers.lookUp = .ok then
    if p.pending env existing = [] ∨ answers.create = .ok then
      (p.createdIds env existing store.table,
        store.inserted p (store.table.insertAll (p.pending env existing)).1)
    else (p.noIds, if answers.create = .lost then
      store.inserted p (store.table.insertAll (p.pending env existing)).1 else store)
  else (p.noIds, store)

def conclude (p : Persist) (answer : Answer) (priorIds : List ℕ) (ids : List (Option ℕ))
    (store : Store) : Stage × Store :=
  if priorIds ≠ [] ∧ ids ≠ [] ∧ ids.all (·.isNone) then p.restore answer priorIds store
  else (.finished (.returned ids), store)

theorem create_eq {answer : Answer} {priorIds : List ℕ} {existing : List (String × Existing)} :
    p.create env answer priorIds existing store =
      if p.pending env existing = [] ∨ answer = .ok then
        (settle priorIds (p.createdIds env existing store.table),
          store.inserted p (store.table.insertAll (p.pending env existing)).1)
      else (settle priorIds p.noIds, if answer = .lost then
        store.inserted p (store.table.insertAll (p.pending env existing)).1 else store) := by
  unfold create
  rw [Write.bulkCommit_eq]
  dsimp only
  by_cases hnone : p.pending env existing = []
  · rw [if_pos hnone, if_pos (.inl hnone), hnone]
    show _ = (_, store.inserted p store.table)
    rw [inserted_self]
    rfl
  · rw [if_neg hnone]
    cases answer with
    | ok =>
      rw [if_pos (.inr rfl)]
      rfl
    | lost =>
      rw [if_neg (by simp [hnone]), if_pos rfl]
      rfl
    | refused => rw [if_neg (by simp [hnone]), if_neg (by decide)]
    | errorStatus => rw [if_neg (by simp [hnone]), if_neg (by decide)]

def next (env : WriteEnv) (p : Persist) (answers : Answers) (c : Stage × Store) : Stage × Store :=
  p.turn env (answers.at c.1) c.1 c.2

theorem restore_finished (answer : Answer) (priorIds : List ℕ) :
    ∃ outcome, (p.restore answer priorIds store).1 = .finished outcome := by
  cases answer with
  | ok => exact ⟨_, rfl⟩
  | refused => exact ⟨_, rfl⟩
  | lost => exact ⟨_, rfl⟩
  | errorStatus => exact ⟨_, rfl⟩

theorem next_finished {answers : Answers} {c : Stage × Store} {outcome : Outcome}
    (h : c.1 = .finished outcome) (n : ℕ) : (next env p answers)^[n] c = c := by
  refine Function.iterate_fixed ?_ n
  obtain ⟨stage, store⟩ := c
  obtain rfl : stage = .finished outcome := h
  rfl

theorem next_settle {answers : Answers} (priorIds : List ℕ) (ids : List (Option ℕ)) (n : ℕ) :
    (next env p answers)^[n + 1] (settle priorIds ids, store) =
      p.conclude answers.restore priorIds ids store := by
  unfold settle conclude
  split
  · obtain ⟨outcome, houtcome⟩ : ∃ outcome, (p.restore answers.restore priorIds store).1 =
        .finished outcome := restore_finished answers.restore priorIds
    rw [Function.iterate_succ_apply]
    exact next_finished houtcome n
  · exact next_finished rfl (n + 1)

theorem persistFindings_eq {answers : Answers} (hne : p.findings ≠ [])
    (hok : answers.supersede = .ok) (hmax : ¬ bulkMaxItems < p.findings.length) :
    persistFindings env p answers store =
      p.conclude answers.restore (store.priorIds p.key)
        (p.attempt env answers (store.insightsSupersedePriors p.key).1).1
        (p.attempt env answers (store.insightsSupersedePriors p.key).1).2 := by
  have hfirst : next env p answers (.start, store) =
      (.superseded (store.priorIds p.key), (store.insightsSupersedePriors p.key).1) := by
    show (if p.findings = [] then _ else p.supersede answers.supersede store) = _
    rw [if_neg hne, hok]
    exact if_neg hmax
  show (next env p answers)^[3] (next env p answers (.start, store)) = _
  rw [hfirst, Function.iterate_succ_apply]
  show (next env p answers)^[2] (p.lookUp env answers.lookUp _ _) = _
  unfold attempt
  by_cases hlookup : answers.lookUp = .ok
  · rw [if_pos hlookup, hlookup, Function.iterate_succ_apply]
    show (next env p answers)^[1] (p.create env answers.create _ _ _) = _
    rw [create_eq]
    split
    · exact next_settle _ _ 0
    · exact next_settle _ _ 0
  · rw [if_neg hlookup]
    have hcaught : p.lookUp env answers.lookUp (store.priorIds p.key)
        (store.insightsSupersedePriors p.key).1 =
          (settle (store.priorIds p.key) p.noIds, (store.insightsSupersedePriors p.key).1) := by
      unfold lookUp
      split
      · next h => exact absurd h hlookup
      · rfl
    rw [hcaught]
    exact next_settle _ _ 1

end Persist

def Store.isActive (store : Store) (id : ℕ) : Bool :=
  store.table.live.any fun r => r.id = id && store.active r

/-- A run that returns ids leaves one of them active; a run that returns none leaves active the
insights that were. -/
def Lasting (before : Store) (after : Stage × Store) : Prop :=
  ∀ ids, after.1 = .finished (.returned ids) →
    ((∃ id, some id ∈ ids) → ∃ id, some id ∈ ids ∧ after.2.isActive id = true) ∧
    ((∀ id, some id ∉ ids) → ∀ r ∈ before.table.live,
      (before.columns r.id).memoryType = .insight → before.active r = true →
        after.2.isActive r.id = true)

/-- The store of a run past its supersede: all rows of before are there, with the columns that the
supersede left. -/
structure Follows (store : Store) (key : Key) (after : Store) : Prop where
  live : ∀ r ∈ store.table.live, r ∈ after.table.live
  columns : ∀ r ∈ store.table.rows,
    after.columns r.id = (store.insightsSupersedePriors key).1.columns r.id

section Lasting

variable {p : Persist} {store after : Store} {key : Key}

theorem isActive_iff {id : ℕ} :
    store.isActive id = true ↔ ∃ r ∈ store.table.live, r.id = id ∧ store.active r = true := by
  simp [Store.isActive, List.any_eq_true]

theorem Follows.isActive_iff (h : Follows store key after) {r : Row} (hr : r ∈ store.table.live) :
    after.isActive r.id = true ↔ store.active r = true ∧ r.id ∉ store.priorIds key := by
  have hcolumns := h.columns r (Write.Table.mem_live.mp hr).1
  have hactive : ∀ r', r'.id = r.id → (after.active r' = true ↔
      (store.insightsSupersedePriors key).1.active r = true) := by
    intro r' hid
    rw [Store.active, hid, hcolumns]
    rfl
  rw [Insights.isActive_iff, ← Store.active_superseded]
  constructor
  · rintro ⟨r', -, hid, hr'⟩
    exact (hactive r' hid).mp hr'
  · intro hr'
    exact ⟨r, h.live r hr, rfl, (hactive r rfl).mpr hr'⟩

theorem follows_superseded : Follows store key (store.insightsSupersedePriors key).1 :=
  ⟨fun _ hr => hr, fun _ _ => rfl⟩

theorem follows_inserted {env : WriteEnv} {existing : List (String × Existing)} {added : List Row}
    (hadded : Inserted store.table (p.pending env existing) added) :
    Follows store key ((store.insightsSupersedePriors key).1.inserted p
      (store.table.insertAll (p.pending env existing)).1) := by
  refine ⟨fun r hr => ?_, fun r hr => ?_⟩
  · obtain ⟨hrow, hlive⟩ := Write.Table.mem_live.mp hr
    refine Write.Table.mem_live.mpr ⟨?_, hlive⟩
    show r ∈ (store.table.insertAll (p.pending env existing)).1.rows
    rw [hadded.rows]
    exact List.mem_append_left _ hrow
  · have hrow : r ∈ (store.insightsSupersedePriors key).1.table.rows := hr
    exact Store.columns_inserted_old p _ hrow

theorem Follows.frame (h : Follows store key after) {r : Row} (hr : r ∈ store.table.live)
    (hactive : store.active r = true) (hprior : r.id ∉ store.priorIds key) :
    after.isActive r.id = true :=
  (h.isActive_iff hr).mpr ⟨hactive, hprior⟩

theorem Follows.restored (h : Follows store key after) {r : Row} (hr : r ∈ store.table.live)
    (hactive : store.active r = true) :
    (after.insightsRestorePriors key.tenantId (store.priorIds key)).isActive r.id = true := by
  refine Insights.isActive_iff.mpr ⟨r, h.live r hr, rfl, Store.active_restored.mpr ?_⟩
  by_cases hprior : r.id ∈ store.priorIds key
  · right
    obtain ⟨r', hr', hid⟩ := Store.mem_priorIds.mp hprior
    obtain ⟨hlive', hkey, -⟩ := Store.mem_generation.mp hr'
    obtain rfl : r' = r := List.inj_on_of_nodup_map store.table.nodup
      (Write.Table.mem_live.mp hlive').1 (Write.Table.mem_live.mp hr).1 hid
    have houtdated : (after.columns r'.id).status = .outdated := by
      rw [h.columns r' (Write.Table.mem_live.mp hr).1]
      show (if _ then _ else _ : Columns).status = _
      rw [if_pos (List.contains_iff_mem.mpr hprior)]
    have htenant : r'.tenantId = key.tenantId := by
      simp only [Store.ofKey, Bool.and_eq_true, decide_eq_true_eq] at hkey
      exact hkey.1.1.1.1.1
    simp only [Store.restores, Bool.and_eq_true, List.contains_iff_mem, decide_eq_true_eq,
      List.any_eq_true]
    exact ⟨⟨hprior, houtdated⟩, r', (Write.Table.mem_live.mp (h.live r' hr)).1, rfl, htenant⟩
  · left
    obtain ⟨r', -, hid, hr'⟩ := Insights.isActive_iff.mp (h.frame hr hactive hprior)
    rwa [Store.active, ← hid]

theorem lasting_returned (h : Follows store key after) {ids : List (Option ℕ)}
    (hnone : ∀ id, some id ∉ ids) :
    Lasting store (.finished (.returned ids), after) ↔ store.priorIds key = [] := by
  -- Without ids and without a restore, the insights of before last when there are no priors.
  constructor
  · intro hlasting
    refine List.eq_nil_iff_forall_not_mem.mpr fun id hid => ?_
    obtain ⟨r, hr, rfl⟩ := Store.mem_priorIds.mp hid
    obtain ⟨hlive, hkey, hactive⟩ := Store.mem_generation.mp hr
    have hinsight : (store.columns r.id).memoryType = .insight := by
      simp only [Store.ofKey, Bool.and_eq_true, decide_eq_true_eq] at hkey
      exact hkey.1.1.1.2
    have hafter := (hlasting ids rfl).2 hnone r hlive hinsight hactive
    exact ((h.isActive_iff hlive).mp hafter).2 hid
  · intro hpriors ids' hids
    obtain rfl := Outcome.returned.inj (Stage.finished.inj hids)
    constructor
    · intro hsome
      obtain ⟨id, hid⟩ := hsome
      exact absurd hid (hnone id)
    · intro _ r hr _ hactive
      refine h.frame hr hactive ?_
      rw [hpriors]
      exact List.not_mem_nil

theorem lasting_raised : Lasting store (.finished .raised, after) :=
  fun _ h => Outcome.noConfusion (Stage.finished.inj h)

theorem mem_noIds (id : ℕ) : some id ∉ p.noIds :=
  fun h => Option.some_ne_none id (List.eq_of_mem_replicate h)

theorem lasting_of_ids {ids : List (Option ℕ)} (hids : ∃ id, some id ∈ ids) (answer : Answer)
    (priorIds : List ℕ) :
    Lasting store (p.conclude answer priorIds ids after) ↔
      ∃ id, some id ∈ ids ∧ after.isActive id = true := by
  have hreturned : p.conclude answer priorIds ids after = (.finished (.returned ids), after) := by
    refine if_neg fun h => ?_
    obtain ⟨id, hid⟩ := hids
    exact Bool.false_ne_true (List.all_eq_true.mp h.2.2 _ hid)
  rw [hreturned]
  constructor
  · exact fun hlasting => (hlasting ids rfl).1 hids
  · intro hactive ids' hids'
    obtain rfl := Outcome.returned.inj (Stage.finished.inj hids')
    obtain ⟨id, hid⟩ := hids
    exact ⟨fun _ => hactive, fun hnone => absurd hid (hnone id)⟩

theorem lasting_of_no_ids (h : Follows store p.key after) {ids : List (Option ℕ)}
    (hnone : ∀ id, some id ∉ ids) (hne : ids ≠ []) (answer : Answer) :
    Lasting store (p.conclude answer (store.priorIds p.key) ids after) ↔
      store.priorIds p.key = [] ∨ answer ≠ .refused := by
  by_cases hpriors : store.priorIds p.key = []
  · have hreturned : p.conclude answer (store.priorIds p.key) ids after =
        (.finished (.returned ids), after) := if_neg fun h => h.1 hpriors
    rw [hreturned, lasting_returned h hnone]
    exact ⟨fun h => .inl h, fun _ => hpriors⟩
  · have hall : ids.all (·.isNone) = true := by
      refine List.all_eq_true.mpr fun id hid => ?_
      cases id with
      | none => rfl
      | some id => exact absurd hid (hnone id)
    have hrestore : p.conclude answer (store.priorIds p.key) ids after =
        p.restore answer (store.priorIds p.key) after := if_pos ⟨hpriors, hne, hall⟩
    have hrestored : Lasting store (.finished (.returned p.noIds),
        after.insightsRestorePriors p.key.tenantId (store.priorIds p.key)) := by
      intro ids' hids'
      obtain rfl := Outcome.returned.inj (Stage.finished.inj hids')
      constructor
      · intro hsome
        obtain ⟨id, hid⟩ := hsome
        exact absurd hid (mem_noIds id)
      · intro _ r hr _ hactive
        exact h.restored hr hactive
    rw [hrestore, or_iff_right hpriors]
    cases answer with
    | ok => exact iff_of_true hrestored (by decide)
    | lost => exact iff_of_true hrestored (by decide)
    | errorStatus => exact iff_of_true lasting_raised (by decide)
    | refused =>
      show Lasting store (.finished (.returned p.noIds), after) ↔ _
      rw [lasting_returned h mem_noIds]
      exact iff_of_false hpriors fun h => h rfl

end Lasting

section Condition

variable {env : WriteEnv} {p : Persist} {answers : Answers} {store : Store}

/-- The bulk create is answered, and some finding passes the content checks. -/
def Answered (env : WriteEnv) (p : Persist) (answers : Answers) (store : Store) : Prop :=
  answers.lookUp = .ok ∧
    (p.pending env (bulkLookup env store.table p.request) = [] ∨ answers.create = .ok) ∧
    ∃ i content, p.Kept env i content

/-- A finding repeats the content of a live row that is active and none of the priors, or a row to
insert is enriched as active. -/
def Remains (env : WriteEnv) (p : Persist) (store : Store) : Prop :=
  (∃ i content found, p.Kept env i content ∧
    dictGet (bulkLookup env store.table p.request) (p.hashOf content) = some found ∧
      store.isActive found.id = true ∧ found.id ∉ store.priorIds p.key) ∨
  ∃ n ∈ p.pending env (bulkLookup env store.table p.request), ∃ i,
    n.clientRequestId = some (p.requestId i) ∧ (p.columns i).status = .active

/-- A reply to the supersede that is lost must find no priors. After a reply, what the run
returns has to remain; and where it returns nothing, no priors were there or their restore is
carried out. -/
def Spared (env : WriteEnv) (p : Persist) (answers : Answers) (store : Store) : Prop :=
  match answers.supersede with
  | .refused | .errorStatus => True
  | .lost => store.priorIds p.key = []
  | .ok => bulkMaxItems < p.findings.length ∨ (Answered env p answers store ∧ Remains env p store) ∨
      (¬ Answered env p answers store ∧ (store.priorIds p.key = [] ∨ answers.restore ≠ .refused))

theorem isActive_added {existing : List (String × Existing)} {added : List Row}
    (hadded : Inserted store.table (p.pending env existing) added) {r : Row} (hr : r ∈ added) :
    ((store.insightsSupersedePriors p.key).1.inserted p
      (store.table.insertAll (p.pending env existing)).1).isActive r.id = true ↔
        (p.columns (p.indexOf r)).status = .active := by
  have hrows : (store.table.insertAll (p.pending env existing)).1.rows =
      (store.insightsSupersedePriors p.key).1.table.rows ++ added := hadded.rows
  have hcolumns := Store.columns_inserted_new p hrows hr
  rw [isActive_iff]
  constructor
  · rintro ⟨r', -, hid, hactive⟩
    rw [Store.active, hid, hcolumns] at hactive
    exact of_decide_eq_true hactive
  · intro hactive
    refine ⟨r, Write.Table.mem_live.mpr ⟨?_, hadded.live r hr⟩, rfl, ?_⟩
    · show r ∈ (store.table.insertAll (p.pending env existing)).1.rows
      rw [hadded.rows]
      exact List.mem_append_right _ hr
    · rw [Store.active, hcolumns]
      exact decide_eq_true hactive

theorem found_isActive {content : String} {found : Existing} {after : Store}
    (hfollows : Follows store p.key after)
    (hfound : dictGet (bulkLookup env store.table p.request) (p.hashOf content) = some found) :
    after.isActive found.id = true ↔
      store.isActive found.id = true ∧ found.id ∉ store.priorIds p.key := by
  -- A row that the lookup found is live, and keeps its status unless it is one of the priors.
  obtain ⟨r, hr, -, rfl⟩ := Write.mem_bulkLookup (Write.dictGet_mem hfound)
  rw [hfollows.isActive_iff hr, isActive_iff]
  refine and_congr_left fun _ => ⟨fun hactive => ⟨r, hr, rfl, hactive⟩, ?_⟩
  rintro ⟨r', -, hid, hactive⟩
  have hsame : r'.id = r.id := hid
  rwa [Store.active, ← hsame]

theorem created_remains_iff (hfresh : ∀ r ∈ store.table.live, ¬ p.Made r) {added : List Row}
    (hadded : Inserted store.table
      (p.pending env (bulkLookup env store.table p.request)) added) {after : Store}
    (hafter : after = (store.insightsSupersedePriors p.key).1.inserted p (store.table.insertAll
      (p.pending env (bulkLookup env store.table p.request))).1) :
    (∃ id, some id ∈ p.createdIds env (bulkLookup env store.table p.request) store.table ∧
      after.isActive id = true) ↔ Remains env p store := by
  subst hafter
  have hfollows : Follows store p.key ((store.insightsSupersedePriors p.key).1.inserted p
      (store.table.insertAll (p.pending env (bulkLookup env store.table p.request))).1) :=
    follows_inserted hadded
  constructor
  · rintro ⟨id, hid, hactive⟩
    obtain ⟨i, content, hkept, ⟨found, hfound, rfl⟩ | ⟨r, hr, rfl⟩⟩ :=
      Persist.kept_of_createdIds hadded hfresh hid
    · obtain ⟨hbefore, hprior⟩ := (found_isActive hfollows hfound).mp hactive
      exact .inl ⟨i, content, found, hkept, hfound, hbefore, hprior⟩
    · obtain ⟨k, hlt, hk⟩ := Persist.made_of_added hadded hr
      rw [isActive_added hadded hr, Persist.indexOf_eq hlt hk] at hactive
      exact .inr ⟨r.toNewRow, hadded.sublist.mem (List.mem_map_of_mem hr), k, hk, hactive⟩
  · rintro (⟨i, content, found, hkept, hfound, hbefore, hprior⟩ | ⟨n, hn, k, hk, hactive⟩)
    · exact ⟨found.id, Persist.createdIds_of_found hkept hfound,
        (found_isActive hfollows hfound).mpr ⟨hbefore, hprior⟩⟩
    · obtain ⟨r, hr, rfl, hid⟩ := Persist.createdIds_of_pending hadded hfresh hn
      refine ⟨r.id, hid, (isActive_added hadded hr).mpr ?_⟩
      obtain ⟨k', hlt, hk'⟩ := Persist.made_of_added hadded hr
      rw [Persist.indexOf_eq hlt hk']
      rwa [(Persist.requestId_injective (Option.some.inj (hk'.symm.trans hk))).2]

theorem attempt_answered (hanswered : Answered env p answers store) :
    p.attempt env answers (store.insightsSupersedePriors p.key).1 =
      (p.createdIds env (bulkLookup env store.table p.request) store.table,
        (store.insightsSupersedePriors p.key).1.inserted p (store.table.insertAll
          (p.pending env (bulkLookup env store.table p.request))).1) :=
  (if_pos hanswered.1).trans (if_pos hanswered.2.1)

theorem attempt_unanswered (hne : p.findings ≠ [])
    (hfresh : ∀ r ∈ store.table.live, ¬ p.Made r) {added : List Row}
    (hadded : Inserted store.table
      (p.pending env (bulkLookup env store.table p.request)) added)
    (hunanswered : ¬ Answered env p answers store) :
    (∀ id, some id ∉ (p.attempt env answers (store.insightsSupersedePriors p.key).1).1) ∧
      (p.attempt env answers (store.insightsSupersedePriors p.key).1).1 ≠ [] ∧
      Follows store p.key (p.attempt env answers (store.insightsSupersedePriors p.key).1).2 := by
  -- A bulk create that is not answered, or of which no finding passes the checks, gives no id.
  have hnoIds : p.noIds ≠ [] := by
    rw [Persist.noIds, Ne, List.replicate_eq_nil_iff, List.length_eq_zero_iff]
    exact hne
  unfold Persist.attempt
  dsimp only
  split
  · next hlookup =>
    split
    · next hcreated =>
      refine ⟨fun id hid => ?_, fun hnil => ?_, follows_inserted hadded⟩
      · obtain ⟨i, content, hkept, -⟩ := Persist.kept_of_createdIds hadded hfresh hid
        exact hunanswered ⟨hlookup, hcreated, i, content, hkept⟩
      · have hlength := congrArg List.length hnil
        rw [Persist.createdIds, List.length_map, List.length_mapIdx, Write.bulkSlots_length,
          Persist.request, List.length_map] at hlength
        exact hne (List.length_eq_zero_iff.mp hlength)
    · refine ⟨mem_noIds, hnoIds, ?_⟩
      split
      · exact follows_inserted hadded
      · exact follows_superseded
  · exact ⟨mem_noIds, hnoIds, follows_superseded⟩

/-- A run without interference lasts exactly when it is spared. -/
theorem persistFindings_lasting_iff (env : WriteEnv) (p : Persist) (answers : Answers)
    (store : Store) (hne : p.findings ≠ []) (hfresh : ∀ r ∈ store.table.live, ¬ p.Made r) :
    Lasting store (persistFindings env p answers store) ↔ Spared env p answers store := by
  have hfirst : persistFindings env p answers store = (p.next env answers)^[3]
      (p.supersede answers.supersede store) := by
    show (p.next env answers)^[3] (if p.findings = [] then _ else _) = _
    rw [if_neg hne]
    rfl
  unfold Spared
  cases hsupersede : answers.supersede with
  | refused =>
    rw [hsupersede] at hfirst
    rw [hfirst, Persist.next_finished rfl]
    refine iff_of_true (fun ids hids => ?_) trivial
    obtain rfl := Outcome.returned.inj (Stage.finished.inj hids)
    exact ⟨fun ⟨id, hid⟩ => absurd hid (mem_noIds id),
      fun _ r hr _ hactive => isActive_iff.mpr ⟨r, hr, rfl, hactive⟩⟩
  | errorStatus =>
    rw [hsupersede] at hfirst
    rw [hfirst, Persist.next_finished rfl]
    exact iff_of_true lasting_raised trivial
  | lost =>
    rw [hsupersede] at hfirst
    rw [hfirst, Persist.next_finished rfl]
    exact lasting_returned follows_superseded mem_noIds
  | ok =>
    dsimp only
    by_cases hmax : bulkMaxItems < p.findings.length
    · have hraised : p.supersede .ok store =
          (.finished .raised, (store.insightsSupersedePriors p.key).1) := if_pos hmax
      rw [hsupersede, hraised] at hfirst
      rw [hfirst, Persist.next_finished rfl]
      exact iff_of_true lasting_raised (.inl hmax)
    · obtain ⟨added, hadded⟩ := Write.exists_inserted store.table
        (p.pending env (bulkLookup env store.table p.request))
      rw [Persist.persistFindings_eq hne hsupersede hmax, or_iff_right hmax]
      by_cases hanswered : Answered env p answers store
      · obtain ⟨i, content, hkept⟩ := hanswered.2.2
        rw [attempt_answered hanswered,
          lasting_of_ids (Persist.createdIds_of_kept hadded hfresh hkept),
          created_remains_iff hfresh hadded rfl]
        exact ⟨fun h => .inl ⟨hanswered, h⟩, fun h => h.elim And.right fun h => absurd hanswered h.1⟩
      · obtain ⟨hnone, hnil, hfollows⟩ := attempt_unanswered hne hfresh hadded hanswered
        rw [lasting_of_no_ids hfollows hnone hnil]
        exact ⟨fun h => .inr ⟨hanswered, h⟩, fun h => h.elim (fun h => absurd h.1 hanswered) And.right⟩

end Condition

def allOk : Answers := ⟨.ok, .ok, .ok, .ok⟩

def firstStore : Store :=
  (persistFindings Write.plainEnv (sampleRuns false) allOk emptyStore).2

theorem firstStore_fresh : ∀ r ∈ firstStore.table.live, ¬ (sampleRuns true).Made r := by
  have hrows : firstStore.table.live.map (·.clientRequestId) =
      [some ((sampleRuns false).requestId 0)] := by decide
  rintro r hr ⟨i, hi⟩
  have hrequest := List.mem_singleton.mp (hrows ▸ List.mem_map_of_mem hr)
  have hsame := Persist.requestId_injective (Option.some.inj (hi.symm.trans hrequest))
  exact absurd (sampleRuns_distinct _ _ hsame.1) (by decide)

/-- A second run over the insight of a first one. -/
theorem persistFindings_lasting_iff_sample :
    Lasting firstStore (persistFindings Write.plainEnv (sampleRuns true) allOk firstStore) ↔
      Spared Write.plainEnv (sampleRuns true) allOk firstStore :=
  persistFindings_lasting_iff Write.plainEnv (sampleRuns true) allOk firstStore (by decide)
    firstStore_fresh

/-- A second run with the same finding is answered with the insight that it has just outdated. -/
theorem identical_rerun_vanishes :
    ¬ ∀ (env : WriteEnv) (p : Persist) (answers : Answers) (store : Store), p.findings ≠ [] →
      (∀ r ∈ store.table.live, ¬ p.Made r) → answers = allOk →
        Lasting store (persistFindings env p answers store) := by
  intro h
  obtain ⟨hreturned, hgone⟩ :
      (persistFindings Write.plainEnv (sampleRuns true) allOk firstStore).1 =
          .finished (.returned [some 0]) ∧
        (persistFindings Write.plainEnv (sampleRuns true) allOk firstStore).2.isActive 0 = false := by
    decide +kernel
  obtain ⟨id, hid, hactive⟩ := (h Write.plainEnv (sampleRuns true) allOk firstStore (by decide)
    firstStore_fresh rfl _ hreturned).1 ⟨0, List.mem_cons_self⟩
  obtain rfl := Option.some.inj (List.mem_singleton.mp hid)
  rw [hgone] at hactive
  exact Bool.false_ne_true hactive

end Memclaw.Insights

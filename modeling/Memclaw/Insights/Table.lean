import Mathlib.Logic.Function.Iterate
import Memclaw.Lib.Keyed
import Memclaw.Memories.TableDefs
import Memclaw.Write.Bulk
import Memclaw.Write.ServiceDefs
import Memclaw.Write.TableDefs

/-! `_persist_findings`: the priors of a key are superseded, the findings are written in bulk, and
the priors come back when none of them got an id. Each call to storage is a transaction of its own,
so that a run is the sequence of its calls. What the transactions of a run make of the active
insights. -/

namespace Memclaw.Insights

open Memclaw.Contradiction (Status)
open Memclaw.Lib
open Memclaw.Memories (MemoryType)
open Memclaw.Write (BulkItemResult BulkRequest Existing Inserted NewRow Row Table WriteEnv)

structure Columns where
  memoryType : MemoryType
  status : Status
  insightFocus : Option String
  insightScope : Option String

/-- The table, with these columns under the ids of its rows. -/
structure Store where
  table : Table
  columns : ℕ → Columns

structure Key where
  tenantId : String
  agentId : String
  fleetId : Option String
  focus : String
  scope : String

namespace Store

def active (store : Store) (r : Row) : Bool := (store.columns r.id).status = .active

def ofKey (store : Store) (key : Key) (r : Row) : Bool :=
  r.tenantId = key.tenantId && r.agentId = key.agentId &&
    (store.columns r.id).memoryType = .insight &&
    (store.columns r.id).insightFocus = some key.focus &&
    (store.columns r.id).insightScope = some key.scope && r.fleetId = key.fleetId

def setStatus (store : Store) (status : Status) (chosen : ℕ → Bool) : Store where
  table := store.table
  columns := fun id =>
    if chosen id then { store.columns id with status := status } else store.columns id

def generation (store : Store) (key : Key) : List Row :=
  store.table.live.filter fun r => store.ofKey key r && store.active r

def priorIds (store : Store) (key : Key) : List ℕ := (store.generation key).map (·.id)

def insightsSupersedePriors (store : Store) (key : Key) : Store × List ℕ :=
  (store.setStatus .outdated (store.priorIds key).contains, store.priorIds key)

/-- Whether a restore moves the row of an id. -/
def restores (store : Store) (tenantId : String) (priorIds : List ℕ) (id : ℕ) : Bool :=
  priorIds.contains id && (store.columns id).status = .outdated &&
    store.table.rows.any fun r => r.id = id && r.tenantId = tenantId

def insightsRestorePriors (store : Store) (tenantId : String) (priorIds : List ℕ) : Store :=
  store.setStatus .active (store.restores tenantId priorIds)

end Store

structure Finding where
  type : String
  title : String
  description : String
  recommendation : String

def truncated (n : ℕ) (text : String) : String := String.ofList (text.toList.take n)

def Finding.content (f : Finding) : String :=
  let recommendation := truncated 500 f.recommendation
  "[Insight/" ++ f.type ++ "] " ++ truncated 80 f.title ++ ": " ++ truncated 1000 f.description ++
    if recommendation = "" then "" else " Recommendation: " ++ recommendation

/-- A run: its arguments, the uuid that it draws, and the status that the inline enrichment gives
the finding at an index. -/
structure Persist where
  key : Key
  findings : List Finding
  attemptId : Uuid
  enriched : ℕ → Option Status

namespace Persist

def request (p : Persist) : BulkRequest where
  tenantId := p.key.tenantId
  fleetId := p.key.fleetId
  agentId := p.key.agentId
  items := p.findings.map Finding.content

def bulkAttemptId (p : Persist) : String := "insights:" ++ String.ofList p.attemptId.text

def requestId (p : Persist) (i : ℕ) : String := Write.itemRequestId p.bulkAttemptId i

def columns (p : Persist) (i : ℕ) : Columns where
  memoryType := .insight
  status := (p.enriched i).getD .active
  insightFocus := some p.key.focus
  insightScope := some p.key.scope

def indexOf (p : Persist) (r : Row) : ℕ :=
  ((List.range p.findings.length).find? fun i => r.clientRequestId = some (p.requestId i)).getD 0

def pending (env : WriteEnv) (p : Persist) (existing : List (String × Existing)) : List NewRow :=
  Write.pendingRows env p.request p.bulkAttemptId existing

end Persist

def Store.inserted (store : Store) (p : Persist) (table : Table) : Store where
  table := table
  columns := fun id =>
    if store.table.rows.any (·.id = id) then store.columns id
    else match table.rows.find? (·.id = id) with
      | some r => p.columns (p.indexOf r)
      | none => store.columns id

/-- What a call meets: its reply, an exception with or without the call carried out, or an error
status of the service. -/
inductive Answer
  | ok
  | refused
  | lost
  | errorStatus
deriving DecidableEq

inductive Outcome
  | returned (insightIds : List (Option ℕ))
  | raised
deriving DecidableEq

inductive Stage
  | start
  | superseded (priorIds : List ℕ)
  | lookedUp (priorIds : List ℕ) (existing : List (String × Existing))
  | failed (priorIds : List ℕ)
  | finished (outcome : Outcome)
deriving DecidableEq

def bulkMaxItems : ℕ := 100

namespace Persist

def noIds (p : Persist) : List (Option ℕ) := List.replicate p.findings.length none

def settle (priorIds : List ℕ) (insightIds : List (Option ℕ)) : Stage :=
  if priorIds ≠ [] ∧ insightIds ≠ [] ∧ insightIds.all (·.isNone) then .failed priorIds
  else .finished (.returned insightIds)

def supersede (p : Persist) (answer : Answer) (store : Store) : Stage × Store :=
  let superseded := store.insightsSupersedePriors p.key
  match answer with
  | .ok =>
    if bulkMaxItems < p.findings.length then (.finished .raised, superseded.1)
    else (.superseded superseded.2, superseded.1)
  | .refused => (.finished (.returned p.noIds), store)
  | .lost => (.finished (.returned p.noIds), superseded.1)
  | .errorStatus => (.finished .raised, store)

/-- `create_memories_bulk` up to its lookup of the content hashes; whatever it raises is caught. -/
def lookUp (env : WriteEnv) (p : Persist) (answer : Answer) (priorIds : List ℕ) (store : Store) :
    Stage × Store :=
  match answer with
  | .ok => (.lookedUp priorIds (Write.bulkLookup env store.table p.request), store)
  | _ => (settle priorIds p.noIds, store)

def create (env : WriteEnv) (p : Persist) (answer : Answer) (priorIds : List ℕ)
    (existing : List (String × Existing)) (store : Store) : Stage × Store :=
  match Write.bulkCommit env store.table p.request p.bulkAttemptId existing with
  | none => (settle priorIds p.noIds, store)
  | some (table, results) =>
    if p.pending env existing = [] then (settle priorIds (results.map BulkItemResult.id), store)
    else match answer with
      | .ok => (settle priorIds (results.map BulkItemResult.id), store.inserted p table)
      | .lost => (settle priorIds p.noIds, store.inserted p table)
      | _ => (settle priorIds p.noIds, store)

def restore (p : Persist) (answer : Answer) (priorIds : List ℕ) (store : Store) : Stage × Store :=
  match answer with
  | .ok | .lost =>
    (.finished (.returned p.noIds), store.insightsRestorePriors p.key.tenantId priorIds)
  | .refused => (.finished (.returned p.noIds), store)
  | .errorStatus => (.finished .raised, store)

def turn (env : WriteEnv) (p : Persist) (answer : Answer) (stage : Stage) (store : Store) :
    Stage × Store :=
  match stage with
  | .start =>
    if p.findings = [] then (.finished (.returned []), store) else p.supersede answer store
  | .superseded priorIds => p.lookUp env answer priorIds store
  | .lookedUp priorIds existing => p.create env answer priorIds existing store
  | .failed priorIds => p.restore answer priorIds store
  | .finished outcome => (.finished outcome, store)

end Persist

/-- What the calls of a run meet. -/
structure Answers where
  supersede : Answer
  lookUp : Answer
  create : Answer
  restore : Answer

def Answers.at (answers : Answers) : Stage → Answer
  | .superseded _ => answers.lookUp
  | .lookedUp _ _ => answers.create
  | .failed _ => answers.restore
  | _ => answers.supersede

def persistFindings (env : WriteEnv) (p : Persist) (answers : Answers) (store : Store) :
    Stage × Store :=
  (fun c : Stage × Store => p.turn env (answers.at c.1) c.1 c.2)^[4] (.start, store)

variable {store : Store} {key : Key} {r : Row}

namespace Store

theorem mem_generation :
    r ∈ store.generation key ↔
      r ∈ store.table.live ∧ store.ofKey key r = true ∧ store.active r = true := by
  rw [generation, List.mem_filter, Bool.and_eq_true]

theorem mem_priorIds {id : ℕ} :
    id ∈ store.priorIds key ↔ ∃ r ∈ store.generation key, r.id = id := List.mem_map

@[simp] theorem ofKey_setStatus (status : Contradiction.Status) (chosen : ℕ → Bool) :
    (store.setStatus status chosen).ofKey key r = store.ofKey key r := by
  unfold ofKey setStatus
  dsimp only
  split <;> rfl

theorem active_superseded :
    (store.insightsSupersedePriors key).1.active r = true ↔
      store.active r = true ∧ r.id ∉ store.priorIds key := by
  simp only [active, insightsSupersedePriors, setStatus, List.contains_iff_mem]
  split
  · next hprior => simp [hprior]
  · next hprior => simp [hprior]

theorem generation_superseded : (store.insightsSupersedePriors key).1.generation key = [] := by
  refine List.eq_nil_iff_forall_not_mem.mpr fun r hr => ?_
  obtain ⟨hlive, hkey, hactive⟩ := mem_generation.mp hr
  obtain ⟨hbefore, hprior⟩ := active_superseded.mp hactive
  have hkey' : store.ofKey key r = true := by
    rwa [insightsSupersedePriors, ofKey_setStatus] at hkey
  exact hprior (mem_priorIds.mpr ⟨r, mem_generation.mpr ⟨hlive, hkey', hbefore⟩, rfl⟩)

theorem active_restored {tenantId : String} {priorIds : List ℕ} :
    (store.insightsRestorePriors tenantId priorIds).active r = true ↔
      store.active r = true ∨ store.restores tenantId priorIds r.id = true := by
  simp only [active, insightsRestorePriors, setStatus]
  split
  · next h => simp [h]
  · next h => simp [h]

theorem mem_generation_restored {tenantId : String} {priorIds : List ℕ} :
    r ∈ (store.insightsRestorePriors tenantId priorIds).generation key ↔
      r ∈ store.generation key ∨
        r ∈ store.table.live ∧ store.ofKey key r = true ∧
          store.restores tenantId priorIds r.id = true := by
  rw [mem_generation, mem_generation, active_restored, insightsRestorePriors, ofKey_setStatus]
  show r ∈ store.table.live ∧ _ ↔ _
  rw [and_or_left, and_or_left]

variable {p : Persist} {table : Table}

theorem columns_inserted_old (p : Persist) (table : Table) (hr : r ∈ store.table.rows) :
    (store.inserted p table).columns r.id = store.columns r.id :=
  if_pos (List.any_eq_true.mpr ⟨r, hr, decide_eq_true rfl⟩)

theorem columns_inserted_new (p : Persist) {added : List Row} (hrows : table.rows = store.table.rows ++ added)
    (hr : r ∈ added) : (store.inserted p table).columns r.id = p.columns (p.indexOf r) := by
  have hnodup : ((store.table.rows ++ added).map Row.id).Nodup := hrows ▸ table.nodup
  have hold : ¬ (store.table.rows.any (·.id = r.id)) = true := by
    intro hany
    obtain ⟨old, hmem, hid⟩ := List.any_eq_true.mp hany
    rw [List.map_append] at hnodup
    refine List.disjoint_of_nodup_append hnodup (List.mem_map_of_mem hmem) ?_
    rw [of_decide_eq_true hid]
    exact List.mem_map_of_mem hr
  have hfind : Keyed.get Row.id table.rows r.id = some r :=
    Keyed.get_of_mem table.nodup (hrows ▸ List.mem_append_right _ hr)
  have hget : table.rows.find? (·.id = r.id) = some r := hfind
  show (if _ then _ else _) = _
  rw [if_neg hold, hget]

end Store

namespace Persist

variable {p : Persist} {env : WriteEnv} {existing : List (String × Existing)} {n : NewRow}

theorem mem_pending (hn : n ∈ p.pending env existing) :
    n.tenantId = p.key.tenantId ∧ n.fleetId = p.key.fleetId ∧ n.agentId = p.key.agentId ∧
      ∃ i < p.findings.length, n.clientRequestId = some (p.requestId i) := by
  obtain ⟨i, content, hitem, rfl, -⟩ := Write.mem_pendingRows hn
  refine ⟨rfl, rfl, rfl, i, ?_, rfl⟩
  have hlt := (List.getElem?_eq_some_iff.mp hitem).1
  simpa [request] using hlt

theorem requestId_injective {q : Persist} {i j : ℕ} (h : p.requestId i = q.requestId j) :
    p.bulkAttemptId = q.bulkAttemptId ∧ i = j := Write.itemRequestId_injective h

theorem indexOf_eq {i : ℕ} (hi : i < p.findings.length)
    (hr : r.clientRequestId = some (p.requestId i)) : p.indexOf r = i := by
  unfold indexOf
  cases hfind : (List.range p.findings.length).find?
      fun j => r.clientRequestId = some (p.requestId j) with
  | none => exact absurd (List.find?_eq_none.mp hfind i (List.mem_range.mpr hi)) (by simp [hr])
  | some j =>
    have hj : r.clientRequestId = some (p.requestId j) := by simpa using List.find?_some hfind
    exact (requestId_injective (Option.some.inj (hj.symm.trans hr))).2

def Made (p : Persist) (r : Row) : Prop := ∃ i, r.clientRequestId = some (p.requestId i)

section Inserts

variable {added : List Row} (hadded : Inserted store.table (p.pending env existing) added)

include hadded

theorem made_of_added (hr : r ∈ added) : ∃ i < p.findings.length,
    r.clientRequestId = some (p.requestId i) :=
  (mem_pending (hadded.sublist.mem (List.mem_map_of_mem hr))).2.2.2

theorem mem_generation_inserted :
    r ∈ (store.inserted p (store.table.insertAll (p.pending env existing)).1).generation p.key ↔
      r ∈ store.generation p.key ∨ r ∈ added ∧ (p.columns (p.indexOf r)).status = .active := by
  have hrows := hadded.rows
  have hlive : r ∈ (store.table.insertAll (p.pending env existing)).1.live ↔
      r ∈ store.table.live ∨ r ∈ added := by
    rw [Write.Table.mem_live, hrows, List.mem_append, Write.Table.mem_live, or_and_right]
    exact or_congr_right ⟨fun h => h.1, fun h => ⟨h, hadded.live r h⟩⟩
  rw [Store.mem_generation, Store.mem_generation]
  show r ∈ (store.table.insertAll (p.pending env existing)).1.live ∧ _ ↔ _
  rw [hlive, or_and_right]
  refine or_congr (and_congr_right fun hold => ?_) (and_congr_right fun hnew => ?_)
  · have hcolumns := Store.columns_inserted_old p
      (store.table.insertAll (p.pending env existing)).1 (Write.Table.mem_live.mp hold).1
    unfold Store.ofKey Store.active
    rw [hcolumns]
  · have hcolumns := Store.columns_inserted_new p hrows hnew
    obtain ⟨htenant, hfleet, hagent, -⟩ :=
      mem_pending (hadded.sublist.mem (List.mem_map_of_mem hnew))
    refine (and_iff_right ?_).trans ?_
    · rw [Store.ofKey, hcolumns, htenant, hfleet, hagent]
      simp [columns]
    · rw [Store.active, hcolumns, decide_eq_true_eq]

theorem exists_added (hfresh : ∀ r ∈ store.table.live, ¬ p.Made r)
    (hn : n ∈ p.pending env existing) : ∃ r ∈ added, r.toNewRow = n := by
  rcases hadded.swallowed n hn with hinserted | ⟨y, hy, -, -, -, hsame⟩
  · exact hinserted
  · obtain ⟨-, -, -, i, -, hi⟩ := mem_pending hn
    obtain ⟨hrows, hlive⟩ := Write.Table.mem_live.mp hy
    rw [hadded.rows] at hrows
    rcases List.mem_append.mp hrows with hold | hnew
    · exact absurd ⟨i, hsame.trans hi⟩ (hfresh y (Write.Table.mem_live.mpr ⟨hold, hlive⟩))
    · have hpending := hadded.sublist.mem (List.mem_map_of_mem hnew)
      exact ⟨y, hnew, Write.pendingRows_eq_of_request hpending hn hsame⟩

end Inserts

end Persist

def sampleKey : Key := ⟨"t", "a", none, "patterns", "agent"⟩

theorem zero_lt_uuids : 0 < 2 ^ 128 := by decide

theorem one_lt_uuids : 1 < 2 ^ 128 := by decide

def sampleRuns (late : Bool) : Persist where
  key := sampleKey
  findings := [⟨"patterns", "Deploys fail on Fridays", "Seen in four weeks.", ""⟩]
  attemptId := if late then ⟨1, one_lt_uuids⟩ else ⟨0, zero_lt_uuids⟩
  enriched := fun _ => none

def emptyStore : Store := ⟨.empty, fun _ => ⟨.fact, .active, none, none⟩⟩

theorem sampleRuns_distinct (i j : Bool)
    (h : (sampleRuns i).bulkAttemptId = (sampleRuns j).bulkAttemptId) : i = j := by
  have hall : ∀ i j, (sampleRuns i).bulkAttemptId = (sampleRuns j).bulkAttemptId → i = j := by
    decide
  exact hall i j h

end Memclaw.Insights

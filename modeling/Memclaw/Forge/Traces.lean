import Memclaw.Forge.DistillDefs
import Memclaw.Lib.Groups
import Memclaw.Lib.Interleave

/-! The session-trace builder: the memories of a window become one row for each run and agent, and
the rows are upserted under these two alone. A later window that reads a part of a run puts the
part in the place of the whole. -/

namespace Memclaw.Forge

open Memclaw.Lib Memclaw.Lib.Interleave

structure SessionMemory where
  id : String
  runId : Option String
  agentId : String
  fleetId : Option String
  createdAt : ℤ
deriving DecidableEq

structure MemoryRow where
  memoryId : String
  runId : String
  agentId : String
  fleetId : Option String
  createdAt : ℤ
deriving DecidableEq

abbrev TraceKey := String × String

def MemoryRow.key (m : MemoryRow) : TraceKey := (m.runId, m.agentId)

structure TraceRow extends SessionTraceRow where
  fleetId : Option String
  runId : String
  outcomeLabel : String
  startedAt : ℤ
  endedAt : ℤ

def TraceRow.key (row : TraceRow) : TraceKey := (row.runId, row.agentId)

/-- A call of the builder with `persist`: its window and fleet, the labels that the folded evidence
gives to the traces, and the entities linked to the memories. -/
structure BuildCall where
  fleetId : Option String
  windowStart : ℤ
  windowEnd : ℤ
  outcomeLabel : TraceKey → String
  entityIds : String → List String

structure RowOrder where
  order : List MemoryRow → List MemoryRow
  order_perm : ∀ rows, (order rows).Perm rows

def RowOrder.plain : RowOrder := ⟨fun rows => rows, fun _ => .refl _⟩

/-- The row that a call reads of a memory: one of a run, of its window and of its fleet or of none. -/
def BuildCall.row? (call : BuildCall) (m : SessionMemory) : Option MemoryRow :=
  if call.windowStart ≤ m.createdAt ∧ m.createdAt < call.windowEnd ∧
      (call.fleetId = none ∨ m.fleetId = call.fleetId ∨ m.fleetId = none) then
    m.runId.map fun runId => ⟨m.id, runId, m.agentId, m.fleetId, m.createdAt⟩
  else none

def sessionMemoriesInWindow (db : RowOrder) (call : BuildCall) (memories : List SessionMemory) :
    List MemoryRow :=
  db.order (memories.filterMap call.row?)

def groupMemories (rows : List MemoryRow) : List (TraceKey × List MemoryRow) :=
  Groups.collect MemoryRow.key (fun m members => members.getD [] ++ [m]) [] rows

def traceOf (call : BuildCall) (key : TraceKey) (members : List MemoryRow) : TraceRow where
  agentId := key.2
  memoryIds := members.map MemoryRow.memoryId
  entityIds := SortedSet.sorted (· ≤ ·) (members.flatMap fun m => call.entityIds m.memoryId)
  fleetId := call.fleetId
  runId := key.1
  outcomeLabel := call.outcomeLabel key
  startedAt := (members.map MemoryRow.createdAt).min?.getD 0
  endedAt := (members.map MemoryRow.createdAt).max?.getD 0

def builtTraces (call : BuildCall) (rows : List MemoryRow) : List TraceRow :=
  (groupMemories rows).map fun group => traceOf call group.1 group.2

abbrev TraceTable := List (TraceKey × TraceRow)

/-- `INSERT … ON CONFLICT (tenant_id, run_id, agent_id) DO UPDATE` -/
def sessionTracesUpsert (table : TraceTable) (traces : List TraceRow) : TraceTable :=
  Groups.collect TraceRow.key (fun row _ => row) table traces

/-- The memories and the traces of a tenant. The last field is a ghost: what the calls have read
so far. -/
structure TraceStore where
  memories : List SessionMemory
  traces : TraceTable
  read : List MemoryRow

def TraceStore.empty : TraceStore := ⟨[], [], []⟩

inductive TraceEvent
  | write (m : SessionMemory)
  | build (call : BuildCall)

def buildSessionTraces (db : RowOrder) (call : BuildCall) (s : TraceStore) : TraceStore :=
  let rows := sessionMemoriesInWindow db call s.memories
  { s with
    traces := sessionTracesUpsert s.traces (builtTraces call rows)
    read := s.read ++ rows }

def traceStep (db : RowOrder) (s : TraceStore) : TraceEvent → TraceStore
  | .write m =>
    if s.memories.any fun other => other.id = m.id then s
    else { s with memories := s.memories ++ [m] }
  | .build call => buildSessionTraces db call s

/-- The memory is listed in exactly one stored row, which is that of its run and agent and spans the
time of the memory. -/
def TraceStore.Keeps (s : TraceStore) (m : MemoryRow) : Prop :=
  ∃ row, (s.traces.map Prod.snd).filter (fun row => m.memoryId ∈ row.memoryIds) = [row] ∧
    row.key = m.key ∧ row.startedAt ≤ m.createdAt ∧ m.createdAt ≤ row.endedAt

def TraceStore.KeepsAll (s : TraceStore) : Prop := ∀ m ∈ s.read, s.Keeps m

/-- A call that reads a memory of a stored trace reads all memories that the trace lists. -/
def Covers (db : RowOrder) (s : TraceStore) : TraceEvent → Prop
  | .write _ => True
  | .build call =>
    let rows := sessionMemoriesInWindow db call s.memories
    ∀ entry ∈ s.traces, (∃ m ∈ rows, m.key = entry.1) →
      ∀ id ∈ entry.2.memoryIds, id ∈ rows.map MemoryRow.memoryId

section Build

variable {db : RowOrder} {call : BuildCall} {rows : List MemoryRow} {table : TraceTable} {k : TraceKey}

def ofKey (rows : List MemoryRow) (k : TraceKey) : List MemoryRow := rows.filter fun m => m.key = k

theorem mem_ofKey {m : MemoryRow} : m ∈ ofKey rows k ↔ m ∈ rows ∧ m.key = k := by
  rw [ofKey, List.mem_filter, decide_eq_true_iff]

theorem groupMemories_ofKey (hrows : ∀ m ∈ rows, m.key = k) :
    groupMemories rows = if rows = [] then [] else [(k, rows)] := by
  -- The group of the rows so far takes one row after another.
  have hfold : ∀ (later members : List MemoryRow), (∀ m ∈ later, m.key = k) →
      Groups.collect MemoryRow.key (fun m members => members.getD [] ++ [m]) [(k, members)] later =
        [(k, members ++ later)] := by
    intro later
    induction later with
    | nil =>
      intro members _
      rw [List.append_nil]
      rfl
    | cons m later ih =>
      intro members hlater
      obtain ⟨hm, hlater⟩ := List.forall_mem_cons.mp hlater
      rw [Groups.collect, List.foldl_cons, ← Groups.collect, hm, Groups.upsert, if_pos rfl,
        ih _ hlater, List.append_assoc]
      rfl
  cases rows with
  | nil => rfl
  | cons m later =>
    obtain ⟨hm, hlater⟩ := List.forall_mem_cons.mp hrows
    rw [if_neg (List.cons_ne_nil m later), groupMemories, Groups.collect, List.foldl_cons,
      ← Groups.collect, hm, Groups.upsert, hfold _ _ hlater]
    rfl

theorem filter_groupMemories :
    (groupMemories rows).filter (fun group => group.1 = k) =
      if ofKey rows k = [] then [] else [(k, ofKey rows k)] := by
  have hkeys : ∀ m ∈ ofKey rows k, m.key = k := fun m hm => (mem_ofKey.mp hm).2
  rw [← groupMemories_ofKey hkeys]
  exact Groups.filter_collect (fun key => key = k) [] rows

theorem filter_builtTraces :
    (builtTraces call rows).filter (fun row => row.key = k) =
      if ofKey rows k = [] then [] else [traceOf call k (ofKey rows k)] := by
  have hkey : (fun row => decide (row.key = k)) ∘
      (fun group : TraceKey × List MemoryRow => traceOf call group.1 group.2) =
        fun group => decide (group.1 = k) := rfl
  rw [builtTraces, List.filter_map, hkey, filter_groupMemories]
  split_ifs <;> rfl

theorem value_upsert_built :
    Groups.value (sessionTracesUpsert table (builtTraces call rows)) k =
      if ofKey rows k = [] then Groups.value table k
      else some (traceOf call k (ofKey rows k)) := by
  rw [sessionTracesUpsert, Groups.value_collect, filter_builtTraces]
  split_ifs <;> rfl

theorem key_of_mem_upsert (htable : ∀ entry ∈ table, entry.2.key = entry.1)
    (hkeys : Keyed.Unique Prod.fst table) :
    ∀ entry ∈ sessionTracesUpsert table (builtTraces call rows), entry.2.key = entry.1 := by
  intro entry hentry
  have hunique : Keyed.Unique Prod.fst (sessionTracesUpsert table (builtTraces call rows)) :=
    Groups.collect_unique hkeys _
  have hvalue : Groups.value (sessionTracesUpsert table (builtTraces call rows)) entry.1 =
      some entry.2 := by
    rw [Groups.value, Keyed.get_of_mem hunique hentry]
    rfl
  rw [value_upsert_built] at hvalue
  split_ifs at hvalue
  · obtain ⟨old, hold, hrow⟩ := Option.map_eq_some_iff.mp hvalue
    obtain ⟨hmem, hkey⟩ := Keyed.mem_of_get hold
    rw [← hrow, htable old hmem, hkey]
  · rw [← Option.some.inj hvalue]
    rfl

theorem traceOf_bounds {members : List MemoryRow} {m : MemoryRow} (hm : m ∈ members) :
    (traceOf call k members).startedAt ≤ m.createdAt ∧
      m.createdAt ≤ (traceOf call k members).endedAt := by
  have hmem : m.createdAt ∈ members.map MemoryRow.createdAt := List.mem_map.mpr ⟨m, hm, rfl⟩
  have hne : members.map MemoryRow.createdAt ≠ [] := List.ne_nil_of_mem hmem
  constructor
  · obtain ⟨least, hleast⟩ := Option.isSome_iff_exists.mp (List.isSome_min?_of_ne_nil hne)
    rw [traceOf, hleast]
    exact (List.min?_eq_some_iff.mp hleast).2 _ hmem
  · obtain ⟨greatest, hgreatest⟩ := Option.isSome_iff_exists.mp (List.isSome_max?_of_ne_nil hne)
    rw [traceOf, hgreatest]
    exact (List.max?_eq_some_iff.mp hgreatest).2 _ hmem

end Build

def SessionMemory.IsRead (m : SessionMemory) (r : MemoryRow) : Prop :=
  m.runId = some r.runId ∧ r = ⟨m.id, r.runId, m.agentId, m.fleetId, m.createdAt⟩

theorem BuildCall.isRead_of_row? {call : BuildCall} {m : SessionMemory} {r : MemoryRow}
    (h : call.row? m = some r) : m.IsRead r := by
  unfold BuildCall.row? at h
  split_ifs at h
  obtain ⟨runId, hrun, rfl⟩ := Option.map_eq_some_iff.mp h
  exact ⟨hrun, rfl⟩

structure TraceStore.Inv (s : TraceStore) : Prop where
  ids : Keyed.Unique SessionMemory.id s.memories
  keys : Keyed.Unique Prod.fst s.traces
  owned : ∀ entry ∈ s.traces, entry.2.key = entry.1
  stored : ∀ r ∈ s.read, ∃ m ∈ s.memories, m.IsRead r
  listed : ∀ entry ∈ s.traces, ∀ id ∈ entry.2.memoryIds, ∃ r ∈ s.read, r.memoryId = id ∧ r.key = entry.1
  bounds : ∀ entry ∈ s.traces, ∀ r ∈ s.read, r.memoryId ∈ entry.2.memoryIds →
    entry.2.startedAt ≤ r.createdAt ∧ r.createdAt ≤ entry.2.endedAt

namespace TraceStore.Inv

variable {db : RowOrder} {call : BuildCall} {s : TraceStore}

theorem read_unique (hids : Keyed.Unique SessionMemory.id s.memories) {m m' : SessionMemory}
    {r r' : MemoryRow} (hm : m ∈ s.memories) (hm' : m' ∈ s.memories) (h : m.IsRead r)
    (h' : m'.IsRead r') (hid : r.memoryId = r'.memoryId) : r = r' := by
  have hsame : m.id = m'.id := by
    rw [h.2, h'.2] at hid
    exact hid
  obtain rfl := List.inj_on_of_nodup_map hids hm hm' hsame
  have hrun : r.runId = r'.runId := Option.some.inj (h.1.symm.trans h'.1)
  rw [h.2, h'.2, hrun]

theorem isRead_of_mem {r : MemoryRow} (h : r ∈ sessionMemoriesInWindow db call s.memories) :
    ∃ m ∈ s.memories, m.IsRead r := by
  obtain ⟨m, hm, hrow⟩ := List.mem_filterMap.mp ((db.order_perm _).mem_iff.mp h)
  exact ⟨m, hm, BuildCall.isRead_of_row? hrow⟩

theorem stored_build (h : s.Inv) : ∀ r ∈ (buildSessionTraces db call s).read,
    ∃ m ∈ s.memories, m.IsRead r := by
  intro r hr
  rcases List.mem_append.mp hr with hold | hnew
  · exact h.stored r hold
  · exact isRead_of_mem hnew

theorem entry_cases (h : s.Inv) {entry : TraceKey × TraceRow}
    (hentry : entry ∈ (buildSessionTraces db call s).traces) :
    let members := ofKey (sessionMemoriesInWindow db call s.memories) entry.1
    members = [] ∧ entry ∈ s.traces ∨ members ≠ [] ∧ entry.2 = traceOf call entry.1 members := by
  intro members
  have hunique : Keyed.Unique Prod.fst (buildSessionTraces db call s).traces :=
    Groups.collect_unique h.keys _
  have hvalue : Groups.value (buildSessionTraces db call s).traces entry.1 = some entry.2 := by
    rw [Groups.value, Keyed.get_of_mem hunique hentry]
    rfl
  rw [buildSessionTraces, value_upsert_built] at hvalue
  split_ifs at hvalue with hnone
  · obtain ⟨old, hold, hrow⟩ := Option.map_eq_some_iff.mp hvalue
    obtain ⟨hmem, hkey⟩ := Keyed.mem_of_get hold
    have hsame : old = entry := Prod.ext hkey hrow
    exact .inl ⟨hnone, hsame ▸ hmem⟩
  · exact .inr ⟨hnone, (Option.some.inj hvalue).symm⟩

theorem build (h : s.Inv) : (buildSessionTraces db call s).Inv where
  ids := h.ids
  keys := Groups.collect_unique h.keys _
  owned := key_of_mem_upsert h.owned h.keys
  stored := h.stored_build
  listed := by
    intro entry hentry id hid
    rcases h.entry_cases hentry with ⟨-, hold⟩ | ⟨-, hnew⟩
    · obtain ⟨r, hr, hkey⟩ := h.listed entry hold id hid
      exact ⟨r, List.mem_append_left _ hr, hkey⟩
    · rw [hnew] at hid
      obtain ⟨r, hr, rfl⟩ := List.mem_map.mp hid
      obtain ⟨hread, hkey⟩ := mem_ofKey.mp hr
      exact ⟨r, List.mem_append_right _ hread, rfl, hkey⟩
  bounds := by
    intro entry hentry r hr hid
    obtain ⟨m, hm, hisread⟩ := h.stored_build r hr
    rcases h.entry_cases hentry with ⟨-, hold⟩ | ⟨-, hnew⟩
    · -- What an old trace lists was read before.
      obtain ⟨r', hr', hsame, -⟩ := h.listed entry hold _ hid
      obtain ⟨m', hm', hisread'⟩ := h.stored r' hr'
      obtain rfl := read_unique h.ids hm hm' hisread hisread' hsame.symm
      exact h.bounds entry hold r hr' hid
    · rw [hnew] at hid ⊢
      obtain ⟨r', hr', hsame⟩ := List.mem_map.mp hid
      obtain ⟨m', hm', hisread'⟩ := isRead_of_mem (mem_ofKey.mp hr').1
      obtain rfl := read_unique h.ids hm hm' hisread hisread' hsame.symm
      exact traceOf_bounds hr'

theorem write (h : s.Inv) (m : SessionMemory) : (traceStep db s (.write m)).Inv := by
  rw [traceStep]
  split
  · exact h
  · next hfresh =>
    have hnew : ∀ other ∈ s.memories, other.id ≠ m.id := by
      intro other hother hid
      exact hfresh (List.any_eq_true.mpr ⟨other, hother, decide_eq_true hid⟩)
    refine { h with ids := ?_, stored := ?_ }
    · rw [Keyed.Unique, List.map_append, List.nodup_append]
      refine ⟨h.ids, List.nodup_singleton _, ?_⟩
      intro id hid id' hid' heq
      obtain ⟨other, hother, rfl⟩ := List.mem_map.mp hid
      rw [List.mem_singleton.mp hid'] at heq
      exact hnew other hother heq
    · intro r hr
      obtain ⟨other, hother, hisread⟩ := h.stored r hr
      exact ⟨other, List.mem_append_left _ hother, hisread⟩

theorem step (h : s.Inv) (event : TraceEvent) : (traceStep db s event).Inv := by
  cases event with
  | write m => exact h.write m
  | build call => exact h.build

theorem keeps_iff (h : s.Inv) {r : MemoryRow} (hr : r ∈ s.read) :
    s.Keeps r ↔ ∃ row, Groups.value s.traces r.key = some row ∧ r.memoryId ∈ row.memoryIds := by
  -- Under the invariant a memory is kept where the trace of its key lists it.
  obtain ⟨m, hm, hisread⟩ := h.stored r hr
  constructor
  · rintro ⟨row, hrows, hkey, -⟩
    obtain ⟨hrow, hid⟩ := List.mem_filter.mp (hrows ▸ List.mem_singleton_self row)
    obtain ⟨entry, hentry, rfl⟩ := List.mem_map.mp hrow
    refine ⟨entry.2, ?_, of_decide_eq_true hid⟩
    rw [← hkey, h.owned entry hentry, Groups.value, Keyed.get_of_mem h.keys hentry]
    rfl
  · rintro ⟨row, hvalue, hid⟩
    obtain ⟨entry, hget, rfl⟩ := Option.map_eq_some_iff.mp hvalue
    obtain ⟨hentry, hkey⟩ := Keyed.mem_of_get hget
    -- No trace of another key lists a memory of this one.
    have hother : ∀ other ∈ s.traces, r.memoryId ∈ other.2.memoryIds → other = entry := by
      intro other hmem hlisted
      obtain ⟨r', hr', hsame, hkey'⟩ := h.listed other hmem _ hlisted
      obtain ⟨m', hm', hisread'⟩ := h.stored r' hr'
      obtain rfl := read_unique h.ids hm hm' hisread hisread' hsame.symm
      exact List.inj_on_of_nodup_map h.keys hmem hentry (hkey'.symm.trans hkey.symm)
    have hselect : s.traces.filter (fun entry => decide (r.memoryId ∈ entry.2.memoryIds)) = [entry] := by
      have hnodup : s.traces.Nodup := List.Nodup.of_map _ h.keys
      refine List.perm_singleton.mp ((List.perm_ext_iff_of_nodup (hnodup.filter _)
        (List.nodup_singleton entry)).mpr fun other => ?_)
      rw [List.mem_filter, decide_eq_true_iff, List.mem_singleton]
      constructor
      · exact fun hmem => hother other hmem.1 hmem.2
      · rintro rfl
        exact ⟨hentry, hid⟩
    refine ⟨entry.2, ?_, (h.owned entry hentry).trans hkey, h.bounds entry hentry r hr hid⟩
    rw [List.filter_map]
    exact congrArg (List.map Prod.snd) hselect

/-- A step keeps the memories exactly when it covers the traces that it rewrites. -/
theorem keepsAll_step_iff (h : s.Inv) (hkept : s.KeepsAll) (event : TraceEvent) :
    (traceStep db s event).KeepsAll ↔ Covers db s event := by
  cases event with
  | write m =>
    refine iff_of_true ?_ trivial
    rw [traceStep]
    split
    · exact hkept
    · exact hkept
  | build call =>
    have hnext : (buildSessionTraces db call s).Inv := h.build
    constructor
    · rintro hall entry hentry ⟨m, hm, hkey⟩ id hid
      obtain ⟨r, hr, rfl, hrkey⟩ := h.listed entry hentry id hid
      have hr' : r ∈ (buildSessionTraces db call s).read := List.mem_append_left _ hr
      obtain ⟨row, hvalue, hlisted⟩ := (hnext.keeps_iff hr').mp (hall r hr')
      have hread : m ∈ ofKey (sessionMemoriesInWindow db call s.memories) r.key :=
        mem_ofKey.mpr ⟨hm, hkey.trans hrkey.symm⟩
      rw [buildSessionTraces, value_upsert_built, if_neg (List.ne_nil_of_mem hread)] at hvalue
      rw [← Option.some.inj hvalue] at hlisted
      obtain ⟨r', hmem, hsame⟩ := List.mem_map.mp hlisted
      exact List.mem_map.mpr ⟨r', (mem_ofKey.mp hmem).1, hsame⟩
    · intro hcovers r hr
      rw [traceStep] at hr ⊢
      rw [hnext.keeps_iff hr, buildSessionTraces, value_upsert_built]
      -- A memory that the call reads is in the trace of its key.
      have hread : r ∈ sessionMemoriesInWindow db call s.memories →
          ∃ row, (if ofKey (sessionMemoriesInWindow db call s.memories) r.key = [] then
              Groups.value s.traces r.key
            else some (traceOf call r.key
              (ofKey (sessionMemoriesInWindow db call s.memories) r.key))) = some row ∧
            r.memoryId ∈ row.memoryIds := by
        intro hmem
        have hof := mem_ofKey.mpr ⟨hmem, rfl⟩
        rw [if_neg (List.ne_nil_of_mem hof)]
        exact ⟨_, rfl, List.mem_map.mpr ⟨r, hof, rfl⟩⟩
      rcases List.mem_append.mp hr with hold | hnew
      · obtain ⟨row, hvalue, hid⟩ := (h.keeps_iff hold).mp (hkept r hold)
        by_cases hnone : ofKey (sessionMemoriesInWindow db call s.memories) r.key = []
        · rw [if_pos hnone]
          exact ⟨row, hvalue, hid⟩
        · obtain ⟨entry, hget, rfl⟩ := Option.map_eq_some_iff.mp hvalue
          obtain ⟨hentry, hkey⟩ := Keyed.mem_of_get hget
          obtain ⟨m, hm⟩ := List.exists_mem_of_ne_nil _ hnone
          obtain ⟨hmem, hmkey⟩ := mem_ofKey.mp hm
          have hlisted := hcovers entry hentry ⟨m, hmem, hmkey.trans hkey.symm⟩ _ hid
          obtain ⟨r', hr', hsame⟩ := List.mem_map.mp hlisted
          -- The call reads the memory as the row that was read before.
          obtain ⟨old, hmemory, hisread⟩ := h.stored r hold
          obtain ⟨old', hmemory', hisread'⟩ := isRead_of_mem hr'
          obtain rfl := read_unique h.ids hmemory hmemory' hisread hisread' hsame.symm
          exact hread hr'
      · exact hread hnew

end TraceStore.Inv

theorem TraceStore.inv_empty : TraceStore.empty.Inv where
  ids := List.nodup_nil
  keys := List.nodup_nil
  owned := fun _ hentry => nomatch hentry
  stored := fun _ hr => nomatch hr
  listed := fun _ hentry => nomatch hentry
  bounds := fun _ hentry => nomatch hentry

/-- In a run of writes and builds every memory that was read stays in its trace exactly when every
call covers the traces that it rewrites. -/
theorem traces_keep_iff (db : RowOrder) (events : List TraceEvent) :
    (∀ past, past <+: events → (run (traceStep db) .empty past).KeepsAll) ↔
      Along (traceStep db) (Covers db) .empty events := by
  have hempty : TraceStore.empty.KeepsAll := fun _ hr => nomatch hr
  rw [← Along.iff_prefix hempty]
  refine Along.iff_shown (I := fun s : TraceStore => s.Inv ∧ s.KeepsAll) ?_ (fun s h => h.2) ?_
    ⟨TraceStore.inv_empty, hempty⟩
  · exact fun s event h hok => ⟨h.1.step event, (h.1.keepsAll_step_iff h.2 event).mpr hok⟩
  · exact fun s event h hkept => (h.1.keepsAll_step_iff h.2 event).mp hkept

/-- Two windows that meet inside a run. -/
theorem traces_lose_successive_windows :
    let call : ℤ → ℤ → TraceEvent := fun windowStart windowEnd =>
      .build ⟨none, windowStart, windowEnd, fun _ => "unknown", fun _ => []⟩
    let events : List TraceEvent :=
      [.write ⟨"1", some "r", "a", none, 5⟩, .write ⟨"2", some "r", "a", none, 15⟩, call 0 10, call 10 20]
    ¬ (∀ past, past <+: events → (run (traceStep .plain) .empty past).KeepsAll) := by
  intro call events hall
  obtain ⟨row, hrows, -⟩ := hall events (List.prefix_refl _) ⟨"1", "r", "a", none, 5⟩ (by decide)
  have hnone : ((run (traceStep .plain) .empty events).traces.map Prod.snd).filter
      (fun row => "1" ∈ row.memoryIds) = [] := by
    have hcount : (((run (traceStep .plain) .empty events).traces.map Prod.snd).filter
      (fun row => "1" ∈ row.memoryIds)).length = 0 := by decide
    exact List.length_eq_zero_iff.mp hcount
  rw [hnone] at hrows
  cases hrows

end Memclaw.Forge

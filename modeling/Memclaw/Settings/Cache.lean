import Mathlib.Logic.Function.Basic
import Memclaw.Settings.Serial
import Memclaw.Settings.StoreDefs

/-! The settings cache of one process for one tenant. Readers and writers move at their awaits: a
reader looks into the cache, has the row fetched, and stores it; a writer has its transaction carried
out, drops the entry, and publishes. What a reader sees after an update has returned. -/

namespace Memclaw.Settings

open Memclaw.Lib Memclaw.Lib.Interleave

structure Entry where
  settings : Dict
  version : ℕ

/-- The store, the entry of the tenant in `_settings_cache`, and the settings after each
number of commits. -/
structure Process where
  store : Store
  cache : Option Entry
  contents : ℕ → Dict

def Process.version (proc : Process) : ℕ := proc.store.audit.length

def Process.transact (floats : JsonbFloats) (outcome : Outcome) (call : Call) (proc : Process) :
    Call × Process :=
  let next := organizationSettingsUpdate floats outcome call proc.store
  (next.1, { proc with
    store := next.2
    contents := Function.update proc.contents next.2.audit.length next.2.organizationSettingsGet })

def Process.invalidateCache (proc : Process) : Process := { proc with cache := none }

/-- A party: a call of `resolve_config` or of `update_settings` whose payload has passed the
validators, the update of a sibling worker, or what empties the cache from outside (the end
of the entry's time, the size of the cache, a broadcast). -/
inductive Task
  | resolve
  | loading
  | loaded (entry : Entry)
  | resolved (settings : Dict)
  | updating (call : Call)
  | answered (settings : Dict) (changed : Bool) (version : ℕ)
  | publishing (settings : Dict) (version : ℕ)
  | updated (settings : Dict) (version : ℕ)
  | sibling (call : Call)
  | evictor
  | failed

def Process.getRawSettings (proc : Process) : Task :=
  match proc.cache with
  | some entry => .resolved entry.settings
  | none => .loading

def Process.follow (proc : Process) : Call → Task
  | .returned settings changed => .answered settings changed proc.version
  | .failed => .failed
  | call => .updating call

def Process.finish (proc : Process) (settings : Dict) (changed : Bool) (version : ℕ) :
    Task × Process :=
  if changed then (.publishing settings version, proc.invalidateCache)
  else (.updated settings version, proc)

/-- A turn of a party. A request or its answer can be lost; a publish that fails is only
logged. -/
def Process.turn (floats : JsonbFloats) (outcome : Outcome) (task : Task) (proc : Process) :
    Task × Process :=
  match task, outcome with
  | .updating call, outcome =>
    let next := proc.transact floats outcome call
    (next.2.follow next.1, next.2)
  | .sibling call, outcome =>
    let next := proc.transact floats outcome call
    (.sibling next.1, next.2)
  | .resolve, .done => (proc.getRawSettings, proc)
  | .loading, .done => (.loaded ⟨proc.store.organizationSettingsGet, proc.version⟩, proc)
  | .loaded entry, .done => (.resolved entry.settings, { proc with cache := some entry })
  | .answered settings changed version, .done => proc.finish settings changed version
  | .publishing settings version, _ => (.updated settings version, proc)
  | .evictor, _ => (.evictor, proc.invalidateCache)
  | .resolved settings, _ => (.resolved settings, proc)
  | .updated settings version, _ => (.updated settings version, proc)
  | _, _ => (.failed, proc)

inductive Job
  | resolve
  | update (newSettings : Payload) (changedBy : Option String)
  | sibling (newSettings : Payload) (changedBy : Option String)
  | evict

def Job.begin : Job → Task
  | .resolve => .resolve
  | .update p changedBy => .updating (.ready p changedBy)
  | .sibling p changedBy => .sibling (.ready p changedBy)
  | .evict => .evictor

def Process.start {ι : Type} (row : Option Dict) (jobs : ι → Job) : Pool ι Process Task where
  shared := ⟨⟨row, false, []⟩, none, fun _ => row.getD []⟩
  parties i := (jobs i).begin

variable {ι : Type} {floats : JsonbFloats}

def Process.Grows (proc next : Process) : Prop :=
  proc.version ≤ next.version ∧ ∀ n ≤ proc.version, next.contents n = proc.contents n

def Process.Current (proc : Process) : Prop :=
  proc.contents proc.version = proc.store.organizationSettingsGet

theorem Process.Grows.refl (proc : Process) : proc.Grows proc := ⟨le_rfl, fun _ _ => rfl⟩

theorem Turn.grows {store : Store} {outcome : Outcome} {call : Call} {next : Call × Store}
    (h : Turn floats store outcome call next) :
    (next.2.audit = store.audit ∧ next.2.organizationSettingsGet = store.organizationSettingsGet) ∨
      ∃ row, next.2.audit = store.audit ++ [row] := by
  cases h with
  | commit => exact .inr ⟨_, rfl⟩
  | _ => exact .inl ⟨rfl, rfl⟩

theorem transact_current (floats : JsonbFloats) (outcome : Outcome) (call : Call) (proc : Process) :
    (proc.transact floats outcome call).2.Current := Function.update_self ..

theorem transact_grows {proc : Process} (h : proc.Current) (outcome : Outcome) (call : Call) :
    proc.Grows (proc.transact floats outcome call).2 := by
  obtain ⟨haudit, hget⟩ | ⟨row, haudit⟩ := (turn_update floats outcome call proc.store).grows
  · have hversion : (proc.transact floats outcome call).2.version = proc.version :=
      congrArg List.length haudit
    refine ⟨hversion.ge, fun n _ => ?_⟩
    rw [Process.transact, haudit, hget, ← h]
    exact congrFun (Function.update_eq_self proc.version proc.contents) n
  · have hversion : (proc.transact floats outcome call).2.version = proc.version + 1 := by
      rw [Process.version, Process.transact, haudit, List.length_append]
      rfl
    refine ⟨by omega, fun n hn => Function.update_of_ne ?_ ..⟩
    have hlength : (organizationSettingsUpdate floats outcome call proc.store).2.audit.length =
        proc.version + 1 := hversion
    omega

def Process.Genuine (proc : Process) (entry : Entry) : Prop :=
  entry.version ≤ proc.version ∧ proc.contents entry.version = entry.settings

theorem Process.Genuine.grows {proc next : Process} {entry : Entry} (h : proc.Genuine entry)
    (hgrows : proc.Grows next) : next.Genuine entry :=
  ⟨h.1.trans hgrows.1, (hgrows.2 entry.version h.1).trans h.2⟩

def Process.Fresh (proc : Process) (version : ℕ) : Prop :=
  ∀ entry, proc.cache = some entry → version ≤ entry.version

structure Process.Sound (proc : Process) : Prop where
  current : proc.Current
  genuine : ∀ entry, proc.cache = some entry → proc.Genuine entry

def Task.settled : Task → Option ℕ
  | .publishing _ version => some version
  | .updated _ version => some version
  | _ => none

def Task.Knows (task : Task) (proc : Process) : Prop :=
  match task with
  | .loaded entry => proc.Genuine entry
  | .answered _ _ version => version ≤ proc.version
  | .publishing _ version => version ≤ proc.version ∧ proc.Fresh version
  | .updated _ version => version ≤ proc.version ∧ proc.Fresh version
  | _ => True

/-- A reader does not store a row older than an update that has dropped the entry, and an
update without a change does not return over an older entry. -/
def Timely (pool : Pool ι Process Task) (event : ι × Outcome) : Prop :=
  match event.2, pool.parties event.1 with
  | .done, .loaded entry => ∀ j version, (pool.parties j).settled = some version →
      version ≤ entry.version
  | .done, .answered _ false version => pool.shared.Fresh version
  | _, _ => True

abbrev CacheInv (pool : Pool ι Process Task) : Prop :=
  pool.Holds Process.Sound (fun _ => Task.Knows) fun _ _ => True

theorem Task.Knows.settled {task : Task} {proc : Process} (h : task.Knows proc) {version : ℕ}
    (hsettled : task.settled = some version) : version ≤ proc.version ∧ proc.Fresh version := by
  cases task with
  | publishing settings v =>
    obtain rfl := Option.some.inj hsettled
    exact h
  | updated settings v =>
    obtain rfl := Option.some.inj hsettled
    exact h
  | _ => exact absurd hsettled (by simp [Task.settled])

theorem Task.Knows.grows {task : Task} {proc next : Process} (h : task.Knows proc)
    (hgrows : proc.Grows next)
    (hfresh : ∀ version, task.settled = some version → next.Fresh version) : task.Knows next := by
  cases task with
  | loaded entry => exact Process.Genuine.grows h hgrows
  | answered settings changed version => exact le_trans h hgrows.1
  | publishing settings version => exact ⟨h.1.trans hgrows.1, hfresh version rfl⟩
  | updated settings version => exact ⟨h.1.trans hgrows.1, hfresh version rfl⟩
  | _ => trivial

theorem Process.Sound.transact {proc : Process} (h : proc.Sound) (outcome : Outcome)
    (call : Call) : (proc.transact floats outcome call).2.Sound where
  current := transact_current floats outcome call proc
  genuine entry hentry := (h.genuine entry hentry).grows (transact_grows h.current outcome call)

theorem Process.Sound.invalidateCache {proc : Process} (h : proc.Sound) :
    proc.invalidateCache.Sound where
  current := h.current
  genuine entry hentry := absurd hentry (by simp [Process.invalidateCache])

theorem Process.fresh_invalidateCache (proc : Process) (version : ℕ) :
    proc.invalidateCache.Fresh version :=
  fun entry hentry => absurd hentry (by simp [Process.invalidateCache])

/-- What a turn does to the process: nothing to the cache, or it empties it, or it stores
what a reader has loaded. -/
structure Moves (proc : Process) (outcome : Outcome) (task : Task) (next : Task × Process) :
    Prop where
  sound : next.2.Sound
  grows : proc.Grows next.2
  knows : next.1.Knows next.2
  cache : next.2.cache = proc.cache ∨ next.2.cache = none ∨
    ∃ entry, outcome = .done ∧ task = .loaded entry ∧ next.2.cache = some entry

theorem follow_knows (proc : Process) (call : Call) : (proc.follow call).Knows proc := by
  cases call with
  | returned settings changed => exact le_rfl
  | _ => trivial

theorem getRawSettings_knows (proc : Process) : proc.getRawSettings.Knows proc := by
  rw [Process.getRawSettings]
  cases proc.cache <;> trivial

theorem Moves.still {proc : Process} (h : proc.Sound) {outcome : Outcome} (task : Task)
    {next : Task} (hnext : next.Knows proc) : Moves proc outcome task (next, proc) :=
  ⟨h, .refl proc, hnext, .inl rfl⟩

theorem moves_turn {proc : Process} (h : proc.Sound) {task : Task} (hknows : task.Knows proc)
    {outcome : Outcome}
    (htimely : ∀ settings version, outcome = .done → task = .answered settings false version →
      proc.Fresh version) :
    Moves proc outcome task (proc.turn floats outcome task) := by
  cases task with
  | updating call =>
    exact ⟨h.transact outcome call, transact_grows h.current outcome call, follow_knows _ _,
      .inl rfl⟩
  | sibling call =>
    exact ⟨h.transact outcome call, transact_grows h.current outcome call, trivial, .inl rfl⟩
  | evictor => exact ⟨h.invalidateCache, .refl proc, trivial, .inr (.inl rfl)⟩
  | publishing settings version => exact .still h _ hknows
  | updated settings version => exact .still h _ hknows
  | resolved settings => exact .still h _ trivial
  | failed => exact .still h _ trivial
  | resolve =>
    cases outcome with
    | done => exact .still h _ (getRawSettings_knows proc)
    | aborted => exact .still h _ trivial
  | loading =>
    cases outcome with
    | done => exact .still h _ ⟨le_rfl, h.current⟩
    | aborted => exact .still h _ trivial
  | loaded entry =>
    cases outcome with
    | aborted => exact .still h _ trivial
    | done =>
      refine ⟨⟨h.current, ?_⟩, .refl proc, trivial, .inr (.inr ⟨entry, rfl, rfl, rfl⟩)⟩
      intro other hother
      obtain rfl := Option.some.inj hother
      exact hknows
  | answered settings changed version =>
    cases outcome with
    | aborted => exact .still h _ trivial
    | done =>
      cases changed with
      | true =>
        exact ⟨h.invalidateCache, .refl proc, ⟨hknows, proc.fresh_invalidateCache version⟩,
          .inr (.inl rfl)⟩
      | false => exact .still h _ ⟨hknows, htimely settings version rfl rfl⟩

theorem CacheInv.moves (floats : JsonbFloats) {pool : Pool ι Process Task} (h : CacheInv pool)
    {event : ι × Outcome} (htimely : Timely pool event) :
    Moves pool.shared event.2 (pool.parties event.1)
      (pool.shared.turn floats event.2 (pool.parties event.1)) := by
  refine moves_turn h.shared (h.own event.1) fun settings version houtcome htask => ?_
  rw [Timely, houtcome, htask] at htimely
  exact htimely

theorem cacheInv_start (row : Option Dict) (jobs : ι → Job) :
    CacheInv (Process.start row jobs) := by
  refine ⟨⟨rfl, ?_⟩, ?_, fun _ _ _ => trivial⟩
  · exact fun entry hentry => absurd hentry (by simp [Process.start])
  intro i
  show (jobs i).begin.Knows _
  cases jobs i <;> trivial

section Steps

variable [DecidableEq ι] {pool : Pool ι Process Task}

theorem CacheInv.kept (h : CacheInv pool) {event : ι × Outcome} (htimely : Timely pool event) :
    CacheInv (pool.step (Process.turn floats) event) := by
  have hmoves := h.moves floats htimely
  refine h.step event _ rfl hmoves.sound hmoves.knows ?_ fun _ _ => ⟨trivial, trivial⟩
  intro j _
  refine (h.own j).grows hmoves.grows fun version hsettled => ?_
  intro entry hentry
  obtain hcache | hcache | ⟨stored, houtcome, htask, hcache⟩ := hmoves.cache
  · exact ((h.own j).settled hsettled).2 entry (hcache.symm.trans hentry)
  · exact absurd (hcache.symm.trans hentry) (by simp)
  · obtain rfl := Option.some.inj (hcache.symm.trans hentry)
    rw [Timely, houtcome, htask] at htimely
    exact htimely j version hsettled

def Task.AtLeast (task : Task) (proc : Process) (version : ℕ) : Prop :=
  match task with
  | .loaded entry => version ≤ entry.version
  | .resolved settings =>
    ∃ n, version ≤ n ∧ n ≤ proc.version ∧ proc.contents n = settings
  | _ => True

/-- A reader that has not started when an update returns, and that update. -/
structure Watched (i j : ι) (settings : Dict) (version : ℕ) (pool : Pool ι Process Task) :
    Prop where
  inv : CacheInv pool
  writer : pool.parties j = .updated settings version
  reader : (pool.parties i).AtLeast pool.shared version

theorem Task.AtLeast.grows {task : Task} {proc next : Process} {version : ℕ}
    (h : task.AtLeast proc version) (hgrows : proc.Grows next) : task.AtLeast next version := by
  cases task with
  | loaded entry => exact h
  | resolved settings =>
    obtain ⟨n, hn, hle, hcontents⟩ := h
    exact ⟨n, hn, hle.trans hgrows.1, (hgrows.2 n hle).trans hcontents⟩
  | _ => trivial

theorem Task.AtLeast.turn {task : Task} {proc : Process} {version : ℕ}
    (h : task.AtLeast proc version) (hsound : proc.Sound) (hknows : task.Knows proc)
    (hversion : version ≤ proc.version) (hfresh : proc.Fresh version) (outcome : Outcome) :
    (proc.turn floats outcome task).1.AtLeast (proc.turn floats outcome task).2 version := by
  cases task with
  | resolved settings => exact h
  | resolve =>
    cases outcome with
    | aborted => trivial
    | done =>
      show proc.getRawSettings.AtLeast proc version
      rw [Process.getRawSettings]
      cases hcache : proc.cache with
      | none => trivial
      | some entry =>
        obtain ⟨hle, hcontents⟩ := hsound.genuine entry hcache
        exact ⟨entry.version, hfresh entry hcache, hle, hcontents⟩
  | loading =>
    cases outcome with
    | aborted => trivial
    | done => exact hversion
  | loaded entry =>
    cases outcome with
    | aborted => trivial
    | done => exact ⟨entry.version, h, hknows.1, hknows.2⟩
  | answered settings changed v =>
    cases outcome with
    | aborted => trivial
    | done => cases changed <;> trivial
  | updating call =>
    show ((proc.transact floats outcome call).2.follow _).AtLeast _ version
    cases (proc.transact floats outcome call).1 <;> trivial
  | _ => trivial

theorem Watched.kept {i j : ι} {settings : Dict} {version : ℕ}
    (h : Watched i j settings version pool) {event : ι × Outcome} (htimely : Timely pool event) :
    Watched i j settings version (pool.step (Process.turn floats) event) := by
  obtain ⟨k, outcome⟩ := event
  have hmoves := h.inv.moves floats htimely
  have hwriter := h.inv.own j
  rw [h.writer] at hwriter
  refine ⟨h.inv.kept htimely, ?_, ?_⟩
  · by_cases hj : j = k
    · subst hj
      rw [Pool.step_self, h.writer]
      rfl
    · rw [Pool.step_of_ne _ _ hj, h.writer]
  · by_cases hi : i = k
    · subst hi
      rw [Pool.step_self]
      exact h.reader.turn h.inv.shared (h.inv.own i) hwriter.1 hwriter.2 outcome
    · rw [Pool.step_of_ne _ _ hi]
      exact h.reader.grows hmoves.grows

/-- Every call of `resolve_config` that starts after an update has returned has settings of
that version or a later one. -/
def ReadsOwnWrites (floats : JsonbFloats) (row : Option Dict) (jobs : ι → Job)
    (past future : List (ι × Outcome)) : Prop :=
  ∀ i j settings version value,
    (run (Pool.step (Process.turn floats)) (Process.start row jobs) past).parties j =
        .updated settings version →
      (run (Pool.step (Process.turn floats)) (Process.start row jobs) past).parties i = .resolve →
        (run (Pool.step (Process.turn floats)) (Process.start row jobs)
            (past ++ future)).parties i = .resolved value →
          ∃ n, version ≤ n ∧
            n ≤ (run (Pool.step (Process.turn floats)) (Process.start row jobs)
              (past ++ future)).shared.version ∧
            (run (Pool.step (Process.turn floats)) (Process.start row jobs)
              (past ++ future)).shared.contents n = value

theorem reads_own_writes {row : Option Dict} {jobs : ι → Job} {past future : List (ι × Outcome)}
    (h : Along (Pool.step (Process.turn floats)) Timely (Process.start row jobs) (past ++ future)) :
    ReadsOwnWrites floats row jobs past future := by
  intro i j settings version value hupdated hidle hresolved
  obtain ⟨hpast, hfuture⟩ := Along.append.mp h
  have hinv := Along.invariant (P := CacheInv) (fun pool event hpool => hpool.kept)
    (cacheInv_start row jobs) hpast
  have hstart : Watched i j settings version
      (run (Pool.step (Process.turn floats)) (Process.start row jobs) past) :=
    ⟨hinv, hupdated, by rw [hidle]; trivial⟩
  have hend := Along.invariant (P := Watched i j settings version)
    (fun pool event hpool => hpool.kept) hstart hfuture
  rw [← run_append] at hend
  have hreader := hend.reader
  rw [hresolved] at hreader
  exact hreader

end Steps

def sampleJobs (i : Fin 3) : Job :=
  if i = 1 then .update (switch "security_audit" "alerts_enabled") none else .resolve

/-- The first reader is done before the update. -/
theorem reads_own_writes_sample :
    ReadsOwnWrites JsonbFloats.same none sampleJobs
      [(0, .done), (0, .done), (0, .done), (1, .done), (1, .done), (1, .done), (1, .done)]
      [(2, .done), (2, .done), (2, .done)] := by
  apply reads_own_writes
  refine ⟨trivial, trivial, ?_, trivial, trivial, trivial, trivial, trivial, trivial, ?_, trivial⟩
  · -- no update has been answered yet
    intro j version hsettled
    match j with
    | 0 => cases hsettled
    | 1 => cases hsettled
    | 2 => cases hsettled
  · intro j version hsettled
    match j with
    | 0 => cases hsettled
    | 1 => exact (Option.some.inj hsettled).ge
    | 2 => cases hsettled

/-- A reader that fetched the row before the update stores it after the entry was dropped. -/
theorem stale_entry_served :
    ¬ ReadsOwnWrites JsonbFloats.same none sampleJobs
      [(0, .done), (0, .done), (1, .done), (1, .done), (1, .done), (1, .done)]
      [(0, .done), (2, .done)] := by
  intro h
  obtain ⟨n, hn, hle, hcontents⟩ := h 2 1 _ 1 [] rfl rfl rfl
  obtain rfl : n = 1 := le_antisymm hle hn
  have hlength : 1 = 0 := congrArg List.length hcontents
  exact absurd hlength (by decide)

end Memclaw.Settings

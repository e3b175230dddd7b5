import Memclaw.Memories.EnrichDefs
import Memclaw.Memories.Statements

/-! The inline task tells a value of the agent from a default by the value alone, the worker
by the fields of the body. The two agree, and keep what the body sets, exactly when no value
of the body is a default that the enrichment would change. -/

namespace Memclaw.Memories

open Memclaw.Lib Memclaw.Lib.Interleave
open Memclaw.Contradiction (Status Visibility)

variable {V : Type}

def inlineRow (m : Memory V) (e : EnrichmentResult) : Memory V :=
  let patched := (inlinePatch m e).apply m
  match inlineStatus m e with
  | none => patched
  | some status => { patched with status := status }

def deferredRow (m : Memory V) (e : EnrichmentResult) (fields : Option (List Column)) : Memory V :=
  (buildPatch e fields).apply m

theorem inlinePatch_nulls (m : Memory V) (e : EnrichmentResult) :
    (inlinePatch m e).nullsRequired = false := by
  simp only [Patch.nullsRequired, inlinePatch]
  split <;> rfl

theorem buildPatch_nulls (e : EnrichmentResult) (fields : Option (List Column)) :
    (buildPatch e fields : Patch V).nullsRequired = false := by
  simp only [Patch.nullsRequired, buildPatch]
  split <;> split <;> rfl

variable {t : Table V} {i : ℕ} {m : Memory V}

theorem getElem?_update_at (ht : t.Numbered) (hm : t[i]? = some m) (hlive : m.live = true)
    (f : Memory V → Memory V) :
    (Rows.update (fun m' => m'.at i m.tenantId && m'.live) f t)[i]? = some (f m) := by
  have hat : (m.at i m.tenantId && m.live) = true := by
    simp [Memory.at, ht i m hm, hlive]
  rw [Rows.getElem?_update, hm, Option.map_some, if_pos hat]

theorem handleEnrichRequest_row (ht : t.Numbered) (hm : t[i]? = some m) (hlive : m.live = true)
    (content : String) (fields : Option (List Column)) (e : EnrichmentResult) :
    (handleEnrichRequest t ⟨i, m.tenantId, content, fields⟩ e)[i]? =
      some (deferredRow m e fields) := by
  simp only [handleEnrichRequest, memoryUpdate_live ht hm hlive (buildPatch_nulls e fields)]
  exact getElem?_update_at ht hm hlive _

theorem enrichMemoryBackground_row (ht : t.Numbered) (hm : t[i]? = some m) (hlive : m.live = true)
    (e : EnrichmentResult) :
    (enrichMemoryBackground t i m.tenantId e)[i]? = some (inlineRow m e) := by
  have hget : (t.get i).filter (·.live) = some m := by
    rw [ht.get, hm, Option.filter_some, if_pos hlive]
  have hpatched := getElem?_update_at ht hm hlive (inlinePatch m e).apply
  simp only [enrichMemoryBackground, hget, memoryUpdate_live ht hm hlive (inlinePatch_nulls m e)]
  unfold inlineRow
  cases inlineStatus m e with
  | none => exact hpatched
  | some status =>
    -- the status goes by a second statement, to the patched row
    have hat : ((inlinePatch m e).apply m).at i m.tenantId = true := by
      simp [Memory.at, Patch.apply, ht i m hm]
    simp only [Table.memoryUpdateStatus]
    rw [Rows.getElem?_update, hpatched, Option.map_some,
      if_pos (by simp [StatusUpdate.matches, hat])]
    rfl

/-- Every enrichment column that the body sets holds the value of the body. -/
structure AgentValues (data : MemoryCreate) (m : Memory V) : Prop where
  memoryType : ∀ v, data.memoryType = some v → some m.memoryType = v
  weight : ∀ v, data.weight = some v → m.weight = v
  status : ∀ v, data.status = some v → some m.status = v
  tsValidStart : ∀ v, data.tsValidStart = some v → m.tsValidStart = v
  tsValidEnd : ∀ v, data.tsValidEnd = some v → m.tsValidEnd = v

/-- The body sets no required column to null and no deprecated type, which the create itself
replaces, and no default that the result would change. -/
structure DistinctFromDefaults (data : MemoryCreate) (e : EnrichmentResult) : Prop where
  memoryType : ∀ v, data.memoryType = some v →
    v ≠ none ∧ v ≠ some .semantic ∧ (v = some .fact → e.memoryType = .fact)
  weight : ∀ v, data.weight = some v → v ≠ none ∧ (v = some (1 / 2) → e.weight = 1 / 2)
  status : ∀ v, data.status = some v → v ≠ none ∧ (v = some .active → e.status = .active)
  tsValidStart : ∀ v, data.tsValidStart = some v → v = none → e.tsValidStart = none
  tsValidEnd : ∀ v, data.tsValidEnd = some v → v = none → e.tsValidEnd = none

def createFast (t : Table V) (data : MemoryCreate) (embedding : Option V)
    (contentHash : Option String) (writeMs now : ℕ) : Table V :=
  t.memoryAdd (writeMemoryRow data embedding contentHash
    (mergeEnrichmentFields data none (some "fast")) writeMs) now

theorem inlineRow_memoryType (m : Memory V) (e : EnrichmentResult) :
    (inlineRow m e).memoryType = if m.memoryType = .fact then e.memoryType else m.memoryType := by
  have hpatched : ((inlinePatch m e).apply m).memoryType =
      if m.memoryType = .fact then e.memoryType else m.memoryType := by
    simp only [Patch.apply, inlinePatch]
    split <;> rfl
  unfold inlineRow
  cases inlineStatus m e <;> exact hpatched

theorem inlineRow_weight (m : Memory V) (e : EnrichmentResult) :
    (inlineRow m e).weight = if m.weight = some (1 / 2) then some e.weight else m.weight := by
  have hpatched : ((inlinePatch m e).apply m).weight =
      if m.weight = some (1 / 2) then some e.weight else m.weight := by
    simp only [Patch.apply, inlinePatch]
    split <;> rfl
  unfold inlineRow
  cases inlineStatus m e <;> exact hpatched

theorem inlineRow_status (m : Memory V) (e : EnrichmentResult) :
    (inlineRow m e).status = if m.status = .active then e.status else m.status := by
  unfold inlineRow inlineStatus
  by_cases h : m.status = .active
  · simp only [if_pos h]
  · simp only [if_neg h]
    rfl

theorem getD_map_some (bound filled : Option ℕ) :
    ((if bound.isNone then filled.map some else none).getD bound : Option ℕ) = bound.or filled := by
  cases bound <;> cases filled <;> rfl

theorem inlineRow_tsValidStart (m : Memory V) (e : EnrichmentResult) :
    (inlineRow m e).tsValidStart = m.tsValidStart.or e.tsValidStart := by
  have hpatched := getD_map_some m.tsValidStart e.tsValidStart
  unfold inlineRow
  cases inlineStatus m e <;> exact hpatched

theorem inlineRow_tsValidEnd (m : Memory V) (e : EnrichmentResult) :
    (inlineRow m e).tsValidEnd = m.tsValidEnd.or e.tsValidEnd := by
  have hpatched := getD_map_some m.tsValidEnd e.tsValidEnd
  unfold inlineRow
  cases inlineStatus m e <;> exact hpatched

theorem skip_contains (data : MemoryCreate) (c : Column) :
    ((agentProvidedEnrichmentFields data).getD []).contains c = data.sets c := by
  have hall : c ∈ Column.all := by cases c <;> decide
  have hskip : (agentProvidedEnrichmentFields data).getD [] = Column.all.filter data.sets := by
    simp only [agentProvidedEnrichmentFields]
    split
    · next h => exact h.symm
    · rfl
  rw [hskip, Bool.eq_iff_iff, List.contains_iff_mem, List.mem_filter]
  exact and_iff_right hall

theorem deferredRow_columns (data : MemoryCreate) (m : Memory V) (e : EnrichmentResult) :
    let m' := deferredRow m e (agentProvidedEnrichmentFields data)
    (data.memoryType.isSome = true → m'.memoryType = m.memoryType) ∧
    (data.weight.isSome = true → m'.weight = m.weight) ∧
    (data.status.isSome = true → m'.status = m.status) ∧
    (data.tsValidStart.isSome = true → m'.tsValidStart = m.tsValidStart) ∧
    (data.tsValidEnd.isSome = true → m'.tsValidEnd = m.tsValidEnd) := by
  simp only [deferredRow, Patch.apply, buildPatch, skip_contains, MemoryCreate.sets]
  refine ⟨fun h => ?_, fun h => ?_, fun h => ?_, fun h => ?_, fun h => ?_⟩ <;> rw [if_pos h] <;> rfl

structure Created (data : MemoryCreate) (m : Memory V) : Prop where
  memoryType : m.memoryType = ((data.memoryType.getD none).map fun memoryType =>
    if memoryType = .semantic then .fact else memoryType).getD .fact
  weight : m.weight = some ((data.weight.getD none).getD (1 / 2))
  status : m.status = (data.status.getD none).getD .active
  tsValidStart : m.tsValidStart = data.tsValidStart.getD none
  tsValidEnd : m.tsValidEnd = data.tsValidEnd.getD none
  tenant : m.tenantId = data.tenantId
  live : m.live = true

theorem created_row (data : MemoryCreate) (embedding : Option V) (contentHash : Option String)
    (writeMs id now : ℕ) :
    Created data ((writeMemoryRow data embedding contentHash
      (mergeEnrichmentFields data none (some "fast")) writeMs).row id now) := by
  constructor <;> simp [NewMemory.row, writeMemoryRow, mergeEnrichmentFields, Memory.live]

variable {data : MemoryCreate} {e : EnrichmentResult}

theorem DistinctFromDefaults.inline (hc : Created data m) (h : DistinctFromDefaults data e) :
    AgentValues data (inlineRow m e) := by
  constructor
  · intro v hv
    obtain ⟨hnull, hdeprecated, hfact⟩ := h.memoryType v hv
    obtain ⟨memoryType, rfl⟩ := Option.ne_none_iff_exists'.mp hnull
    have hkept : m.memoryType = memoryType := by
      have hne : memoryType ≠ .semantic := fun heq => hdeprecated (congrArg some heq)
      rw [hc.memoryType, hv]
      simp only [Option.getD_some, Option.map_some, if_neg hne]
    rw [inlineRow_memoryType, hkept]
    split
    · next heq => rw [hfact (congrArg some heq), heq]
    · rfl
  · intro v hv
    obtain ⟨hnull, hdefault⟩ := h.weight v hv
    obtain ⟨weight, rfl⟩ := Option.ne_none_iff_exists'.mp hnull
    have hkept : m.weight = some weight := by
      rw [hc.weight, hv]
      rfl
    rw [inlineRow_weight, hkept]
    split
    · next heq => rw [hdefault heq, heq]
    · rfl
  · intro v hv
    obtain ⟨hnull, hactive⟩ := h.status v hv
    obtain ⟨status, rfl⟩ := Option.ne_none_iff_exists'.mp hnull
    have hkept : m.status = status := by
      rw [hc.status, hv]
      rfl
    rw [inlineRow_status, hkept]
    split
    · next heq => rw [hactive (congrArg some heq), heq]
    · rfl
  · intro v hv
    have hkept : m.tsValidStart = v := by
      rw [hc.tsValidStart, hv]
      rfl
    rw [inlineRow_tsValidStart, hkept]
    cases v with
    | none => exact h.tsValidStart none hv rfl
    | some bound => rfl
  · intro v hv
    have hkept : m.tsValidEnd = v := by
      rw [hc.tsValidEnd, hv]
      rfl
    rw [inlineRow_tsValidEnd, hkept]
    cases v with
    | none => exact h.tsValidEnd none hv rfl
    | some bound => rfl

theorem DistinctFromDefaults.deferred (hc : Created data m) (h : DistinctFromDefaults data e) :
    AgentValues data (deferredRow m e (agentProvidedEnrichmentFields data)) := by
  obtain ⟨hmemoryType, hweight, hstatus, hstart, hend⟩ := deferredRow_columns data m e
  constructor
  · intro v hv
    obtain ⟨hnull, hdeprecated, -⟩ := h.memoryType v hv
    obtain ⟨memoryType, rfl⟩ := Option.ne_none_iff_exists'.mp hnull
    have hne : memoryType ≠ .semantic := fun heq => hdeprecated (congrArg some heq)
    rw [hmemoryType (by rw [hv]; rfl), hc.memoryType, hv]
    simp only [Option.getD_some, Option.map_some, if_neg hne]
  · intro v hv
    obtain ⟨weight, rfl⟩ := Option.ne_none_iff_exists'.mp (h.weight v hv).1
    rw [hweight (by rw [hv]; rfl), hc.weight, hv]
    rfl
  · intro v hv
    obtain ⟨status, rfl⟩ := Option.ne_none_iff_exists'.mp (h.status v hv).1
    rw [hstatus (by rw [hv]; rfl), hc.status, hv]
    rfl
  · intro v hv
    rw [hstart (by rw [hv]; rfl), hc.tsValidStart, hv]
    rfl
  · intro v hv
    rw [hend (by rw [hv]; rfl), hc.tsValidEnd, hv]
    rfl

theorem distinctFromDefaults_of_kept (hc : Created data m)
    (hinline : AgentValues data (inlineRow m e))
    (hdeferred : AgentValues data (deferredRow m e (agentProvidedEnrichmentFields data))) :
    DistinctFromDefaults data e := by
  obtain ⟨hmemoryType, -, -, -, -⟩ := deferredRow_columns data m e
  constructor
  · intro v hv
    have hkept := hinline.memoryType v hv
    rw [inlineRow_memoryType, hc.memoryType, hv] at hkept
    refine ⟨?_, ?_, ?_⟩
    · rintro rfl
      exact nomatch hkept
    · -- the worker leaves the type that the create put in place of a deprecated one
      rintro rfl
      have hstored := hdeferred.memoryType _ hv
      rw [hmemoryType (by rw [hv]; rfl), hc.memoryType, hv] at hstored
      exact absurd hstored (by decide)
    · rintro rfl
      exact Option.some.inj hkept
  · intro v hv
    have hkept := hinline.weight v hv
    rw [inlineRow_weight, hc.weight, hv] at hkept
    refine ⟨?_, ?_⟩
    · rintro rfl
      exact nomatch (if_pos rfl).symm.trans hkept
    · rintro rfl
      exact Option.some.inj ((if_pos rfl).symm.trans hkept)
  · intro v hv
    have hkept := hinline.status v hv
    rw [inlineRow_status, hc.status, hv] at hkept
    refine ⟨?_, ?_⟩
    · rintro rfl
      exact nomatch hkept
    · rintro rfl
      exact Option.some.inj hkept
  · rintro v hv rfl
    have hkept := hinline.tsValidStart none hv
    rw [inlineRow_tsValidStart, hc.tsValidStart, hv] at hkept
    exact hkept
  · rintro v hv rfl
    have hkept := hinline.tsValidEnd none hv
    rw [inlineRow_tsValidEnd, hc.tsValidEnd, hv] at hkept
    exact hkept

def InlineKeeps (t : Table V) (id : ℕ) (data : MemoryCreate) (e : EnrichmentResult) : Prop :=
  ∃ m, (enrichMemoryBackground t id data.tenantId e)[id]? = some m ∧ AgentValues data m

/-- The same for the worker's delivery of the published request. -/
def DeferredKeeps (t : Table V) (id : ℕ) (data : MemoryCreate) (e : EnrichmentResult) : Prop :=
  ∃ m, (handleEnrichRequest t
      ⟨id, data.tenantId, data.content, agentProvidedEnrichmentFields data⟩ e)[id]? = some m ∧
    AgentValues data m

theorem gates_keep_iff (writes : List (Write V)) (data : MemoryCreate) (embedding : Option V)
    (contentHash : Option String) (writeMs now : ℕ) (e : EnrichmentResult) :
    let id := (run step [] writes).length
    let t := createFast (run step [] writes) data embedding contentHash writeMs now
    (InlineKeeps t id data e ∧ DeferredKeeps t id data e) ↔ DistinctFromDefaults data e := by
  intro id t
  have hnumbered : t.Numbered := (run_numbered Table.Numbered.nil writes).append rfl
  obtain ⟨m, hrow, hc⟩ : ∃ m, t[id]? = some m ∧ Created data m :=
    ⟨_, List.getElem?_concat_length, created_row data embedding contentHash writeMs id now⟩
  have hinline := enrichMemoryBackground_row hnumbered hrow hc.live e
  have hdeferred := handleEnrichRequest_row hnumbered hrow hc.live data.content
    (agentProvidedEnrichmentFields data) e
  rw [hc.tenant] at hinline hdeferred
  constructor
  · rintro ⟨⟨m₁, hm₁, hkept₁⟩, m₂, hm₂, hkept₂⟩
    obtain rfl := Option.some.inj (hinline.symm.trans hm₁)
    obtain rfl := Option.some.inj (hdeferred.symm.trans hm₂)
    exact distinctFromDefaults_of_kept hc hkept₁ hkept₂
  · intro h
    exact ⟨⟨_, hinline, h.inline hc⟩, _, hdeferred, h.deferred hc⟩

def sampleFact : MemoryCreate where
  tenantId := "t"
  fleetId := none
  agentId := "a"
  content := "we chose the blue one"
  memoryType := some (some .fact)
  weight := none
  status := none
  tsValidStart := none
  tsValidEnd := none
  sourceUri := none
  runId := none
  metadata := none
  expiresAt := none
  subjectEntityId := none
  predicate := none
  objectValue := none
  visibility := none

/-- An agent that says `fact` and a model that says `decision`: the worker keeps the agent's
type, the inline task does not. -/
theorem inline_overwrites_fact :
    ¬ InlineKeeps (createFast ([] : Table ℕ) sampleFact none none 0 0) 0 sampleFact
        { memoryType := .decision } ∧
      DeferredKeeps (createFast ([] : Table ℕ) sampleFact none none 0 0) 0 sampleFact
        { memoryType := .decision } := by
  constructor
  · rintro ⟨m, hm, hkept⟩
    have htype := hkept.memoryType _ rfl
    rw [← Option.some.inj hm] at htype
    exact absurd htype (by decide)
  · refine ⟨_, rfl, ?_⟩
    constructor <;> intro v hv
    · have hfact : some MemoryType.fact = v := Option.some.inj hv
      subst hfact
      decide
    all_goals exact nomatch hv

end Memclaw.Memories

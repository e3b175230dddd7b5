import Memclaw.Lib.Fallible
import Memclaw.Memories.Statements
import Memclaw.Search.LookupDefs

/-! The search pipeline: the classification of a query with its entity lookup, the scored search,
the similarity gate, and the successors of superseded rows. Steps that only rank, embed or log enter
as what they return, or as a failure. Which memories a search may return. Each way into the result
passes one of three queries; what all of them check, and what the steps between only select from,
decides for every strategy. -/

namespace Memclaw.Search

open Memclaw.Lib
open Memclaw.Entities (Hops idsToExpand mergeResults mergeResults_unique)
open Memclaw.Memories (Memory Table maxSuccessorLookups)

variable {V F S : Type} [LinearOrder F] [LinearOrder S]

inductive RetrievalStrategy
  | entityLookup
  | temporal
  | recentContext
  | keywordSearch
  | semanticSearch
deriving DecidableEq

structure SearchArgs where
  query : String
  filters : Filters
  diagnostic : Bool

structure SearchParams where
  topK : ℕ
  minSimilarity : ℚ
  ftsWeight : ℚ
  candidatePoolSize : ℕ

/-- What a search meets: the answers of the entity index and of the graph, each nothing when the
call fails, the other steps' findings, and the calls that fail. -/
structure Surroundings (V F S : Type) where
  engine : Engine V
  scoring : Scoring V S
  lexicon : Lexicon F
  entityFts : List String → Option (List ℕ)
  expandGraph : List ℕ → Option String → Option (Hops F)
  lookupFails : Bool
  temporalWindow : Option ℕ
  recentContext : String → Bool
  embedFails : Bool
  scoredFails : Bool
  successorsFail : Bool

structure RetrievalPlan where
  strategy : RetrievalStrategy
  skipScoredSearch : Bool
  topK : Option ℕ

structure Hit (V : Type) where
  memory : Memory V
  vecSim : Option ℚ
  entityLinks : List (ℕ × String)

def LookupRow.hit (row : LookupRow V F) : Hit V := ⟨row.memory, none, row.entityLinks⟩

def entityLookupMaxMatches : ℕ := 20

def expandPerFleet (env : Surroundings V F S) (seeds : List ℕ) (fleetIds : Option (List String)) :
    EntityHops F where
  entries := mergeResults ((idsToExpand fleetIds).map (env.expandGraph seeds))
  unique := mergeResults_unique _

def entityLookup (env : Surroundings V F S) (store : Store V) (args : SearchArgs)
    (params : SearchParams) : List (LookupRow V F) :=
  match env.lexicon.tokens args.query with
  | [] => []
  | tokens =>
    match env.entityFts tokens with
    | none => []
    | some matched =>
      if matched = [] ∨ entityLookupMaxMatches < matched.length ∨ env.lookupFails then []
      else
        collectMemories store env.engine env.lexicon
          (expandPerFleet env matched args.filters.fleetIds) args.filters params.topK args.query

def ftsWeightBoosted : ℚ := 6 / 10

def classifyQuery (env : Surroundings V F S) (store : Store V) (args : SearchArgs)
    (params : SearchParams) : RetrievalPlan × List (Hit V) :=
  match entityLookup env store args params with
  | row :: rows => (⟨.entityLookup, true, none⟩, (row :: rows).map LookupRow.hit)
  | [] =>
    if env.temporalWindow.isSome then (⟨.temporal, false, none⟩, [])
    else if env.recentContext args.query then (⟨.recentContext, false, some (min params.topK 5)⟩, [])
    else if ftsWeightBoosted ≤ params.ftsWeight then (⟨.keywordSearch, false, none⟩, [])
    else (⟨.semanticSearch, false, none⟩, [])

inductive SearchError
  | embedding
  | failedStep

def searchOverfetchFactor : ℕ := 2

def Filters.sent (f : Filters) : Filters :=
  { f.forwarded with
    fleetIds := f.fleetIds.filter (· ≠ [])
    callerAgentId := f.callerAgentId.filter (· ≠ "")
    filterAgentId := f.filterAgentId.filter (· ≠ "")
    memoryTypeFilter := f.memoryTypeFilter.filter (· ≠ "")
    statusFilter := f.statusFilter.filter (· ≠ "") }

def groupById (rows : List (ScoredRow V)) : List (ScoredRow V) :=
  (Groups.collect (fun row => row.memory.id) (fun row (first : Option (ScoredRow V)) =>
    match first with
    | none => row
    | some first => { first with entityLinks := first.entityLinks ++ row.entityLinks }) []
    rows).map Prod.snd

/-- `ExecuteScoredSearch.execute`: the rows, and the `final_top_k`. The widened limit goes out as
`top_k`, beside `search_params` with the limit of the request. -/
def executeScoredSearch (env : Surroundings V F S) (store : Store V) (args : SearchArgs)
    (params : SearchParams) (plan : RetrievalPlan) :
    Except SearchError (List (ScoredRow V) × Option ℕ) :=
  let topK := plan.topK.getD params.topK
  if env.scoredFails then .error .failedStep
  else
    .ok (groupById (memoryScoredSearch store env.engine env.scoring args.filters.sent
      ⟨some topK, params.candidatePoolSize⟩
      (if args.diagnostic then max topK 50 else topK * searchOverfetchFactor)),
      if args.diagnostic then none else some topK)

def postFilter (params : SearchParams) (rows : List (ScoredRow V)) (finalTopK : Option ℕ) :
    List (Hit V) :=
  let filtered := rows.filter fun row => !row.hasEmbedding || params.minSimilarity ≤ row.vecSim
  let trimmed := match finalTopK with
    | none => filtered
    | some k => filtered.take k
  trimmed.map fun row => ⟨row.memory, some row.vecSim, row.entityLinks⟩

def addSuccessors (successors : Table V) (rows : List (Hit V)) : List (Hit V) :=
  successors.foldl (fun rows m =>
    if rows.any fun row => row.memory.id = m.id then rows else rows ++ [⟨m, none, []⟩]) rows

def loadAndSerialize (env : Surroundings V F S) (store : Store V) (f : Filters)
    (rows : List (Hit V)) : List (Hit V) :=
  let outdatedIds := ((rows.filter fun row => row.memory.superseded).map
    fun row => row.memory.id).take maxSuccessorLookups
  if outdatedIds = [] ∨ env.successorsFail then rows
  else addSuccessors (memoryFindSuccessors store f outdatedIds) rows

/-- An entry of the final result: a short-term note, or a long-term memory. -/
inductive SearchResult (V : Type)
  | note (content : String)
  | memory (hit : Hit V)

def filteredRows (env : Surroundings V F S) (store : Store V) (args : SearchArgs)
    (params : SearchParams) : Except SearchError (List (Hit V)) :=
  let classified := classifyQuery env store args params
  if classified.1.skipScoredSearch then .ok classified.2
  else if env.embedFails then .error .embedding
  else do
    let scored ← executeScoredSearch env store args params classified.1
    .ok (postFilter params scored.1 scored.2)

def searchMemoriesPipeline (env : Surroundings V F S) (store : Store V) (args : SearchArgs)
    (params : SearchParams) (notes : List String) : Except SearchError (List (SearchResult V)) := do
  let rows ← filteredRows env store args params
  .ok (notes.map .note ++ (loadAndSerialize env store args.filters rows).map .memory)

structure Permitted (f : Filters) (m : Memory V) : Prop where
  live : m.deletedAt = none
  tenant : m.tenantId = f.tenantId ∨ ∃ tenants, f.readableTenantIds = some tenants ∧
    m.tenantId ∈ tenants
  fleet : ∀ fleets, f.fleetIds = some fleets → fleets ≠ [] →
    m.fleetId = none ∨ (∃ fleet ∈ fleets, m.fleetId = some fleet) ∨ m.visibility = .scopeOrg
  visible : m.visibility ≠ .scopeAgent ∨ f.callerAgentId = some m.agentId
  agent : ∀ agent, f.filterAgentId = some agent → agent ≠ "" → m.agentId = agent
  type : ∀ type, f.memoryTypeFilter = some type → type ≠ "" → m.memoryType.value = type

theorem given_of_some {filter : Option String} {p : String → Bool}
    (h : Memories.given filter p = true) {s : String} (hs : filter = some s) (hne : s ≠ "") :
    p s = true := by
  rw [hs, Memories.given, Bool.or_eq_true, decide_eq_true_eq] at h
  exact h.resolve_left hne

theorem of_visibleTo {caller : Option String} {m : Memory V}
    (h : Memories.visibleTo caller m = true) :
    m.visibility ≠ .scopeAgent ∨ caller = some m.agentId := by
  rw [Memories.visibleTo, Bool.or_eq_true, decide_eq_true_eq] at h
  refine h.imp_right fun howner => ?_
  cases caller with
  | none => exact absurd howner Bool.false_ne_true
  | some agent =>
    by_cases hempty : agent = ""
    · rw [hempty] at howner
      exact absurd howner Bool.false_ne_true
    · rw [Memories.orText_some hempty] at howner
      exact congrArg some (of_decide_eq_true howner).symm

theorem of_inFleets {fleets : List String} {m : Memory V}
    (h : Memories.inFleets fleets m = true) (hne : fleets ≠ []) :
    m.fleetId = none ∨ (∃ fleet ∈ fleets, m.fleetId = some fleet) ∨ m.visibility = .scopeOrg := by
  rw [Memories.inFleets, Bool.or_eq_true, Bool.or_eq_true, decide_eq_true_eq] at h
  rcases h with (hempty | hlisted) | horg
  · exact absurd (List.isEmpty_iff.mp hempty) hne
  · cases hfleet : m.fleetId with
    | none => exact .inl rfl
    | some fleet =>
      rw [hfleet, Option.all_some, List.contains_iff_mem] at hlisted
      exact .inr (.inl ⟨fleet, hlisted, rfl⟩)
  · exact .inr (.inr horg)

theorem permitted_of_admits {f : Filters} {m : Memory V} (h : f.admits m = true)
    (htenant : m.tenantId = f.tenantId ∨ ∃ tenants, f.readableTenantIds = some tenants ∧
      m.tenantId ∈ tenants) : Permitted f m := by
  simp only [Filters.admits, Bool.and_eq_true] at h
  obtain ⟨⟨⟨⟨hlive, hfleet⟩, hvisible⟩, hagent⟩, htype⟩ := h
  refine ⟨Option.isNone_iff_eq_none.mp hlive, htenant, fun fleets hfleets hne => ?_,
    of_visibleTo hvisible, fun agent hagent' hne => ?_, fun type htype' hne => ?_⟩
  · rw [hfleets, Option.getD_some] at hfleet
    exact of_inFleets hfleet hne
  · exact of_decide_eq_true (given_of_some hagent hagent' hne)
  · exact of_decide_eq_true (given_of_some htype htype' hne)

theorem of_ofTenants {f : Filters} {m : Memory V} (h : f.ofTenants m = true) :
    m.tenantId = f.tenantId ∨ ∃ tenants, f.readableTenantIds = some tenants ∧
      m.tenantId ∈ tenants := by
  unfold Filters.ofTenants at h
  split at h
  · next tenant tenants hreadable =>
    exact .inr ⟨tenant :: tenants, hreadable, List.contains_iff_mem.mp h⟩
  · exact .inl (of_decide_eq_true h)

theorem permitted_of_loadWhere {f : Filters} {engine : Engine V} {m : Memory V}
    (h : f.loadWhere engine m = true) : Permitted f m := by
  simp only [Filters.loadWhere, Bool.and_eq_true] at h
  exact permitted_of_admits h.1.1.2 (of_ofTenants h.1.1.1)

theorem permitted_of_scoredWhere {f : Filters} {engine : Engine V} {m : Memory V}
    (h : f.scoredWhere engine m = true) : Permitted f m := by
  simp only [Filters.scoredWhere, Bool.and_eq_true] at h
  exact permitted_of_admits h.1.1.1.2 (of_ofTenants h.1.1.1.1)

theorem permitted_of_successorWhere {f : Filters} {ids : List ℕ} {m : Memory V}
    (h : f.successorWhere ids m = true) : Permitted f m := by
  simp only [Filters.successorWhere, Bool.and_eq_true] at h
  exact permitted_of_admits h.1.2 (.inl (of_decide_eq_true h.1.1.1.1))

theorem Permitted.of_forwarded {f : Filters} {m : Memory V} (h : Permitted f.forwarded m) :
    Permitted f m := by
  refine ⟨h.live, ?_, h.fleet, h.visible, h.agent, h.type⟩
  rcases h.tenant with hhome | ⟨tenants, hreadable, hmem⟩
  · exact .inl hhome
  · exact .inr ⟨tenants, (Option.filter_eq_some_iff.mp hreadable).1, hmem⟩

theorem Permitted.of_sent {f : Filters} {m : Memory V} (h : Permitted f.sent m) :
    Permitted f m := by
  have hkept : ∀ {filter : Option String} {s : String}, filter = some s → s ≠ "" →
      filter.filter (· ≠ "") = some s := by
    intro filter s hs hne
    rw [hs, Option.filter_some, if_pos (decide_eq_true hne)]
  refine Permitted.of_forwarded ⟨h.live, h.tenant, fun fleets hfleets hne => ?_, ?_,
    fun agent hagent hne => h.agent agent (hkept hagent hne) hne,
    fun type htype hne => h.type type (hkept htype hne) hne⟩
  · refine h.fleet fleets ?_ hne
    have hfleets' : f.fleetIds = some fleets := hfleets
    show f.fleetIds.filter _ = some fleets
    rw [hfleets', Option.filter_some, if_pos (decide_eq_true hne)]
  · refine h.visible.imp_right fun hcaller => ?_
    exact (Option.filter_eq_some_iff.mp hcaller).1

def Allowed (store : Store V) (f : Filters) (m : Memory V) : Prop :=
  m ∈ store.memories ∧ Permitted f m

variable {env : Surroundings V F S} {store : Store V} {args : SearchArgs} {params : SearchParams}

theorem allowed_of_collected {engine : Engine V} {lexicon : Lexicon F} {hops : EntityHops F}
    {f : Filters} {topK : ℕ} {query : String} {row : LookupRow V F}
    (h : row ∈ collectMemories store engine lexicon hops f topK query) :
    Allowed store f row.memory := by
  unfold collectMemories at h
  dsimp only at h
  split at h
  · exact absurd h List.not_mem_nil
  · have hrow := (List.mem_insertionSort _).mp (List.mem_of_mem_take h)
    obtain ⟨c, -, hc⟩ := List.mem_filterMap.mp hrow
    obtain ⟨m, hm, rfl⟩ := Option.map_eq_some_iff.mp hc
    have hloaded := List.mem_reverse.mp (List.mem_of_find?_eq_some hm)
    obtain ⟨hstored, hwhere⟩ := List.mem_filter.mp hloaded
    rw [Bool.and_eq_true] at hwhere
    exact ⟨hstored, (permitted_of_loadWhere hwhere.2).of_forwarded⟩

omit [LinearOrder S] in
theorem allowed_of_entityLookup {row : LookupRow V F}
    (h : row ∈ entityLookup env store args params) : Allowed store args.filters row.memory := by
  unfold entityLookup at h
  split at h
  · exact absurd h List.not_mem_nil
  · split at h
    · exact absurd h List.not_mem_nil
    · split at h
      · exact absurd h List.not_mem_nil
      · exact allowed_of_collected h

omit [LinearOrder S] in
theorem allowed_of_classified {hit : Hit V}
    (h : hit ∈ (classifyQuery env store args params).2) : Allowed store args.filters hit.memory := by
  unfold classifyQuery at h
  split at h
  · next row rows hrows =>
    obtain ⟨row', hrow', rfl⟩ := List.mem_map.mp h
    rw [← hrows] at hrow'
    exact allowed_of_entityLookup hrow'
  · repeat' split at h
    all_goals exact absurd h List.not_mem_nil

theorem mem_inOrder {column : Memory V → S} {rows : Table V} {m : Memory V} :
    m ∈ inOrder column rows ↔ m ∈ rows := List.mem_insertionSort _

theorem allowed_of_scored {engine : Engine V} {scoring : Scoring V S} {f : Filters}
    {sp : SentParams} {topK : ℕ} {row : ScoredRow V}
    (h : row ∈ memoryScoredSearch store engine scoring f sp topK) :
    Allowed store f row.memory := by
  obtain ⟨m, hm, rfl⟩ := List.mem_map.mp h
  have hrow : m ∈ store.memories.filter (f.scoredWhere engine) := by
    have hpool := mem_inOrder.mp hm
    split at hpool
    · exact mem_inOrder.mp (List.mem_of_mem_take hpool)
    · exact mem_inOrder.mp (List.mem_of_mem_take hpool)
  obtain ⟨hstored, hwhere⟩ := List.mem_filter.mp hrow
  exact ⟨hstored, permitted_of_scoredWhere hwhere⟩

theorem groupById_memory {P : Memory V → Prop} {rows : List (ScoredRow V)}
    (h : ∀ row ∈ rows, P row.memory) : ∀ row ∈ groupById rows, P row.memory := by
  intro row hrow
  obtain ⟨group, hgroup, rfl⟩ := List.mem_map.mp hrow
  refine Groups.forall_collect (P := fun row => P row.memory) (fun row' hrow' first hfirst => ?_)
    (fun group hgroup => absurd hgroup List.not_mem_nil) group hgroup
  cases first with
  | none => exact h row' hrow'
  | some first => exact hfirst first rfl

theorem allowed_of_postFilter {rows : List (ScoredRow V)} {finalTopK : Option ℕ} {f : Filters}
    (h : ∀ row ∈ rows, Allowed store f row.memory) :
    ∀ hit ∈ postFilter params rows finalTopK, Allowed store f hit.memory := by
  intro hit hhit
  obtain ⟨row, hrow, rfl⟩ := List.mem_map.mp hhit
  refine h row ?_
  split at hrow
  · exact List.mem_of_mem_filter hrow
  · exact List.mem_of_mem_filter (List.mem_of_mem_take hrow)

theorem allowed_of_filtered {rows : List (Hit V)}
    (h : filteredRows env store args params = .ok rows) :
    ∀ hit ∈ rows, Allowed store args.filters hit.memory := by
  unfold filteredRows at h
  dsimp only at h
  split at h
  · obtain rfl := Except.ok.inj h
    exact fun hit hhit => allowed_of_classified hhit
  · split at h
    · exact nomatch h
    · obtain ⟨scored, hscored, hrows⟩ := ok_of_bind h
      obtain rfl := Except.ok.inj hrows
      unfold executeScoredSearch at hscored
      dsimp only at hscored
      split at hscored
      · exact nomatch hscored
      · obtain rfl := Except.ok.inj hscored
        refine allowed_of_postFilter (groupById_memory fun row hrow => ?_)
        obtain ⟨hstored, hpermitted⟩ := allowed_of_scored hrow
        exact ⟨hstored, hpermitted.of_sent⟩

theorem mem_addSuccessors {successors : Table V} {rows : List (Hit V)} {hit : Hit V}
    (h : hit ∈ addSuccessors successors rows) : hit ∈ rows ∨ hit.memory ∈ successors := by
  induction successors generalizing rows with
  | nil => exact .inl h
  | cons m successors ih =>
    rw [addSuccessors, List.foldl_cons, ← addSuccessors] at h
    rcases ih h with hrows | hrest
    · split at hrows
      · exact .inl hrows
      · rcases List.mem_append.mp hrows with hrows | hnew
        · exact .inl hrows
        · rw [List.mem_singleton.mp hnew]
          exact .inr List.mem_cons_self
    · exact .inr (List.mem_cons_of_mem m hrest)

omit [LinearOrder F] [LinearOrder S] in
theorem allowed_of_serialized {f : Filters} {rows : List (Hit V)}
    (h : ∀ hit ∈ rows, Allowed store f hit.memory) :
    ∀ hit ∈ loadAndSerialize env store f rows, Allowed store f hit.memory := by
  intro hit hhit
  unfold loadAndSerialize at hhit
  dsimp only at hhit
  split at hhit
  · exact h hit hhit
  · rcases mem_addSuccessors hhit with hrow | hsuccessor
    · exact h hit hrow
    · obtain ⟨hstored, hwhere⟩ := List.mem_filter.mp hsuccessor
      exact ⟨hstored, permitted_of_successorWhere hwhere⟩

/-- Whatever the strategy, a search returns only memories that its caller may see. -/
theorem search_allowed {notes : List String} {results : List (SearchResult V)}
    (h : searchMemoriesPipeline env store args params notes = .ok results) :
    ∀ hit, SearchResult.memory hit ∈ results →
      hit.memory ∈ store.memories ∧ Permitted args.filters hit.memory := by
  obtain ⟨rows, hrows, hresults⟩ := ok_of_bind h
  obtain rfl := Except.ok.inj hresults
  intro hit hhit
  rcases List.mem_append.mp hhit with hnote | hmemory
  · obtain ⟨note, -, hnote⟩ := List.mem_map.mp hnote
    exact nomatch hnote
  · obtain ⟨hit', hhit', hsame⟩ := List.mem_map.mp hmemory
    obtain rfl := SearchResult.memory.inj hsame
    exact allowed_of_serialized (allowed_of_filtered hrows) hit' hhit'

/-! A search by text finds a conflicted row and brings in its successor. -/

def sampleSuccessor : Memory ℕ := { Memories.sampleMemory.row 8 1 with supersedesId := some 7 }

def sampleStore : Store ℕ where
  memories := [{ Memories.sampleMemory.row 7 0 with status := .conflicted }, sampleSuccessor]
  links := []
  memoriesUnique := by decide
  linksUnique := List.nodup_nil
  linksMemory := fun _ h => absurd h List.not_mem_nil

def sampleSurroundings : Surroundings ℕ ℕ ℕ where
  engine := ⟨fun m => m.status = .conflicted, id⟩
  scoring := ⟨fun m => m.id, fun m => m.id, fun _ => 0⟩
  lexicon := ⟨fun _ => [], fun hop => hop.weight⟩
  entityFts := fun _ => none
  expandGraph := fun _ _ => none
  lookupFails := false
  temporalWindow := none
  recentContext := fun _ => false
  embedFails := false
  scoredFails := false
  successorsFail := false

def sampleArgs : SearchArgs where
  query := "sky"
  filters := ⟨"t", none, none, some "a", none, none, none, none⟩
  diagnostic := false

def sampleResults : List (SearchResult ℕ) :=
  sampleStore.memories.map fun m =>
    .memory ⟨m, if m.status = .conflicted then some 0 else none, []⟩

theorem search_allowed_sample : sampleSuccessor ∈ sampleStore.memories ∧
    Permitted sampleArgs.filters sampleSuccessor := by
  have hrun : searchMemoriesPipeline sampleSurroundings sampleStore sampleArgs ⟨5, 0, 0, 0⟩ [] =
      .ok sampleResults := by
    with_unfolding_all rfl
  have hfound : SearchResult.memory ⟨sampleSuccessor, none, []⟩ ∈ sampleResults :=
    List.mem_cons_of_mem _ List.mem_cons_self
  exact search_allowed hrun _ hfound

end Memclaw.Search

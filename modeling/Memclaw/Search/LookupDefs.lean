import Mathlib.Data.List.Sort
import Mathlib.Data.Rat.Defs
import Memclaw.Entities.GraphDefs
import Memclaw.Lib.Groups
import Memclaw.Lib.StableSort
import Memclaw.Memories.ReadDefs

/-! The three queries through which rows of `memories` come to a search, each with its own `WHERE`
clause over the filters of the request, and `ClassifyQuery._collect_memories`: from the entities that
a query names and their hop distances to the memories linked to them. -/

namespace Memclaw.Search

open Memclaw.Lib
open Memclaw.Entities (Hops MemoryEntityLink Reached graphMaxExpandedEntities)
open Memclaw.Memories (Memory Table given visibleTo inFleets statusValue)

section Queries

variable {V : Type}

@[ext]
structure Store (V : Type) where
  memories : Table V
  links : List MemoryEntityLink
  memoriesUnique : Keyed.Unique Memory.id memories
  linksUnique : Keyed.Unique MemoryEntityLink.key links
  linksMemory : ∀ l ∈ links, ∃ m ∈ memories, m.id = l.memoryId

structure Filters where
  tenantId : String
  readableTenantIds : Option (List String)
  fleetIds : Option (List String)
  callerAgentId : Option String
  filterAgentId : Option String
  memoryTypeFilter : Option String
  statusFilter : Option String
  validAt : Option ℕ

/-- What the database makes of a query: the rows that match its text, and the day of an instant. -/
structure Engine (V : Type) where
  fts : Memory V → Bool
  day : ℕ → ℕ

namespace Filters

/-- `tenant_id IN (…)` where readable tenants are given, else `tenant_id = …`. -/
def ofTenants (f : Filters) (m : Memory V) : Bool :=
  match f.readableTenantIds with
  | some (tenant :: tenants) => (tenant :: tenants).contains m.tenantId
  | _ => m.tenantId = f.tenantId

def admits (f : Filters) (m : Memory V) : Bool :=
  m.live && inFleets (f.fleetIds.getD []) m && visibleTo f.callerAgentId m &&
    given f.filterAgentId (m.agentId = ·) && given f.memoryTypeFilter (m.memoryType.value = ·)

def started (f : Filters) (engine : Engine V) (m : Memory V) : Bool :=
  f.validAt.all fun instant =>
    m.tsValidStart.all fun start => engine.day start ≤ engine.day instant

def scoredWhere (f : Filters) (engine : Engine V) (m : Memory V) : Bool :=
  f.ofTenants m && f.admits m && (m.embedding.isSome || engine.fts m) && f.started engine m &&
    match Memories.orText f.statusFilter none with
    | some status => statusValue m.status = status
    | none => m.status ≠ .outdated && (m.status ≠ .conflicted || engine.fts m)

def loadWhere (f : Filters) (engine : Engine V) (m : Memory V) : Bool :=
  f.ofTenants m && f.admits m && f.started engine m &&
    match Memories.orText f.statusFilter none with
    | some status => statusValue m.status = status
    | none => m.status ≠ .outdated

def successorWhere (f : Filters) (ids : List ℕ) (m : Memory V) : Bool :=
  m.tenantId = f.tenantId && m.supersedesId.any (ids.contains ·) &&
    (m.status = .active || m.status = .confirmed) && f.admits m &&
    f.validAt.all fun instant =>
      m.tsValidStart.all (· ≤ instant) && m.tsValidEnd.all (instant ≤ ·)

end Filters

structure ScoredRow (V : Type) where
  memory : Memory V
  vecSim : ℚ
  hasEmbedding : Bool
  entityLinks : List (ℕ × String)

structure Scoring (V S : Type) where
  score : Memory V → S
  similarity : Memory V → S
  vecSim : Memory V → ℚ

/-- `ORDER BY … DESC, created_at DESC`. -/
def inOrder {S : Type} [LinearOrder S] (column : Memory V → S) (rows : Table V) : Table V :=
  rows.insertionSort fun a b => column b < column a ∨ column a = column b ∧ b.createdAt ≤ a.createdAt

def Store.linksOf (store : Store V) (memoryId : ℕ) : List (ℕ × String) :=
  (store.links.filter fun l => l.memoryId = memoryId).map fun l => (l.entityId, l.role)

structure SentParams where
  topK : Option ℕ
  candidatePoolSize : ℕ

/-- A pool of candidates by similarity is taken where `candidate_pool_size` is set, else the
`top_k` by score; both are returned by score. The argument `top_k` stands in for a `top_k` that
the `search_params` do not have. -/
def memoryScoredSearch {S : Type} [LinearOrder S] (store : Store V) (engine : Engine V)
    (scoring : Scoring V S) (f : Filters) (sp : SentParams) (topK : ℕ) : List (ScoredRow V) :=
  let rows := store.memories.filter (f.scoredWhere engine)
  let pool :=
    if 0 < sp.candidatePoolSize then (inOrder scoring.similarity rows).take sp.candidatePoolSize
    else (inOrder scoring.score rows).take (sp.topK.getD topK)
  (inOrder scoring.score pool).map fun m =>
    ⟨m, scoring.vecSim m, m.embedding.isSome, store.linksOf m.id⟩

def memoryLoadByIds (store : Store V) (engine : Engine V) (f : Filters) (ids : List ℕ) : Table V :=
  store.memories.filter fun m => ids.contains m.id && f.loadWhere engine m

def memoryFindSuccessors (store : Store V) (f : Filters) (supersedesIds : List ℕ) : Table V :=
  store.memories.filter (f.successorWhere supersedesIds)

def entityGetMemoryIdsByEntityIds (store : Store V) (entityIds : List ℕ) :
    List MemoryEntityLink :=
  store.links.filter fun l => entityIds.contains l.entityId

end Queries

variable {V F : Type} [LinearOrder F]

structure EntityHops (F : Type) where
  entries : Hops F
  unique : Keyed.Unique Prod.fst entries

def EntityHops.get (hops : EntityHops F) (id : ℕ) : Option (Reached F) := Groups.value hops.entries id

def graphMaxBoostedMemories : ℕ := 50

def closer (a b : ℕ × Reached F) : Prop :=
  a.2.hop < b.2.hop ∨ a.2.hop = b.2.hop ∧ b.2.weight ≤ a.2.weight

instance : DecidableRel (closer (F := F)) := fun _ _ => inferInstanceAs (Decidable (_ ∨ _))

def EntityHops.lookedUp (hops : EntityHops F) : List ℕ :=
  if graphMaxExpandedEntities < hops.entries.length then
    ((hops.entries.insertionSort closer).take graphMaxExpandedEntities).map Prod.fst
  else hops.entries.map Prod.fst

/-- What a query and the constants make of texts and weights: `boost` is
`GRAPH_HOP_BOOST.get(hop, fallback) * weight`. -/
structure Lexicon (F : Type) where
  tokens : String → List String
  boost : Reached F → F

structure Candidate (F : Type) where
  boost : F
  matchCount : ℕ
  entityLinks : List (ℕ × String)

def EntityHops.distanceOf (hops : EntityHops F) (l : MemoryEntityLink) : ℕ :=
  ((hops.get l.entityId).map Reached.hop).getD 999

def byDistance (hops : EntityHops F) (l l' : MemoryEntityLink) : Prop :=
  hops.distanceOf l ≤ hops.distanceOf l'

instance (hops : EntityHops F) : DecidableRel (byDistance hops) :=
  fun _ _ => inferInstanceAs (Decidable (_ ≤ _))

def EntityHops.resolve (hops : EntityHops F) (links : List MemoryEntityLink) :
    List (MemoryEntityLink × Reached F) :=
  links.filterMap fun l => (hops.get l.entityId).map fun hop => (l, hop)

def addLink (lexicon : Lexicon F) (link : MemoryEntityLink × Reached F) :
    Option (Candidate F) → Candidate F
  | none =>
    ⟨lexicon.boost link.2, if link.2.hop = 0 then 1 else 0, [(link.1.entityId, link.1.role)]⟩
  | some c =>
    ⟨if c.boost < lexicon.boost link.2 then lexicon.boost link.2 else c.boost,
      if link.2.hop = 0 then c.matchCount + 1 else c.matchCount,
      c.entityLinks ++ [(link.1.entityId, link.1.role)]⟩

def candidates (lexicon : Lexicon F) (hops : EntityHops F) (links : List MemoryEntityLink) :
    List (ℕ × Candidate F) :=
  Groups.collect (fun link => link.1.memoryId) (addLink lexicon) []
    (hops.resolve (links.insertionSort (byDistance hops)))

def heavier (a b : ℕ × Candidate F) : Prop :=
  b.2.matchCount < a.2.matchCount ∨ a.2.matchCount = b.2.matchCount ∧ b.2.boost ≤ a.2.boost

instance : DecidableRel (heavier (F := F)) := fun _ _ => inferInstanceAs (Decidable (_ ∨ _))

def capCandidates (cands : List (ℕ × Candidate F)) : List (ℕ × Candidate F) :=
  if graphMaxBoostedMemories < cands.length then
    (cands.insertionSort heavier).take graphMaxBoostedMemories
  else cands

structure LookupRow (V F : Type) where
  memory : Memory V
  score : F
  entityLinks : List (ℕ × String)

def byId (memories : Table V) (id : ℕ) : Option (Memory V) :=
  memories.reverse.find? fun m => m.id = id

def lookupRows (memories : Table V) (cands : List (ℕ × Candidate F)) : List (LookupRow V F) :=
  cands.filterMap fun c => (byId memories c.1).map fun m => ⟨m, c.2.boost, c.2.entityLinks⟩

def Lexicon.overlap (lexicon : Lexicon F) (query content : String) : ℚ :=
  let tokens := if query = "" then [] else (lexicon.tokens query).dedup
  if tokens = [] then 0
  else (tokens.filter fun token => (lexicon.tokens content).contains token).length / tokens.length

def bestFirst (lexicon : Lexicon F) (query : String) (a b : LookupRow V F) : Prop :=
  lexicon.overlap query b.memory.content < lexicon.overlap query a.memory.content ∨
    lexicon.overlap query a.memory.content = lexicon.overlap query b.memory.content ∧
      b.score ≤ a.score

instance (lexicon : Lexicon F) (query : String) :
    DecidableRel (bestFirst (V := V) lexicon query) :=
  fun _ _ => inferInstanceAs (Decidable (_ ∨ _))

/-- `readable_tenant_ids` goes with a call where it is more than the tenant alone. -/
def Filters.forwarded (f : Filters) : Filters :=
  { f with readableTenantIds := f.readableTenantIds.filter fun tenants =>
      tenants ≠ [] && tenants ≠ [f.tenantId] }

def collectMemories (store : Store V) (engine : Engine V) (lexicon : Lexicon F)
    (hops : EntityHops F) (f : Filters) (topK : ℕ) (query : String) : List (LookupRow V F) :=
  let cands := candidates lexicon hops (entityGetMemoryIdsByEntityIds store hops.lookedUp)
  if cands = [] then []
  else
    let kept := capCandidates cands
    let memories := memoryLoadByIds store engine f.forwarded (kept.map Prod.fst)
    ((lookupRows memories kept).insertionSort (bestFirst lexicon query)).take topK

end Memclaw.Search

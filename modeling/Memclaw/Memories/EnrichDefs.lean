import Memclaw.Memories.TableDefs

/-! Enrichment of a created memory: the columns that the write path stores for a body, the
patch that the inline task computes from the row it reads, and the patch that the worker
computes from the fields that the publisher saw in the body. -/

namespace Memclaw.Memories

open Memclaw.Lib
open Memclaw.Contradiction (Status Visibility)

variable {V : Type}

/-- `MemoryCreate` after the policy gate; of the fields that enrichment would fill in, the
body has nothing, a null or a value. -/
structure MemoryCreate where
  tenantId : String
  fleetId : Option String
  agentId : String
  content : String
  memoryType : Option (Option MemoryType)
  weight : Option (Option ℚ)
  status : Option (Option Status)
  tsValidStart : Option (Option ℕ)
  tsValidEnd : Option (Option ℕ)
  sourceUri : Option String
  runId : Option String
  metadata : Option Dict
  expiresAt : Option ℕ
  subjectEntityId : Option ℕ
  predicate : Option String
  objectValue : Option String
  visibility : Option Visibility

structure EnrichmentResult where
  memoryType : MemoryType := .fact
  weight : ℚ := 7 / 10
  title : String := ""
  summary : String := ""
  tags : List String := []
  status : Status := .active
  tsValidStart : Option ℕ := none
  tsValidEnd : Option ℕ := none
  containsPii : Bool := false
  piiTypes : List String := []
  businessRelevance : String := "business"
  retrievalHint : String := ""
  llmMs : ℕ := 0

inductive Column
  | memoryType
  | status
  | tsValidEnd
  | tsValidStart
  | weight
deriving DecidableEq

def Column.all : List Column := [.memoryType, .status, .tsValidEnd, .tsValidStart, .weight]

/-- `field in data.model_fields_set`. -/
def MemoryCreate.sets (data : MemoryCreate) : Column → Bool
  | .memoryType => data.memoryType.isSome
  | .status => data.status.isSome
  | .tsValidEnd => data.tsValidEnd.isSome
  | .tsValidStart => data.tsValidStart.isSome
  | .weight => data.weight.isSome

def agentProvidedEnrichmentFields (data : MemoryCreate) : Option (List Column) :=
  let overlap := Column.all.filter data.sets
  if overlap = [] then none else some overlap

structure MemoryFields where
  memoryType : MemoryType
  weight : ℚ
  title : Option String
  metadata : Dict
  tsValidStart : Option ℕ
  tsValidEnd : Option ℕ
  status : Status

def strings (texts : List String) : Json := .arr (texts.map .str)

def EnrichmentResult.mergedMetadata (e : EnrichmentResult) (metadata : Dict) : Dict :=
  let metadata := if e.summary = "" then metadata else metadata.set "summary" (.str e.summary)
  let metadata := if e.tags = [] then metadata else metadata.set "tags" (strings e.tags)
  let metadata := if e.llmMs = 0 then metadata else metadata.set "llm_ms" (.int e.llmMs)
  let metadata := if !e.containsPii then metadata else
    let metadata := metadata.set "contains_pii" (.bool true)
    if e.piiTypes = [] then metadata else metadata.set "pii_types" (strings e.piiTypes)
  metadata.set "business_relevance" (.str e.businessRelevance)

/-- `MergeEnrichmentFields`: values of the body win, then the model's, then defaults. -/
def mergeEnrichmentFields (data : MemoryCreate) (enrichment : Option EnrichmentResult)
    (writeMode : Option String) : MemoryFields :=
  let memoryType := (data.memoryType.getD none).map fun memoryType =>
    if memoryType = .semantic then .fact else memoryType
  let metadata := data.metadata.getD []
  let metadata := match enrichment with
    | none => metadata
    | some e => e.mergedMetadata metadata
  let metadata := match writeMode with
    | none => metadata
    | some mode => metadata.set "write_mode" (.str mode)
  let metadata := if writeMode = some "fast" ∧ enrichment.isNone then
      metadata.set "enrichment_pending" (.bool true)
    else metadata
  { memoryType := (memoryType.or (enrichment.map (·.memoryType))).getD .fact
    weight := ((data.weight.getD none).or (enrichment.map (·.weight))).getD (1 / 2)
    title := (enrichment.map (·.title)).filter (· ≠ "")
    metadata := metadata
    tsValidStart := (data.tsValidStart.getD none).or (enrichment.bind (·.tsValidStart))
    tsValidEnd := (data.tsValidEnd.getD none).or (enrichment.bind (·.tsValidEnd))
    status := ((data.status.getD none).or (enrichment.map (·.status))).getD .active }

def writeMemoryRow (data : MemoryCreate) (embedding : Option V) (contentHash : Option String)
    (fields : MemoryFields) (writeMs : ℕ) : NewMemory V where
  tenantId := data.tenantId
  fleetId := data.fleetId
  agentId := data.agentId
  memoryType := fields.memoryType
  title := fields.title
  content := data.content
  embedding := embedding
  weight := some fields.weight
  sourceUri := data.sourceUri
  runId := data.runId
  metadata := some (Dict.set
    (if embedding.isNone then fields.metadata.set "embedding_pending" (.bool true)
      else fields.metadata)
    "write_latency_ms" (.int writeMs))
  contentHash := contentHash
  expiresAt := data.expiresAt
  subjectEntityId := data.subjectEntityId
  predicate := data.predicate
  objectValue := data.objectValue
  tsValidStart := fields.tsValidStart
  tsValidEnd := fields.tsValidEnd
  status := fields.status
  visibility := data.visibility.getD .scopeTeam

def EnrichmentResult.inlineMetadata (e : EnrichmentResult) (metadata : Option Dict) : Dict :=
  let metadata := metadata.getD []
  let metadata := if e.summary = "" then metadata else metadata.set "summary" (.str e.summary)
  let metadata := if e.tags = [] then metadata else metadata.set "tags" (strings e.tags)
  let metadata := if e.llmMs = 0 then metadata else metadata.set "llm_ms" (.int e.llmMs)
  let metadata := if !e.containsPii then metadata else
    let metadata := metadata.set "contains_pii" (.bool true)
    if e.piiTypes = [] then metadata else metadata.set "pii_types" (strings e.piiTypes)
  let metadata := if e.retrievalHint = "" then metadata else
    metadata.set "retrieval_hint" (.str e.retrievalHint)
  metadata.pop "enrichment_pending"

/-- Each column is filled in when the row shows the default of the write path. -/
def inlinePatch (m : Memory V) (e : EnrichmentResult) : Patch V where
  memoryType := if m.memoryType = .fact then some (some e.memoryType) else none
  weight := if m.weight = some (1 / 2) then some (some e.weight) else none
  title := if e.title = "" then none else some (some e.title)
  metadata := some (some (e.inlineMetadata m.metadata))
  tsValidStart := if m.tsValidStart.isNone then e.tsValidStart.map some else none
  tsValidEnd := if m.tsValidEnd.isNone then e.tsValidEnd.map some else none

def inlineStatus (m : Memory V) (e : EnrichmentResult) : Option Status :=
  if m.status = .active then some e.status else none

def enrichMemoryBackground (t : Table V) (id : ℕ) (tenantId : String) (e : EnrichmentResult) :
    Table V :=
  match (t.get id).filter (·.live) with
  | none => t
  | some m =>
    match t.memoryUpdate id tenantId (inlinePatch m e) with
    | none => t
    | some (_, t') =>
      match inlineStatus m e with
      | none => t'
      | some status => t'.memoryUpdateStatus { id := id, tenantId := tenantId, status := status }

structure EnrichRequest where
  memoryId : ℕ
  tenantId : String
  content : String
  agentProvidedFields : Option (List Column)

/-- `metadata_patch`: a real answer overwrites all of its keys, the heuristic none. -/
def EnrichmentResult.metadataPatch (e : EnrichmentResult) : Dict :=
  ("enrichment_pending", .bool false) ::
    if e.llmMs = 0 then [] else
      [("summary", .str e.summary), ("tags", strings e.tags),
        ("contains_pii", .bool e.containsPii), ("pii_types", strings e.piiTypes),
        ("business_relevance", .str e.businessRelevance),
        ("retrieval_hint", .str e.retrievalHint), ("llm_ms", .int e.llmMs)]

/-- A bound of the validity interval; only a real answer clears one. -/
def EnrichmentResult.tsPatch (e : EnrichmentResult) (value : Option ℕ) : Option (Option ℕ) :=
  match value with
  | some t => some (some t)
  | none => if e.llmMs = 0 then none else some none

def buildPatch (e : EnrichmentResult) (agentProvidedFields : Option (List Column)) : Patch V :=
  let skip := agentProvidedFields.getD []
  { memoryType := if skip.contains .memoryType then none else some (some e.memoryType)
    weight := if skip.contains .weight then none else some (some e.weight)
    title := if e.title = "" then none else some (some e.title)
    status := if skip.contains .status then none else some (some e.status)
    tsValidStart := if skip.contains .tsValidStart then none else e.tsPatch e.tsValidStart
    tsValidEnd := if skip.contains .tsValidEnd then none else e.tsPatch e.tsValidEnd
    metadataPatch := some e.metadataPatch }

def handleEnrichRequest (t : Table V) (request : EnrichRequest) (e : EnrichmentResult) : Table V :=
  match t.memoryUpdate request.memoryId request.tenantId
      (buildPatch e request.agentProvidedFields) with
  | none => t
  | some (_, t') => t'

end Memclaw.Memories

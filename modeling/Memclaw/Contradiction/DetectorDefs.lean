import Mathlib.Data.Rat.Defs
import Memclaw.Lib.FixedWidthDefs

/-! The contradiction detector and the storage calls under it: the three candidate
queries, the three attribution loops with their merged row updates, and the
retraction of an earlier verdict. -/

namespace Memclaw.Contradiction

open Memclaw.Lib

inductive Status
  | active
  | pending
  | confirmed
  | cancelled
  | outdated
  | conflicted
  | archived
  | deleted
deriving DecidableEq

inductive Visibility
  | scopeAgent
  | scopeTeam
  | scopeOrg
deriving DecidableEq

inductive DtValue
  | none
  | datetime (t : ℤ)
  | text (s : String)
deriving DecidableEq

structure Memory where
  id : Uuid
  tenantId : String
  fleetId : Option String
  visibility : Visibility
  status : Status
  createdAt : DtValue
  supersedesId : Option Uuid
  subjectEntityId : Option String
  predicate : Option String
  objectValue : Option String
  deleted : Bool
deriving DecidableEq

/-- The rows of `memories`; the primary key keeps their ids distinct. -/
structure Store where
  rows : List Memory
  nodup : (rows.map (·.id)).Nodup

def Store.get (store : Store) (id : Uuid) : Option Memory := store.rows.find? (·.id = id)

def idText (id : Uuid) : String := String.ofList id.text

structure RowUpdate where
  memoryId : Uuid
  status : Status
  supersedesId : Option Uuid
deriving DecidableEq

def RowUpdate.mergeInto (row u : RowUpdate) : RowUpdate :=
  if u.memoryId = row.memoryId then ⟨u.memoryId, row.status, row.supersedesId <|> u.supersedesId⟩
  else u

def mergeStatusUpdate (acc : List RowUpdate) (row : RowUpdate) : List RowUpdate :=
  if acc.any (·.memoryId = row.memoryId) then acc.map row.mergeInto else acc ++ [row]

def Memory.updateStatus (tenantId : String) (u : RowUpdate) (m : Memory) : Memory :=
  if m.id = u.memoryId ∧ m.tenantId = tenantId then
    { m with status := u.status, supersedesId := u.supersedesId <|> m.supersedesId }
  else m

theorem Memory.updateStatus_id (tenantId : String) (u : RowUpdate) (m : Memory) :
    (m.updateStatus tenantId u).id = m.id := by
  unfold Memory.updateStatus
  split <;> rfl

def Store.map (store : Store) (f : Memory → Memory) (hf : ∀ m, (f m).id = m.id) : Store where
  rows := store.rows.map f
  nodup := by
    rw [List.map_map, show (fun m : Memory => m.id) ∘ f = (·.id) from funext hf]
    exact store.nodup

def Store.updateStatus (store : Store) (tenantId : String) (u : RowUpdate) : Store :=
  store.map (Memory.updateStatus tenantId u) (Memory.updateStatus_id tenantId u)

def Store.batchUpdateStatus (store : Store) (tenantId : String) (updates : List RowUpdate) : Store :=
  if tenantId = "" then store else updates.foldl (fun s u => s.updateStatus tenantId u) store

/-- The compare-and-set that clears an edge: the row keeps another edge it may have got. -/
def Memory.clearSupersedes (id : Uuid) (tenantId : String) (status : Status) (expected : Uuid)
    (m : Memory) : Memory :=
  if m.id = id ∧ m.tenantId = tenantId ∧ (m.supersedesId = some expected ∨ m.supersedesId = none) then
    { m with status := status, supersedesId := none }
  else m

theorem Memory.clearSupersedes_id (id : Uuid) (tenantId : String) (status : Status)
    (expected : Uuid) (m : Memory) :
    (m.clearSupersedes id tenantId status expected).id = m.id := by
  unfold Memory.clearSupersedes
  split <;> rfl

def Store.clearSupersedes (store : Store) (id : Uuid) (tenantId : String) (status : Status)
    (expected : Uuid) : Store :=
  store.map (Memory.clearSupersedes id tenantId status expected)
    (Memory.clearSupersedes_id id tenantId status expected)

/-- The parts of Python and of the database that the detector runs on: the ISO parser, the
two lower-casings, and the order in which a query returns the rows it found. -/
structure Runtime where
  fromIsoformat : String → Option ℤ
  lower : String → String
  sqlLower : String → String
  order : List Memory → List Memory
  order_perm : ∀ rows, (order rows).Perm rows

def parseDt (rt : Runtime) : DtValue → Option ℤ
  | .none => none
  | .datetime t => some t
  | .text s => rt.fromIsoformat (s.replace "Z" "+00:00")

def pickOlderIsLeft (rt : Runtime) (a b : Memory) : Bool :=
  match parseDt rt a.createdAt, parseDt rt b.createdAt with
  | some s, some t =>
    if s ≠ t then s < t else !(idText b.id < idText a.id)
  | _, _ => !(idText b.id < idText a.id)

def pickOlder (rt : Runtime) (a b : Memory) : Memory := if pickOlderIsLeft rt a b then a else b

structure LoopState where
  supersedesId : Option Uuid
  newMemoryIsOutdated : Bool
  updates : List RowUpdate

/-- One conflicting candidate of the RDF loop (`mark` is `outdated`) or of the semantic
loop (`mark` is `conflicted`). -/
def attributeConflict (rt : Runtime) (mark : Status) (newMemory : Memory) (st : LoopState)
    (candidate : Memory) : LoopState :=
  let older := pickOlder rt candidate newMemory
  let updates := mergeStatusUpdate st.updates ⟨older.id, mark, none⟩
  if older.id ≠ newMemory.id then
    -- canonical: the candidate is older
    if st.supersedesId.isNone then
      let target := if st.newMemoryIsOutdated then mark else newMemory.status
      { st with
        supersedesId := some older.id
        updates := mergeStatusUpdate updates ⟨newMemory.id, target, some older.id⟩ }
    else { st with updates }
  else
    -- flipped: the candidate is newer
    { st with
      newMemoryIsOutdated := true
      updates := if candidate.supersedesId.isSome then updates
        else mergeStatusUpdate updates ⟨candidate.id, candidate.status, some older.id⟩ }

def attributeAll (rt : Runtime) (mark : Status) (newMemory : Memory) (conflicts : List Memory) :
    List RowUpdate :=
  (conflicts.foldl (attributeConflict rt mark newMemory) ⟨newMemory.supersedesId, false, []⟩).updates

structure PathCState where
  found : Bool
  newMemoryIsOutdated : Bool
  updates : List RowUpdate

/-- One conflicting candidate of the entity-overlap loop. Only the first one writes an
edge, and on the canonical side that write asks for no edge to be absent. -/
def attributeByEntities (rt : Runtime) (newMemory : Memory) (st : PathCState)
    (candidate : Memory) : PathCState :=
  let older := pickOlder rt candidate newMemory
  let updates := mergeStatusUpdate st.updates ⟨older.id, .conflicted, none⟩
  if st.found then { st with updates }
  else if older.id ≠ newMemory.id then
    let target := if st.newMemoryIsOutdated then .conflicted else newMemory.status
    { st with
      found := true
      updates := mergeStatusUpdate updates ⟨newMemory.id, target, some older.id⟩ }
  else
    { found := true
      newMemoryIsOutdated := true
      updates := if candidate.supersedesId.isSome then updates
        else mergeStatusUpdate updates ⟨candidate.id, candidate.status, some older.id⟩ }

def attributeAllByEntities (rt : Runtime) (newMemory : Memory) (conflicts : List Memory) :
    List RowUpdate :=
  (conflicts.foldl (attributeByEntities rt newMemory) ⟨false, false, []⟩).updates

inductive JudgeResult
  | failed
  | verdict (contradicts : Bool) (confidence : ℚ)

def JudgeResult.isConflict : JudgeResult → Bool
  | failed => false
  | verdict contradicts _ => contradicts

inductive JudgeKind
  | base
  | entityAware
deriving DecidableEq

def liveStatus : Status → Bool
  | .active => true
  | .confirmed => true
  | .pending => true
  | _ => false

def truthyText (s : Option String) : Bool := s.any (· ≠ "")

/-- `fleet_id = :fleet_id` for a truthy id, else `fleet_id IS NULL`. -/
def sameFleetOrNull (fleetId : Option String) (m : Memory) : Bool :=
  if truthyText fleetId then m.fleetId = fleetId else m.fleetId.isNone

def rdfWhere (rt : Runtime) (newMemory m : Memory) : Bool :=
  m.tenantId = newMemory.tenantId && !m.deleted && liveStatus m.status &&
    m.subjectEntityId = newMemory.subjectEntityId &&
    m.predicate.map rt.sqlLower = newMemory.predicate.map rt.lower &&
    m.objectValue.any (fun v => some v ≠ newMemory.objectValue) && m.id ≠ newMemory.id &&
    sameFleetOrNull newMemory.fleetId m

def findRdfConflicts (rt : Runtime) (store : Store) (newMemory : Memory) : List Memory :=
  rt.order (store.rows.filter (rdfWhere rt newMemory))

def similarWhere (similar : Memory → Bool) (newMemory m : Memory) : Bool :=
  m.tenantId = newMemory.tenantId && !m.deleted && liveStatus m.status && similar m &&
    m.id ≠ newMemory.id && sameFleetOrNull newMemory.fleetId m &&
    m.visibility = newMemory.visibility

def findSimilarCandidates (rt : Runtime) (similar : Memory → Bool) (store : Store)
    (newMemory : Memory) : List Memory :=
  (rt.order (store.rows.filter (similarWhere similar newMemory))).take 20

/-- The `WHERE` of the entity-overlap query; `sharesEntity` tells the rows that share a
canonical entity name with the new one. -/
def overlapWhere (sharesEntity : Memory → Bool) (newMemory : Memory) (fleetId : Option String)
    (m : Memory) : Bool :=
  sharesEntity m && m.tenantId = newMemory.tenantId && m.id ≠ newMemory.id && !m.deleted &&
    liveStatus m.status && m.visibility = newMemory.visibility &&
    (!truthyText fleetId || m.fleetId = fleetId)

def findEntityOverlapCandidates (rt : Runtime) (sharesEntity : Memory → Bool) (store : Store)
    (newMemory : Memory) (fleetId : Option String) : List Memory :=
  (rt.order (store.rows.filter (overlapWhere sharesEntity newMemory fleetId))).take 8

def singleValuePredicates : List String := [
  "named", "name", "renamed_to", "status", "has_status", "current_status", "phase",
  "current_phase", "state", "current_state", "role", "has_role", "current_role", "title",
  "has_title", "job_title", "type", "has_type", "category", "classified_as", "identified_as",
  "labeled_as", "lives_in", "located_in", "is_located_in", "location", "current_location",
  "headquartered_in", "hq_in", "based_in", "is_based_in", "resides_in", "resides_at",
  "stationed_at", "hosted_on", "hosted_at", "is_hosted_on", "deployed_to", "deployed_at",
  "deployed_on", "is_deployed_to", "runs_on", "running_on", "stored_in", "stored_at",
  "registered_in", "registered_at", "country", "city", "region", "address", "reports_to",
  "reporting_to", "led_by", "owned_by", "managed_by", "manager", "manager_of", "headed_by",
  "head_of", "ceo_of", "ceo", "cto_of", "cto", "cfo_of", "cfo", "assigned_to", "assignee",
  "is_assigned_to", "maintained_by", "maintainer", "maintainer_of", "supervised_by",
  "supervisor", "score", "scored", "has_score", "rating", "rated", "has_rating", "price",
  "priced_at", "has_price", "current_price", "cost", "costs", "has_cost", "value", "valued_at",
  "has_value", "net_worth", "weight", "weighs", "has_weight", "market_cap", "has_market_cap",
  "market_cap_rank", "revenue", "has_revenue", "annual_revenue", "monthly_revenue", "salary",
  "has_salary", "compensation", "budget", "has_budget", "funding", "total_funding", "valuation",
  "has_valuation", "count", "count_of", "has_count", "total", "size", "has_size", "percentage",
  "percentage_of", "estimated_at", "estimate", "measured_at", "measurement", "ranked", "rank",
  "ranking", "has_rank", "potential_score", "risk_score", "quality_score", "health_score",
  "sentiment", "sentiment_score", "confidence", "confidence_score", "probability", "capacity",
  "has_capacity", "limit", "has_limit", "quota", "has_quota", "balance", "has_balance", "supply",
  "total_supply", "circulating_supply", "volume", "trading_volume", "liquidity", "all_time_high",
  "all_time_low", "burn_rate", "runway", "latency", "uptime", "availability", "accuracy",
  "precision", "recall_metric", "f1_score", "version", "has_version", "latest_version",
  "current_version", "running_version", "released_as", "replaced_by", "replaces", "succeeded_by",
  "succeeds", "upgraded_to", "upgraded_from", "migrated_to", "migrated_from", "chosen_over",
  "selected", "preferred", "switched_to", "switched_from", "deprecated_by", "deprecated",
  "scheduled_for", "scheduled_at", "rescheduled_to", "due_by", "due_date", "due_on", "starts_on",
  "start_date", "started_on", "started_at", "ends_on", "end_date", "ended_on", "ended_at",
  "expires_on", "expiry_date", "expiration", "deadline", "has_deadline", "eta", "has_eta",
  "expected_by", "next_review", "next_meeting", "next_milestone", "last_updated",
  "last_modified", "last_seen", "last_active", "created_on", "created_at", "target_date",
  "release_date", "go_live_date", "launch_date", "configured_as", "configuration", "set_to",
  "setting", "limited_to", "capped_at", "defaults_to", "default_value", "backed_by", "backend",
  "powered_by", "styled_with", "licensed_under", "license", "instance_of", "environment", "env",
  "tier", "subscription", "subscription_plan", "pricing_plan", "mode", "has_mode", "priority",
  "has_priority", "severity", "has_severity", "milestone", "has_milestone", "sprint",
  "has_sprint", "epic", "has_epic", "depends_on_completion_of", "hostname", "cluster",
  "namespace", "zone", "availability_zone", "email", "has_email", "email_address", "phone",
  "has_phone", "phone_number", "website", "has_website", "age", "has_age", "born_in",
  "birthdate", "date_of_birth", "married_to", "spouse", "employed_by", "employer",
  "work_location", "office"]

def rdfApplies (rt : Runtime) (m : Memory) : Bool :=
  truthyText m.subjectEntityId && truthyText m.predicate && truthyText m.objectValue &&
    m.predicate.any fun p => singleValuePredicates.contains (rt.lower p)

structure PathAInput where
  similar : Memory → Bool
  judge : Memory → JudgeResult

/-- `_detect`: the semantic path runs only when the RDF path found nothing. -/
def detect (rt : Runtime) (input : PathAInput) (store : Store) (newMemory : Memory) :
    List RowUpdate :=
  let rdfConflicts := if rdfApplies rt newMemory then findRdfConflicts rt store newMemory else []
  if rdfConflicts ≠ [] then attributeAll rt .outdated newMemory rdfConflicts
  else
    attributeAll rt .conflicted newMemory
      ((findSimilarCandidates rt input.similar store newMemory).filter
        fun c => (input.judge c).isConflict)

def detectContradictions (rt : Runtime) (input : PathAInput) (store : Store)
    (newMemory : Memory) : Store :=
  store.batchUpdateStatus newMemory.tenantId (detect rt input store newMemory)

structure EntityRef where
  role : Option String
  entityId : Option String
  id : Option String

def extractSubjectCanonicalIdentity (rt : Runtime) : List EntityRef → Option String
  | [] => none
  | e :: entities =>
    let entityId := if truthyText e.entityId then e.entityId else e.id
    if rt.lower (e.role.getD "") = "subject" && truthyText entityId then entityId
    else extractSubjectCanonicalIdentity rt entities

structure PathCInput where
  sharesEntity : Memory → Bool
  /-- The fetched entity contexts; nothing when the fetch failed or timed out. -/
  contexts : Option (Uuid → List EntityRef)
  judge : JudgeKind → Memory → JudgeResult

def subjectsDifferWithCertainty (left right : Option String) : Bool :=
  left.isSome && right.isSome && left ≠ right

/-- The contexts that the preflight and the judges see, unless too many are needed. -/
def pathCContexts (input : PathCInput) (newMemory : Memory) (candidates : List Memory) :
    Option (Uuid → List EntityRef) :=
  let fallthrough := candidates.filter fun c =>
    newMemory.subjectEntityId.isNone || c.subjectEntityId.isNone
  if 20 < fallthrough.length || 40 < candidates.length then none else input.contexts

def entityLinksKeep (rt : Runtime) (contexts : Uuid → List EntityRef) (newMemory c : Memory) : Bool :=
  match extractSubjectCanonicalIdentity rt (contexts newMemory.id) with
  | none => true
  | some newEid =>
    if newMemory.subjectEntityId.isSome && c.subjectEntityId.isSome then true
    else match extractSubjectCanonicalIdentity rt (contexts c.id) with
      | none => true
      | some eid => eid = newEid

def pathCConflicts (rt : Runtime) (input : PathCInput) (store : Store) (newMemory : Memory)
    (fleetId : Option String) : List Memory :=
  let found := findEntityOverlapCandidates rt input.sharesEntity store newMemory fleetId
  let candidates := found.filter fun c =>
    !subjectsDifferWithCertainty newMemory.subjectEntityId c.subjectEntityId
  match pathCContexts input newMemory candidates with
  | none => candidates.filter fun c => (input.judge .base c).isConflict
  | some contexts =>
    (candidates.filter (entityLinksKeep rt contexts newMemory)).filter fun c =>
      let kind := if (contexts newMemory.id).isEmpty || (contexts c.id).isEmpty then JudgeKind.base
        else .entityAware
      (input.judge kind c).isConflict

def detectByEntities (rt : Runtime) (input : PathCInput) (store : Store) (newMemory : Memory)
    (fleetId : Option String) : Store :=
  store.batchUpdateStatus newMemory.tenantId
    (attributeAllByEntities rt newMemory (pathCConflicts rt input store newMemory fleetId))

def retractionConfidenceThreshold : ℚ := 8106479329266893 / 9007199254740992

structure RetractionInput where
  retractionEnabled : Bool
  /-- The entity contexts; nothing when the fetch failed or timed out. -/
  contexts : Option (Uuid → List EntityRef)
  judge : Memory → JudgeResult

def retractionTarget (input : RetractionInput) (store : Store) (newMemory : Memory) :
    Option Memory :=
  if !input.retractionEnabled then none
  else match newMemory.supersedesId with
    | none => none
    | some targetId =>
      match store.get targetId, input.contexts with
      | some candidate, some contexts =>
        if candidate.deleted || candidate.status ≠ .conflicted then none
        else if (contexts newMemory.id).isEmpty || (contexts candidate.id).isEmpty then none
        else match input.judge candidate with
          | .failed => none
          | .verdict contradicts confidence =>
            if contradicts || confidence < retractionConfidenceThreshold then none
            else some candidate
      | _, _ => none

/-- The store after the retraction; nothing when it raises for a missing tenant. -/
def attemptPathCRetraction (input : RetractionInput) (store : Store) (newMemory : Memory) :
    Option Store :=
  match retractionTarget input store newMemory with
  | none => some store
  | some candidate =>
    if candidate.tenantId = "" ∨ newMemory.tenantId = "" then none
    else some <|
      (store.updateStatus candidate.tenantId ⟨candidate.id, .active, none⟩).clearSupersedes
        newMemory.id newMemory.tenantId newMemory.status candidate.id

def detectContradictionsAsync (rt : Runtime) (input : PathAInput) (store : Store) (memoryId : Uuid) :
    Store :=
  match store.get memoryId with
  | some newMemory => if newMemory.deleted then store else detectContradictions rt input store newMemory
  | none => store

/-- `detect_contradictions_by_entities_async` for a stored memory: the retraction, then
the detection on the refreshed row. -/
def detectContradictionsByEntitiesAsync (rt : Runtime) (retraction : RetractionInput)
    (input : PathCInput) (store : Store) (memoryId : Uuid) (fleetId : Option String) : Store :=
  match store.get memoryId with
  | some newMemory =>
    if newMemory.deleted then store
    else match attemptPathCRetraction retraction store newMemory with
      | none => store
      | some store' =>
        detectByEntities rt input store' ((store'.get memoryId).getD newMemory) fleetId
  | none => store

end Memclaw.Contradiction

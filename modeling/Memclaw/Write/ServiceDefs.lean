import Memclaw.Lib.FixedWidthDefs
import Memclaw.Lib.JsonDefs
import Memclaw.Lib.Sha256
import Memclaw.Write.TableDefs

/-! The writers of memories: single writes in both modes, auto-chunking, the fan-out of
atomic facts, content updates and bulk writes. Language models, embeddings and the
content policy enter as inputs. -/

namespace Memclaw.Write

open Memclaw.Lib

def contentHash (tenantId : String) (fleetId : Option String) (content : String) : String :=
  Sha256.hexdigest (Sha256.sha256 (encodeUtf8
    (tenantId ++ ":" ++ fleetId.getD "" ++ ":" ++ content).toList))

/-- The deterministic policy scan: the content as it is, masked, or refused. -/
inductive Governance
  | pass
  | mask (content : String)
  | drop

/-- What the writers take from outside the table: the white space of `str.strip`, the
policy of each tenant and the order in which a query returns rows. -/
structure WriteEnv where
  isSpace : Char → Bool
  govern : (tenantId : String) → (content : String) → Governance
  order : List Row → List Row
  order_perm : ∀ rows, (order rows).Perm rows

def plainEnv : WriteEnv := ⟨(· = ' '), fun _ _ => .pass, fun rows => rows, fun _ => .rfl⟩

def strip (env : WriteEnv) (content : String) : List Char :=
  ((content.toList.dropWhile env.isSpace).reverse.dropWhile env.isSpace).reverse

def crystallizerShortContentChars : ℕ := 10

inductive Screened
  | short
  | dropped
  | kept (content : String)
deriving DecidableEq

def screen (env : WriteEnv) (tenantId content : String) : Screened :=
  if (strip env content).length < crystallizerShortContentChars then .short
  else match env.govern tenantId content with
    | .pass => .kept content
    | .mask masked => .kept masked
    | .drop => .dropped

inductive Response
  | created (id : ℕ)
  | updated (id : ℕ)
  | conflict (id : ℕ)
  | nearDuplicate
  | unprocessable
  | notFound
  | serverError
deriving DecidableEq

inductive WriteMode
  | fast
  | strong
deriving DecidableEq

structure Fact where
  content : String
  requestId : Uuid

/-- A write request, the tenant's setting for it and what the models answer: whether the
policy on free-form content refuses it, whether it is a near duplicate, and the facts it
falls into. -/
structure WriteRequest where
  tenantId : String
  fleetId : Option String
  agentId : String
  content : String
  mode : WriteMode
  autoChunkEnabled : Bool
  policyRefuses : Bool
  nearDuplicate : Bool
  facts : List Fact

def WriteRequest.row (req : WriteRequest) (content : String) : NewRow where
  tenantId := req.tenantId
  fleetId := req.fleetId
  agentId := req.agentId
  content := content
  contentHash := contentHash req.tenantId req.fleetId content
  clientRequestId := none

def autoChunkRequestId (id : Uuid) : String := "auto-chunk:" ++ String.ofList id.text

def WriteRequest.childRow (req : WriteRequest) (fact : Fact) : NewRow :=
  { req.row fact.content with clientRequestId := some (autoChunkRequestId fact.requestId) }

def Table.memoryAdd (t : Table) (n : NewRow) : Table × Response :=
  match t.insert n with
  | some t' => (t', .created t.nextId)
  | none => (t, .serverError)

def persist (mode : WriteMode) (t : Table) (req : WriteRequest) (content : String) :
    Table × Response :=
  let n := req.row content
  match t.findByContentHash n.tenantId n.contentHash n.fleetId (some n.agentId) with
  | .multiple => (t, .serverError)
  | .one r => (t, .conflict r.id)
  | .none =>
    if mode = .strong ∧ req.nearDuplicate then (t, .nearDuplicate) else t.memoryAdd n

/-- The auto-chunk branch: the parent and its children are written without a lookup. With
at most one fact the persist steps run. -/
def handleAutoChunk (t : Table) (req : WriteRequest) (content : String) : Table × Response :=
  if 1 < req.facts.length then
    match t.insert (req.row content) with
    | none => (t, .serverError)
    | some t' =>
      match t'.memoryAddAll (req.facts.map req.childRow) with
      | none => (t', .serverError)
      | some added => (added.1, .created t.nextId)
  else persist .strong t req content

def chunkingThresholdChars : ℕ := 2000

def createMemory (env : WriteEnv) (t : Table) (req : WriteRequest) : Table × Response :=
  match screen env req.tenantId req.content with
  | .short => (t, .unprocessable)
  | .dropped => (t, .unprocessable)
  | .kept content =>
    if chunkingThresholdChars < req.content.length ∧ req.autoChunkEnabled then
      handleAutoChunk t req content
    else if req.policyRefuses then (t, .unprocessable)
    else persist req.mode t req content

def factRow (tenantId : String) (fleetId : Option String) (agentId fact : String) : NewRow where
  tenantId := tenantId
  fleetId := fleetId
  agentId := agentId
  content := fact
  contentHash := contentHash tenantId fleetId fact
  clientRequestId := none

/-- The fan-out of atomic facts in the background, for the facts that could be embedded. -/
def fanOut (t : Table) (tenantId : String) (fleetId : Option String) (agentId : String) :
    List String → Table
  | [] => t
  | fact :: facts =>
    fanOut ((t.insert (factRow tenantId fleetId agentId fact)).getD t) tenantId fleetId agentId facts

/-- `update_memory` with a content. Its duplicate lookup gets neither the fleet nor the
agent of the row. -/
def updateMemory (t : Table) (id : ℕ) (tenantId content : String) (nearDuplicate : Bool) :
    Table × Response :=
  match t.live.find? (fun r => r.id = id && r.tenantId = tenantId) with
  | none => (t, .notFound)
  | some mem =>
    if content = mem.content then (t, .updated id)
    else
      let newHash := contentHash tenantId mem.fleetId content
      match t.findDuplicateHash tenantId newHash none (some id) none with
      | .multiple => (t, .serverError)
      | .one r => (t, .conflict r.id)
      | .none =>
        if nearDuplicate then (t, .nearDuplicate)
        else (t.setContent id tenantId content newHash, .updated id)

structure BulkRequest where
  tenantId : String
  fleetId : Option String
  agentId : String
  items : List String
deriving DecidableEq

inductive ItemStatus
  | created
  | duplicateAttempt
  | duplicateContent
  | error
deriving DecidableEq

structure BulkItemResult where
  index : ℕ
  clientRequestId : String
  status : ItemStatus
  id : Option ℕ
  duplicateOf : Option ℕ
  error : Option String
deriving DecidableEq

def itemRequestId (bulkAttemptId : String) (i : ℕ) : String := bulkAttemptId ++ ":" ++ toString i

/-- The content that an item is hashed with: a masked one where the policy masks. -/
def Screened.hashed (content : String) : Screened → String
  | .kept screened => screened
  | _ => content

def bulkHashes (env : WriteEnv) (req : BulkRequest) : List String :=
  req.items.map fun content =>
    contentHash req.tenantId req.fleetId ((screen env req.tenantId content).hashed content)

def bulkLookup (env : WriteEnv) (t : Table) (req : BulkRequest) : List (String × Existing) :=
  if bulkHashes env req = [] then []
  else t.bulkFindByContentHashes env.order req.tenantId (bulkHashes env req) req.fleetId
    (some req.agentId)

/-- What the first loop decides about an item. -/
inductive Slot
  | done (result : BulkItemResult)
  | queued (row : NewRow)
  /-- The content is that of an earlier item of the batch, at this index. -/
  | repeated (first : ℕ)

def itemRow (req : BulkRequest) (bulkAttemptId : String) (i : ℕ) (content : String) : NewRow where
  tenantId := req.tenantId
  fleetId := req.fleetId
  agentId := req.agentId
  content := content
  contentHash := contentHash req.tenantId req.fleetId content
  clientRequestId := some (itemRequestId bulkAttemptId i)

def slotOf (req : BulkRequest) (bulkAttemptId : String) (existing : List (String × Existing))
    (seen : List (String × ℕ)) (i : ℕ) (item : Screened) : Slot :=
  let requestId := itemRequestId bulkAttemptId i
  match item with
  | .short =>
    .done ⟨i, requestId, .error, none, none, some "content too short (minimum 10 characters)"⟩
  | .dropped =>
    .done ⟨i, requestId, .error, none, none, some "rejected by content policy: sensitive data detected"⟩
  | .kept content =>
    let n := itemRow req bulkAttemptId i content
    match dictGet existing n.contentHash with
    | some found =>
      if found.clientRequestId = some requestId then
        .done ⟨i, requestId, .duplicateAttempt, some found.id, none, none⟩
      else .done ⟨i, requestId, .duplicateContent, some found.id, some found.id, none⟩
    | none =>
      match seen.find? (·.1 = n.contentHash) with
      | some entry => .repeated entry.2
      | none => .queued n

def Slot.seen (i : ℕ) : Slot → List (String × ℕ)
  | .queued n => [(n.contentHash, i)]
  | _ => []

def slots (req : BulkRequest) (bulkAttemptId : String) (existing : List (String × Existing)) :
    ℕ → List (String × ℕ) → List Screened → List Slot
  | _, _, [] => []
  | i, seen, item :: items =>
    let slot := slotOf req bulkAttemptId existing seen i item
    slot :: slots req bulkAttemptId existing (i + 1) (seen ++ slot.seen i) items

def Slot.pending : Slot → Option NewRow
  | .queued n => some n
  | _ => none

def resolveQueued (results : List StorageResult) (i : ℕ) (n : NewRow) : BulkItemResult :=
  let requestId := n.clientRequestId.getD ""
  match results.find? (·.clientRequestId = n.clientRequestId) with
  | some ⟨_, some id, true⟩ => ⟨i, requestId, .created, some id, none, none⟩
  | some ⟨_, some id, false⟩ => ⟨i, requestId, .duplicateAttempt, some id, none, none⟩
  | _ => ⟨i, requestId, .error, none, none, some "storage did not return an id for this item"⟩

def resolve (results : List StorageResult) (bulkAttemptId : String) (all : List Slot) (i : ℕ) :
    Slot → BulkItemResult
  | .done result => result
  | .queued n => resolveQueued results i n
  | .repeated first =>
    let requestId := itemRequestId bulkAttemptId i
    let canonical := match all[first]? with
      | some (.queued n) => (resolveQueued results first n).id
      | _ => none
    match canonical with
    | some id => ⟨i, requestId, .duplicateContent, some id, some id, none⟩
    | none => ⟨i, requestId, .error, none, none,
        some "canonical row for intra-batch duplicate did not persist"⟩

def bulkSlots (env : WriteEnv) (req : BulkRequest) (bulkAttemptId : String)
    (existing : List (String × Existing)) : List Slot :=
  slots req bulkAttemptId existing 0 [] (req.items.map (screen env req.tenantId))

def pendingRows (env : WriteEnv) (req : BulkRequest) (bulkAttemptId : String)
    (existing : List (String × Existing)) : List NewRow :=
  (bulkSlots env req bulkAttemptId existing).filterMap Slot.pending

/-- The insert of a bulk write whose lookup found `existing`; nothing when storage raises. -/
def bulkCommit (env : WriteEnv) (t : Table) (req : BulkRequest) (bulkAttemptId : String)
    (existing : List (String × Existing)) : Option (Table × List BulkItemResult) :=
  match t.memoryAddAll (pendingRows env req bulkAttemptId existing) with
  | none => none
  | some added => some (added.1, (bulkSlots env req bulkAttemptId existing).mapIdx
      (resolve added.2 bulkAttemptId (bulkSlots env req bulkAttemptId existing)))

def createMemoriesBulk (env : WriteEnv) (t : Table) (req : BulkRequest) (bulkAttemptId : String) :
    Option (Table × List BulkItemResult) :=
  bulkCommit env t req bulkAttemptId (bulkLookup env t req)

end Memclaw.Write

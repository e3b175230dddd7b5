import Memclaw.Skills.RouteDefs

/-! The workers of the skill factory, the promoter and Forge, and the parties that write
skills together. -/

namespace Memclaw.Skills

open Memclaw.Lib Memclaw.Lib.Interleave Memclaw.Api

/-- `int(j)`; nothing where it raises. A JSONB column holds no infinity. -/
def pyInt (env : SkillEnv) : Json → Option Int
  | .int i => some i
  | .bool b => some (if b then 1 else 0)
  | .float (.finite x) => some x.toInt
  | .str s => env.intOfText s
  | _ => none

def scanIsClean (env : SkillEnv) (doc : Dict) : Bool :=
  match (Dict.get doc "scan").orEmpty with
  | none => false
  | some scan =>
    match pyInt env ((Dict.find scan "critical").getD (.int 0)) with
    | none => false
    | some critical => (Dict.get scan "state").isStr ScanState.clean.name && critical = 0

structure PromotionAttempt where
  docId : String
  promoted : Bool
  gates : AutoGateResult
  targetStatus : Option Status := none

structure TickConfig extends GateConfig where
  fleetId : Option String
  autoPromoteClean : Bool
  limit : ℕ
  now : Int

def promoteOne (env : SkillEnv) (cfg : TickConfig) (row : Row) : Handler PromotionAttempt := do
  let gates ← evaluateAutoGates env cfg.toGateConfig cfg.now row.fleetId row.data
  if gates.promote then
    let target : Status := if cfg.autoPromoteClean && scanIsClean env row.data then .active else .staged
    .call (.updateDocumentStatus row.docId target .candidate) fun a => match a with
      | .ok true => .done ⟨row.docId, true, gates, some target⟩
      -- a concurrent writer moved the row, or the call failed
      | _ => .done ⟨row.docId, false, gates, none⟩
  else .done ⟨row.docId, false, gates, none⟩

def promoteEach (env : SkillEnv) (cfg : TickConfig) : List Row → Handler (List PromotionAttempt)
  | [] => .done []
  | row :: rows => do
    let attempt ← promoteOne env cfg row
    let attempts ← promoteEach env cfg rows
    .done (attempt :: attempts)

structure PromoterRunResult where
  scanned : ℕ
  promoted : ℕ
  held : ℕ
  autoApproved : ℕ
  attempts : List PromotionAttempt

def PromoterRunResult.of (attempts : List PromotionAttempt) : PromoterRunResult where
  scanned := attempts.length
  promoted := attempts.countP (·.promoted)
  held := attempts.length - attempts.countP (·.promoted)
  autoApproved := attempts.countP fun a => a.targetStatus = some .active
  attempts := attempts

def promotePendingCandidates (env : SkillEnv) (cfg : TickConfig) : Handler PromoterRunResult :=
  .call (.queryDocuments ⟨cfg.fleetId, [("status", "candidate"), ("source", "forge")], .createdAt,
      cfg.limit⟩) fun a => match a with
    | .error _ => .raise serverError
    | .ok rows => do
      let attempts ← promoteEach env cfg rows
      .done (.of attempts)

/-- What Forge knows of a cluster: the parsed answer of the model, the fingerprint computed
from it, and the provenance of the traces. -/
structure Distilled where
  kind : String
  name : String
  slug : String
  description : String
  summary : String
  domain : String
  tags : List String
  content : String
  goal : String
  evidence : String
  fingerprint : String
  cites : List String
  clusterSize : ℕ
  distinctAgents : ℕ
  nowIso : String
  scannedAt : String

inductive Mined
  | distilled (d : Distilled)
  | parseError
  | ioError

structure ForgeConfig where
  caps : Caps
  maxWritesPerRun : Int
  fleetId : Option String
  runLabel : String
  windowEnd : String

def Distilled.data (cfg : ForgeConfig) (d : Distilled) : Dict :=
  [("name", .str d.name), ("slug", .str d.slug), ("version", .str "v1"), ("kind", .str d.kind),
    ("source", .str "forge"), ("status", Status.candidate.json), ("description", .str d.description),
    ("summary", .str d.summary), ("domain", .str d.domain), ("tags", .arr (d.tags.map .str)),
    ("content", .str d.content), ("content_hash", .str (contentHash d.content)),
    ("cites", .arr (d.cites.map .str)), ("goal", .str d.goal), ("evidence", .str d.evidence),
    ("cluster_fingerprint", .str d.fingerprint),
    ("origin", .obj [("agent_id", .str "forge"), ("session_key", .null), ("run_id", .str cfg.runLabel),
      ("message_id", .null), ("cluster_size", .int d.clusterSize),
      ("distinct_agents", .int d.distinctAgents), ("window_end", .str cfg.windowEnd)]),
    ("created_at", .str d.nowIso), ("updated_at", .str d.nowIso),
    ("telemetry", .obj [("fires_total", .int 0), ("fires_success", .int 0), ("fires_failure", .int 0),
      ("last_fired_at", .null), ("utilization_30d", .null)])]

def Distilled.docId (d : Distilled) : String := "forge/" ++ d.slug

def Distilled.stamped (cfg : ForgeConfig) (d : Distilled) (scan : ScanResult) : Dict :=
  let data := Dict.set (d.data cfg) "scan" scan.asDocField
  if scan.state = .quarantined then
    Dict.set (Dict.set data "status" Status.quarantined.json) "quarantined_at" (.str d.nowIso)
  else data

inductive Disposition
  | written (docId : String)
  | poisoned
  | sentinel
  | distillError
  | ioError
  | existing
deriving DecidableEq

def writeCandidate (env : SkillEnv) (cfg : ForgeConfig) (d : Distilled) (data : Dict) :
    Handler Disposition :=
  .call (.getDocument (env.pathId (.str d.docId))) fun a => match a with
    | .error _ => .done .ioError
    | .ok found =>
      let status := (found.map Row.status).getD .null
      if !status.isNull && !status.isStr Status.candidate.name then .done .existing
      else
        .call (.upsertDocument ⟨d.docId, cfg.fleetId, data, cfg.caps, [none, some .candidate]⟩)
          fun a => match a with
            | .ok _ => .done (.written d.docId)
            | .error _ => .done .ioError

def forgeCluster (env : SkillEnv) (cfg : ForgeConfig) : Mined → Handler Disposition
  | .parseError => .done .distillError
  | .ioError => .done .ioError
  | .distilled d =>
    if d.kind ≠ "create" then .done .distillError
    else
      .call (.isFingerprintPoisoned cfg.fleetId d.fingerprint) fun a => match a with
        | .error _ => .done .ioError
        | .ok true => .done .poisoned
        | .ok false =>
          match scanSkillDoc env.toTextEnv cfg.caps d.scannedAt (d.data cfg) with
          | none => .done .ioError
          | some scan =>
            if scan.anyFatal then .done .sentinel else writeCandidate env cfg d (d.stamped cfg scan)

def forgeEach (env : SkillEnv) (cfg : ForgeConfig) : List Mined → Handler (List Disposition)
  | [] => .done []
  | m :: rest => do
    let here ← forgeCluster env cfg m
    let later ← forgeEach env cfg rest
    .done (here :: later)

def sliceTo {α : Type} (items : List α) (stop : Int) : List α :=
  items.take (if 0 ≤ stop then stop.toNat else items.length - stop.natAbs)

def runForgeDistill (env : SkillEnv) (cfg : ForgeConfig) (eligible : List Mined) :
    Handler (List Disposition) :=
  forgeEach env cfg (sliceTo eligible cfg.maxWritesPerRun)

inductive Party
  | post (req : DocWriteRequest)
  | approve (req : InboxRequest)
  | reject (req : RejectRequest)
  | quarantine (req : QuarantineRequest)
  | defer (req : DeferRequest)
  | edit (req : EditRequest)
  | tick (cfg : TickConfig)
  | forge (cfg : ForgeConfig) (eligible : List Mined)

inductive Outcome
  | document (out : DocOut)
  | action (response : ActionResponse)
  | promoted (result : PromoterRunResult)
  | mined (dispositions : List Disposition)

def Party.handler (env : SkillEnv) : Party → Handler Outcome
  | .post req => .document <$> upsertDocument env req
  | .approve req => .action <$> Skills.approve env req
  | .reject req => .action <$> Skills.reject env req
  | .quarantine req => .action <$> Skills.quarantine env req
  | .defer req => .action <$> Skills.defer env req
  | .edit req => .action <$> Skills.edit env req
  | .tick cfg => .promoted <$> promotePendingCandidates env cfg
  | .forge cfg eligible => .mined <$> runForgeDistill env cfg eligible

def start {ι : Type} (env : SkillEnv) (parties : ι → Party) (s : Store) : Pool ι Store (Handler Outcome) :=
  ⟨s, fun i => (parties i).handler env⟩

def step {ι : Type} [DecidableEq ι] (db : DbEnv) :
    Pool ι Store (Handler Outcome) → ι × Surroundings → Pool ι Store (Handler Outcome) :=
  Pool.step (Prog.turn (serve db))

end Memclaw.Skills

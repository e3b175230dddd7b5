import Memclaw.Skills.StoreDefs

/-! The skill lifecycle service: the validator in front of every skill write and the gates
in front of a promotion. -/

namespace Memclaw.Skills

open Memclaw.Lib Memclaw.Lib.Interleave Memclaw.Api Memclaw.Lib.Sha256

structure SkillEnv extends TextEnv where
  /-- `datetime.fromisoformat` with `Z` for `+00:00`, in microseconds. -/
  fromisoformat : String → Option Int
  /-- Microseconds as days with one digit behind the point. -/
  formatDays : Int → String
  /-- `int(text)`. -/
  intOfText : String → Option Int
  /-- The document id that the storage route reads from the path of a request for `doc_id`. -/
  pathId : Json → String

def SkillEnv.ascii : SkillEnv where
  toTextEnv := TextEnv.ascii
  fromisoformat _ := none
  formatDays _ := ""
  intOfText _ := none
  pathId j := (j.asStr).getD ""

def SkillEnv.reprJson (env : SkillEnv) (j : Json) : String := String.ofList (j.pyRepr env.printable)

def SkillEnv.reprList (env : SkillEnv) (texts : List String) : String :=
  env.reprJson (.arr (texts.map .str))

-- In sorted order, as the messages print them.
def allowedSources : List String := ["agent", "forge", "imported", "manual"]
def allowedKinds : List String := ["create", "update"]
def allowedStatuses : List String :=
  ["active", "candidate", "deprecated", "quarantined", "rejected", "staged", "stale"]

def systemOnlyStatuses : List Status := [.quarantined, .rejected, .stale, .deprecated]

def requiredTopLevelKeys : List String := ["description", "domain", "kind", "name", "slug", "source"]

def slugRe : Pattern := ⟨r"^[a-z0-9][a-z0-9._-]{0,99}$", .none⟩

structure SkillWriteContext where
  callerAgentId : Option String
  isAdmin : Bool
  isInternalForge : Bool
  caps : Caps
  isInboxEdit : Bool

def contentHash (text : String) : String := "sha256:" ++ hexdigest (sha256 (encodeUtf8 text.toList))

abbrev Checked := Except HTTPException

def refuse {α : Type} (statusCode : ℕ) (detail : String) : Checked α :=
  .error ⟨statusCode, "skills write" ++ detail⟩

def refuseIf (condition : Bool) (statusCode : ℕ) (detail : String) : Checked Unit :=
  if condition then refuse statusCode detail else .ok ()

def checkKeys (env : SkillEnv) (out : Dict) : Checked Unit :=
  let missing := requiredTopLevelKeys.filter fun key => !Dict.has out key
  if !missing.isEmpty then
    refuse 422 (" missing required key(s): " ++ env.reprList missing ++ ". All of " ++
      env.reprList requiredTopLevelKeys ++ " must be present.")
  else match ["name", "slug", "description", "domain"].find? fun key => (Dict.get out key).asStr.isNone with
    | some key => refuse 422 (": data['" ++ key ++ "'] must be a string.")
    | none => .ok ()

def checkEnum (env : SkillEnv) (key : String) (allowed : List String) (value : Json) : Checked Unit :=
  match value.inSet allowed with
  | none => .error serverError
  | some true => .ok ()
  | some false =>
    refuse 422 (": data['" ++ key ++ "'] must be one of " ++ env.reprList allowed ++ ", got " ++
      env.reprJson value ++ ".")

def checkSchema (env : SkillEnv) (out : Dict) : Checked Unit := do
  checkKeys env out
  let slug := (Dict.get out "slug").asStr.getD ""
  refuseIf (!slugRe.fullmatches env.chars slug.toList) 422
    (": data['slug'] must match " ++ slugRe.source ++ " — got " ++ env.repr slug ++ ".")
  checkEnum env "kind" allowedKinds (Dict.get out "kind")
  checkEnum env "source" allowedSources (Dict.get out "source")
  match Dict.find out "tags" with
  | some (.arr tags) =>
    refuseIf (!tags.all fun tag => tag.asStr.isSome) 422
      ": data['tags'] must be a list of strings if present."
  | some _ => refuse 422 ": data['tags'] must be a list of strings if present."
  | none => .ok ()

def checkSource (env : SkillEnv) (ctx : SkillWriteContext) (src : Json) : Checked Unit :=
  if ctx.isInboxEdit then .ok ()
  else if src.isStr "forge" && !ctx.isInternalForge then
    refuse 403 (": source=" ++ env.reprJson src ++ " is reserved for the internal Forge worker. " ++
      "Regular agent and admin callers cannot mint source=forge directly.")
  else if src.isStr "manual" && !ctx.isAdmin then
    refuse 403 (": source=" ++ env.reprJson src ++ " requires admin role. " ++
      "Use source='agent' for a regular agent-direct write.")
  else .ok ()

def withStatus (ctx : SkillWriteContext) (out : Dict) : Dict :=
  if Dict.has out "status" then out
  else Dict.set out "status" (if ctx.isInternalForge then Status.candidate.json else Status.staged.json)

def checkStatus (env : SkillEnv) (ctx : SkillWriteContext) (status : Json) : Checked Unit := do
  checkEnum env "status" allowedStatuses status
  refuseIf (status.isStr Status.candidate.name && !ctx.isInternalForge) 403
    (": status=" ++ env.reprJson status ++ " is reserved for the internal Forge worker.")
  refuseIf (status.isStr Status.active.name && !ctx.isAdmin) 403
    (": status=" ++ env.reprJson status ++ " requires admin role. " ++
      "Use HITL Inbox approval to transition staged → active.")
  refuseIf (systemOnlyStatuses.any fun system => status.isStr system.name) 403
    (": status=" ++ env.reprJson status ++ " is system-managed and cannot be " ++
      "written directly. These transitions happen via Sentinel " ++
      "scan / Inbox Reject / hash-binding stale detection / " ++
      "deprecation flow — not via memclaw_doc.")

def bytesOrError (env : SkillEnv) (value : Json) : Checked ℕ :=
  (utf8Len env.toTextEnv value).elim (.error serverError) .ok

def checkCaps (env : SkillEnv) (ctx : SkillWriteContext) (out : Dict) : Checked Unit := do
  let descBytes ← bytesOrError env (Dict.get out "description")
  refuseIf (ctx.caps.descriptionMaxBytes < descBytes) 422
    (": data['description'] is " ++ toString descBytes ++ " bytes; cap is " ++
      toString ctx.caps.descriptionMaxBytes ++
      " (configurable via org_settings.skills_factory.description_max_bytes).")
  match Dict.get out "content" with
  | .null =>
    refuseIf (!(Dict.get out "source").isStr "imported") 422
      (": data['content'] is required when source=" ++ env.reprJson (Dict.get out "source") ++
        ". Only source='imported' may omit the content body.")
  | .str content =>
    let bodyBytes ← bytesOrError env (.str content)
    refuseIf (ctx.caps.bodyMaxBytes < bodyBytes) 422
      (": data['content'] is " ++ toString bodyBytes ++ " bytes; cap is " ++
        toString ctx.caps.bodyMaxBytes ++
        " (configurable via org_settings.skills_factory.body_max_bytes).")
  | _ => refuse 422 ": data['content'] must be a string if present."

def fillServerFields (ctx : SkillWriteContext) (now : String) (out : Dict) : Checked Dict := do
  let out := if Dict.has out "created_at" then out else Dict.set out "created_at" (.str now)
  let out := Dict.set out "updated_at" (.str now)
  let out := match Dict.get out "content" with
    | .str content => Dict.set out "content_hash" (.str (contentHash content))
    | _ => out
  let origin := Dict.get out "origin"
  match (if origin.truthy then origin.toDict else some []) with
  | none => .error serverError
  | some origin =>
    -- an empty agent id is no agent id
    let agentId := match ctx.callerAgentId with
      | some id => if id = "" then "unknown" else id
      | none => "unknown"
    .ok (Dict.set out "origin" (.obj (Dict.set origin "agent_id" (.str agentId))))

/-- Adjustment 7a: an update is bound to the content of the live document. -/
def checkBinding (env : SkillEnv) (live : Option Row) (out : Dict) : Checked Unit :=
  if !(Dict.get out "kind").isStr "update" then .ok ()
  else
    let slug := env.reprJson (Dict.get out "slug")
    match (Dict.get out "target").asDict.bind fun target => Dict.find target "target_content_hash" with
    | none => refuse 422 ": kind='update' requires data['target']['target_content_hash']."
    | some seen =>
      match live with
      | none => refuse 404 (": kind='update' targets slug=" ++ slug ++ " but no live skill exists.")
      | some row =>
        let liveHash := Dict.get row.data "content_hash"
        if liveHash.isNull then
          refuse 409 (": kind='update' on slug=" ++ slug ++ " cannot bind — " ++
            "the live skill has no content_hash (likely an imported pointer-only doc). " ++
            "Re-author it as a fresh kind='create' if appropriate.")
        else if !seen.pyEq liveHash then
          refuse 409 (": target_content_hash mismatch for slug=" ++ slug ++ ". Caller saw " ++
            env.reprJson seen ++ "; live is " ++ env.reprJson liveHash ++
            ". Live skill changed between propose and write — re-revise the proposal.")
        else .ok ()

/-- Adjustment 7b: the scan refuses, quarantines or passes the document, and is stamped on
it. -/
def stampScan (env : SkillEnv) (ctx : SkillWriteContext) (now scannedAt : String) (out : Dict) :
    Checked (Dict × ScanResult) :=
  match scanSkillDoc env.toTextEnv ctx.caps scannedAt out with
  | none => .error serverError
  | some scan =>
    match scan.findings.find? ScanFinding.fatal with
    | some first => refuse 422 (": " ++ first.code ++ " — " ++ first.message)
    | none =>
      let out := if scan.state = .quarantined then
          Dict.set (Dict.set out "status" Status.quarantined.json) "quarantined_at" (.str now)
        else out
      .ok (Dict.set out "scan" scan.asDocField, scan)

def validateAndNormalizeSkillWrite (env : SkillEnv) (ctx : SkillWriteContext) (now scannedAt : String)
    (data : Dict) (live : Option Row) : Checked (Dict × ScanResult) := do
  checkSchema env data
  checkSource env ctx (Dict.get data "source")
  let out := withStatus ctx data
  checkStatus env ctx (Dict.get out "status")
  checkCaps env ctx out
  let out ← fillServerFields ctx now out
  checkBinding env live out
  stampScan env ctx now scannedAt out

structure GateOutcome where
  name : String
  passed : Bool
  reason : String := ""
deriving DecidableEq

structure AutoGateResult where
  promote : Bool
  gates : List GateOutcome
deriving DecidableEq

structure GateConfig where
  minClusterSize : Int
  minDistinctAgents : Int
  freshnessWindowDays : Int

/-- A bool passes for an int and keeps its own text. -/
def countText (count : Json) : String :=
  match count with
  | .bool true => "True"
  | .bool false => "False"
  | .int n => toString n
  | _ => ""

def countGate (gate field minimum : String) (least : Int) (origin : Dict) : GateOutcome :=
  match (Dict.get origin field).asInt with
  | none => { name := gate, passed := false, reason := "missing origin." ++ field }
  | some n =>
    if n < least then
      { name := gate
        passed := false
        reason := field ++ "=" ++ countText (Dict.get origin field) ++ " < " ++ minimum ++ "=" ++ toString least }
    else { name := gate, passed := true }

def freshnessGate (env : SkillEnv) (now windowDays : Int) (origin : Dict) : GateOutcome :=
  match (Dict.get origin "window_end").asStr.bind env.fromisoformat with
  | none => { name := "freshness", passed := false, reason := "missing/unparseable origin.window_end" }
  | some windowEnd =>
    if microsPerDay * windowDays < now - windowEnd then
      { name := "freshness"
        passed := false
        reason := "window_end is " ++ env.formatDays (now - windowEnd) ++ "d old (> " ++
          toString windowDays ++ "d)" }
    else { name := "freshness", passed := true }

def poisonGate (fleetId : Option String) (doc : Dict) : Handler GateOutcome :=
  match Dict.get doc "cluster_fingerprint" with
  | .str fingerprint =>
    if fingerprint = "" then
      .done { name := "poison", passed := false, reason := "missing fingerprint" }
    else
      .call (.isFingerprintPoisoned fleetId fingerprint) fun a => match a with
        | .error name =>
          .done { name := "poison", passed := false, reason := "poison_checker raised: " ++ name }
        | .ok true =>
          .done { name := "poison"
                  passed := false
                  reason := "fingerprint " ++ fingerprint ++ " is poisoned" }
        | .ok false => .done { name := "poison", passed := true }
  | _ => .done { name := "poison", passed := false, reason := "missing fingerprint" }

def scanGate (env : SkillEnv) (scan : Dict) : GateOutcome :=
  let state := Dict.get scan "state"
  if state.isStr ScanState.clean.name then { name := "scan", passed := true }
  else
    { name := "scan"
      passed := false
      reason := "scan.state=" ++ env.reprJson state ++ " (expected 'clean')" }

def hashBindingGate (env : SkillEnv) (doc : Dict) : Handler GateOutcome :=
  if !((Dict.find doc "kind").getD (.str "create")).isStr "update" then
    .done { name := "hash_binding", passed := true, reason := "n/a (kind=create)" }
  else
    let target := (Dict.get doc "target").asDict.getD []
    match Dict.get target "target_content_hash", Dict.get doc "slug" with
    | .str targetHash, .str slug =>
      .call (.getDocument (env.pathId (.str slug))) fun a => match a with
        | .error name =>
          .done { name := "hash_binding"
                  passed := false
                  reason := "live_data_fetcher raised: " ++ name }
        | .ok live =>
          let liveHash := Dict.get ((live.map Row.data).getD []) "content_hash"
          if liveHash.isStr targetHash then .done { name := "hash_binding", passed := true }
          else
            .done { name := "hash_binding"
                    passed := false
                    reason := "target_hash=" ++ env.repr targetHash ++ " != live_hash=" ++
                      env.reprJson liveHash }
    | _, _ =>
      .done { name := "hash_binding"
              passed := false
              reason := "kind=update missing target.target_content_hash or slug" }

/-- `evaluate_auto_gates`. An origin or a scan that is neither a dict nor false raises. -/
def evaluateAutoGates (env : SkillEnv) (cfg : GateConfig) (now : Int) (fleetId : Option String)
    (doc : Dict) : Handler AutoGateResult :=
  match (Dict.get doc "origin").orEmpty with
  | none => .raise serverError
  | some origin => do
    let volume := countGate "volume" "cluster_size" "min_cluster_size" cfg.minClusterSize origin
    let diversity :=
      countGate "diversity" "distinct_agents" "min_distinct_agents" cfg.minDistinctAgents origin
    let freshness := freshnessGate env now cfg.freshnessWindowDays origin
    let poison ← poisonGate fleetId doc
    match (Dict.get doc "scan").orEmpty with
    | none => .raise serverError
    | some scan =>
      let binding ← hashBindingGate env doc
      let gates := [volume, diversity, freshness, poison, scanGate env scan, binding]
      .done ⟨gates.all GateOutcome.passed, gates⟩

end Memclaw.Skills

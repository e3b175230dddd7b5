import Mathlib.Data.List.Sort
import Memclaw.Api.AuthDefs
import Memclaw.Lib.FixedWidthDefs
import Memclaw.Lib.Interleave
import Memclaw.Lib.JsonDefs

/-! The fleet command channel: the storage functions over nodes and commands, and the
heartbeat, result and queue handlers cut at their storage calls. Times are microseconds
since the epoch. -/

namespace Memclaw.Fleet

open Memclaw.Lib Memclaw.Lib.Interleave Memclaw.Api

structure FleetNode where
  id : Uuid
  tenantId : String
  nodeName : String
deriving DecidableEq

structure FleetCommand where
  id : Uuid
  tenantId : String
  nodeId : Uuid
  command : String
  payload : Option Json
  status : String
  result : Option Json
  createdAt : ℕ
  ackedAt : Option ℕ
  completedAt : Option ℕ

/-- `createdBy` is a ghost column: the tenant of the credential that queued the command. -/
structure Tables where
  nodes : List FleetNode
  commands : List FleetCommand
  createdBy : Uuid → Option String
  nodeIds_nodup : (nodes.map (·.id)).Nodup
  commandIds_nodup : (commands.map (·.id)).Nodup

theorem nodup_append_new {α β : Type} {key : α → β} {rows : List α} {row : α}
    (h : (rows.map key).Nodup) (hnew : ¬ ∃ r ∈ rows, key r = key row) :
    ((rows ++ [row]).map key).Nodup := by
  rw [List.map_append, List.nodup_append]
  refine ⟨h, by simp, ?_⟩
  rintro k hk k' hk' rfl
  obtain ⟨r, hr, rfl⟩ := List.mem_map.mp hk
  exact hnew ⟨r, hr, by simpa using hk'⟩

def Tables.mapCommands (t : Tables) (f : FleetCommand → FleetCommand) (hid : ∀ c, (f c).id = c.id) :
    Tables :=
  { t with
    commands := t.commands.map f
    commandIds_nodup := by
      rw [List.map_map, show (fun c : FleetCommand => c.id) ∘ f = (·.id) from funext hid]
      exact t.commandIds_nodup }

def Tables.node? (t : Tables) (tenantId nodeName : String) : Option FleetNode :=
  t.nodes.find? fun n => n.tenantId = tenantId && n.nodeName = nodeName

def Tables.fleetUpsertNode (t : Tables) (newId : Uuid) (tenantId nodeName : String) :
    Option (Tables × Uuid) :=
  match t.node? tenantId nodeName with
  | some n => some (t, n.id)
  | none =>
    if h : ∃ n ∈ t.nodes, n.id = newId then none
    else some ({ t with
      nodes := t.nodes ++ [⟨newId, tenantId, nodeName⟩]
      nodeIds_nodup := nodup_append_new t.nodeIds_nodup h }, newId)

def Tables.fleetGetPendingCommands (t : Tables) (nodeId : Uuid) : List FleetCommand :=
  (t.commands.filter fun c => c.nodeId = nodeId && c.status = "pending").insertionSort
    (·.createdAt ≤ ·.createdAt)

def Tables.getPendingCommands (t : Tables) (tenantId nodeName : String) :
    Option (List FleetCommand) :=
  (t.node? tenantId nodeName).map fun n => t.fleetGetPendingCommands n.id

def Tables.fleetHasRecentInFlightDeploy (t : Tables) (nodeId : Uuid) (since : Int) : Bool :=
  t.commands.any fun c =>
    c.nodeId = nodeId && c.command = "deploy" && (c.status = "pending" || c.status = "acked") &&
      since ≤ c.createdAt

def targetVersionIs (target : String) : Option Json → Bool
  | some (.obj fields) =>
    match fields.find? (·.1 = "target_version") with
    | some (_, .str s) => s = target
    | _ => false
  | _ => false

def Tables.fleetCountRecentDeploysForTarget (t : Tables) (nodeId : Uuid) (target : String)
    (since : Int) : ℕ :=
  (t.commands.filter fun c =>
    c.nodeId = nodeId && c.command = "deploy" && targetVersionIs target c.payload &&
      since ≤ c.createdAt).length

structure NewCommand where
  tenantId : Option String
  nodeId : Uuid
  command : String
  payload : Option Json

/-- `fleet_add_command`: the tenant is not null, the node exists and the id is new, else it
raises. -/
def Tables.fleetAddCommand (t : Tables) (newId : Uuid) (now : ℕ) (caller : Option String)
    (data : NewCommand) : Option Tables :=
  match data.tenantId with
  | none => none
  | some tenantId =>
    if t.nodes.any (·.id = data.nodeId) then
      if h : ∃ c ∈ t.commands, c.id = newId then none
      else some { t with
        commands := t.commands ++
          [⟨newId, tenantId, data.nodeId, data.command, data.payload, "pending", none, now, none, none⟩]
        createdBy := fun id => if id = newId then caller else t.createdBy id
        commandIds_nodup := nodup_append_new t.commandIds_nodup h }
    else none

def FleetCommand.ack (ids : List Uuid) (now : ℕ) (c : FleetCommand) : FleetCommand :=
  if c.id ∈ ids then { c with status := "acked", ackedAt := some now } else c

theorem FleetCommand.ack_id (ids : List Uuid) (now : ℕ) (c : FleetCommand) :
    (c.ack ids now).id = c.id := by
  unfold FleetCommand.ack
  split_ifs <;> rfl

def Tables.fleetAckCommands (t : Tables) (ids : List Uuid) (now : ℕ) : Tables :=
  t.mapCommands (FleetCommand.ack ids now) (FleetCommand.ack_id ids now)

def FleetCommand.matchesResult (commandId : Uuid) (tenantId : Option String) (c : FleetCommand) :
    Bool :=
  c.id = commandId && tenantId.all (· = c.tenantId)

def FleetCommand.complete (status : String) (result : Option Json) (completedAt : ℕ)
    (c : FleetCommand) : FleetCommand :=
  if status = "acked" then { c with status := "acked", ackedAt := some completedAt }
  else { c with
    status := status
    result := match result with
      | some r => some r
      | none => c.result
    completedAt := some completedAt }

def FleetCommand.update (commandId : Uuid) (status : String) (tenantId : Option String)
    (result : Option Json) (completedAt : ℕ) (c : FleetCommand) : FleetCommand :=
  if c.matchesResult commandId tenantId then c.complete status result completedAt else c

theorem FleetCommand.update_id (commandId : Uuid) (status : String) (tenantId : Option String)
    (result : Option Json) (completedAt : ℕ) (c : FleetCommand) :
    (c.update commandId status tenantId result completedAt).id = c.id := by
  unfold FleetCommand.update FleetCommand.complete
  split_ifs <;> rfl

def Tables.fleetUpdateCommandResult (t : Tables) (commandId : Uuid) (status : String)
    (tenantId : Option String) (result : Option Json) (completedAt : ℕ) : Tables × Bool :=
  (t.mapCommands (FleetCommand.update commandId status tenantId result completedAt)
      (FleetCommand.update_id commandId status tenantId result completedAt),
    t.commands.any (FleetCommand.matchesResult commandId tenantId))

def deployInFlightWindow : Int := 10 * 60 * 1000000
def autoUpgradeAttemptWindow : Int := 24 * 3600 * 1000000
def autoUpgradeMaxAttempts : ℕ := 5
def maxBlockMs : Int := 7 * 24 * 3600 * 1000
def minRecommendedPluginVersion : String := "2.14.0"
def minAutoDeployPluginVersion : String := "2.6.0"
def knownBrokenDeployVersions : List String := ["2.3.0"]

def scanDecimal (chars : CharData) : ℕ → ℕ → Bool → List Char → Option ((ℕ × ℕ) × List Char)
  | acc, count, afterDigit, [] => if afterDigit then some ((acc, count), []) else none
  | acc, count, afterDigit, c :: cs =>
    if c = '_' then
      if afterDigit then scanDecimal chars acc count false cs else none
    else match chars.decimal c with
      | some d => scanDecimal chars (10 * acc + d) (count + 1) true cs
      | none => if afterDigit then some ((acc, count), c :: cs) else none

/-- The white space around a number is that of `str.isspace`, without the separators U+001C to
U+001F. -/
def intSpace (chars : CharData) (c : Char) : Bool :=
  chars.space c && !(28 ≤ c.toNat && c.toNat ≤ 31)

/-- `int(text)`; nothing where it raises `ValueError`, as it does beyond 4300 digits. -/
def parseInt (chars : CharData) (cs : List Char) : Option Int :=
  let body := cs.dropWhile (intSpace chars)
  let (negative, unsigned) := match body with
    | '-' :: rest => (true, rest)
    | '+' :: rest => (false, rest)
    | rest => (false, rest)
  match scanDecimal chars 0 0 false unsigned with
  | some ((n, count), trailing) =>
    if trailing.all (intSpace chars) && count ≤ 4300 then some (if negative then -n else n) else none
  | none => none

/-- `[int(x) for x in text.split(".") if x]`. -/
def versionParts (chars : CharData) (version : String) : Option (List Int) :=
  ((version.toList.splitOn '.').filter (· ≠ [])).mapM (parseInt chars)

def intsLt : List Int → List Int → Bool
  | _, [] => false
  | [], _ :: _ => true
  | x :: xs, y :: ys => x < y || (x = y && intsLt xs ys)

def semverLt (chars : CharData) (a b : String) : Bool :=
  if a = "" || b = "" then false
  else match versionParts chars a, versionParts chars b with
    | some as, some bs =>
      if as = [] || bs = [] then false
      else
        let n := max as.length bs.length
        intsLt (as ++ List.replicate (n - as.length) 0) (bs ++ List.replicate (n - bs.length) 0)
    | _, _ => false

structure HeartbeatIn where
  tenantId : String
  nodeName : String
  pluginVersion : Option String
  deployBlockedUntil : Option Int

def autoUpgradeEligible (chars : CharData) (body : HeartbeatIn) (now : ℕ) (enabled : Bool)
    (pending : List FleetCommand) : Bool :=
  let version := body.pluginVersion.getD ""
  let nowMs : Int := now / 1000
  let blocked := match body.deployBlockedUntil with
    | some deadline => deadline ≠ 0 && nowMs < deadline && deadline < nowMs + maxBlockMs
    | none => false
  version ≠ "" && semverLt chars version minRecommendedPluginVersion &&
    !semverLt chars version minAutoDeployPluginVersion &&
    !knownBrokenDeployVersions.contains version && !blocked && enabled &&
    !pending.any (·.command = "deploy")

def autoUpgradeCommand (body : HeartbeatIn) (nodeId : Uuid) : NewCommand where
  tenantId := some body.tenantId
  nodeId := nodeId
  command := "deploy"
  payload := some (.obj [("target_version", .str minRecommendedPluginVersion)])

structure CommandOut where
  id : Uuid
  command : String
  payload : Option Json

def FleetCommand.out (c : FleetCommand) : CommandOut := ⟨c.id, c.command, c.payload⟩

/-- Where a heartbeat stands: before each of its storage calls, or at its end. -/
inductive Heartbeat
  | upsert
  | fetch (nodeId : Uuid)
  | inFlight (nodeId : Uuid) (pending : List FleetCommand)
  | attempts (nodeId : Uuid) (pending : List FleetCommand)
  | queue (nodeId : Uuid) (pending : List FleetCommand)
  | refetch (nodeId : Uuid) (pending : List FleetCommand)
  | ack (nodeId : Uuid) (commands : List FleetCommand)
  | responded (nodeId : Uuid) (commands : List CommandOut)
  | raised (error : HTTPException)

structure CommandResultIn where
  commandId : Uuid
  status : String
  result : Option Json

structure CommandIn where
  tenantId : Option String
  nodeId : Uuid
  command : String
  payload : Option Json

inductive Call (α : Type)
  | pending
  | returned (value : α)
  | raised (error : HTTPException)

inductive Request
  | heartbeat (auth : AuthContext) (body : HeartbeatIn) (state : Heartbeat)
  | commandResult (auth : AuthContext) (body : CommandResultIn) (state : Call Unit)
  | createCommand (auth : AuthContext) (body : CommandIn) (state : Call Uuid)

structure Answer where
  reply : Reply
  now : ℕ
  newId : Uuid
  autoUpgradeEnabled : Bool

/-- The commands are acked before they are handed out; none needs no call. -/
def Heartbeat.finish (nodeId : Uuid) (commands : List FleetCommand) : Heartbeat :=
  if commands.isEmpty then .responded nodeId [] else .ack nodeId commands

/-- The pending commands of the node, or the fallback when the call raises. -/
def fetched (reply : Reply) (t : Tables) (body : HeartbeatIn) (fallback : List FleetCommand) :
    List FleetCommand :=
  match reply, t.getPendingCommands body.tenantId body.nodeName with
  | .ok, some commands => commands
  | _, _ => fallback

def heartbeatTurn (chars : CharData) (auth : AuthContext) (body : HeartbeatIn) (a : Answer)
    (t : Tables) : Heartbeat → Heartbeat × Tables
  | .upsert =>
    match auth.enforceTenant body.tenantId with
    | .error e => (.raised e, t)
    | .ok () =>
      match a.reply, t.fleetUpsertNode a.newId body.tenantId body.nodeName with
      | .ok, some (t', nodeId) => (.fetch nodeId, t')
      | .lost, some (t', _) => (.raised serverError, t')
      | _, _ => (.raised serverError, t)
  | .fetch nodeId =>
    -- a failed fetch counts as no pending command
    let pending := fetched a.reply t body []
    if autoUpgradeEligible chars body a.now a.autoUpgradeEnabled pending then
      (.inFlight nodeId pending, t)
    else (.finish nodeId pending, t)
  | .inFlight nodeId pending =>
    -- both lookups of the gate fall back to allow
    if a.reply = .ok && t.fleetHasRecentInFlightDeploy nodeId (a.now - deployInFlightWindow) then
      (.finish nodeId pending, t)
    else (.attempts nodeId pending, t)
  | .attempts nodeId pending =>
    if a.reply = .ok && autoUpgradeMaxAttempts ≤ t.fleetCountRecentDeploysForTarget nodeId
        minRecommendedPluginVersion (a.now - autoUpgradeAttemptWindow) then
      (.finish nodeId pending, t)
    else (.queue nodeId pending, t)
  | .queue nodeId pending =>
    match a.reply, t.fleetAddCommand a.newId a.now auth.tenantId (autoUpgradeCommand body nodeId) with
    | .ok, some t' => (.refetch nodeId pending, t')
    | .lost, some t' => (.finish nodeId pending, t')
    | _, _ => (.finish nodeId pending, t)
  | .refetch nodeId pending =>
    (.finish nodeId (fetched a.reply t body pending), t)
  | .ack nodeId commands =>
    match a.reply with
    | .ok => (.responded nodeId (commands.map FleetCommand.out),
        t.fleetAckCommands (commands.map (·.id)) a.now)
    | .lost => (.raised serverError, t.fleetAckCommands (commands.map (·.id)) a.now)
    | .refused => (.raised serverError, t)
  | .responded nodeId commands => (.responded nodeId commands, t)
  | .raised e => (.raised e, t)

/-- `command_result`. Its call is retried, so a lost reply leaves it where it was. -/
def commandResultTurn (auth : AuthContext) (body : CommandResultIn) (a : Answer) (t : Tables) :
    Call Unit → Call Unit × Tables
  | .pending =>
    match auth.enforceReadOnly with
    | .error e => (.raised e, t)
    | .ok () =>
      let updated := t.fleetUpdateCommandResult body.commandId body.status auth.tenantId body.result
        a.now
      match a.reply with
      | .ok => (if updated.2 then .returned () else .raised ⟨404, "Command not found"⟩, updated.1)
      | .lost => (.pending, updated.1)
      | .refused => (.raised serverError, t)
  | state => (state, t)

def CommandIn.tenant (auth : AuthContext) (body : CommandIn) : Option String :=
  if body.tenantId.getD "" = "" then auth.tenantId else body.tenantId

/-- `create_command`. No gate is asked. -/
def createCommandTurn (auth : AuthContext) (body : CommandIn) (a : Answer) (t : Tables) :
    Call Uuid → Call Uuid × Tables
  | .pending =>
    match a.reply, t.fleetAddCommand a.newId a.now auth.tenantId
        ⟨body.tenant auth, body.nodeId, body.command, body.payload⟩ with
    | .ok, some t' => (.returned a.newId, t')
    | .lost, some t' => (.raised serverError, t')
    | _, _ => (.raised serverError, t)
  | state => (state, t)

def turn (chars : CharData) (a : Answer) (request : Request) (t : Tables) : Request × Tables :=
  match request with
  | .heartbeat auth body state =>
    let next := heartbeatTurn chars auth body a t state
    (.heartbeat auth body next.1, next.2)
  | .commandResult auth body state =>
    let next := commandResultTurn auth body a t state
    (.commandResult auth body next.1, next.2)
  | .createCommand auth body state =>
    let next := createCommandTurn auth body a t state
    (.createCommand auth body next.1, next.2)

def Request.fresh : Request → Bool
  | .heartbeat _ _ .upsert => true
  | .commandResult _ _ .pending => true
  | .createCommand _ _ .pending => true
  | _ => false

def Request.handedOut : Request → List CommandOut
  | .heartbeat _ _ (.responded _ commands) => commands
  | _ => []

def Request.auth : Request → AuthContext
  | .heartbeat auth _ _ => auth
  | .commandResult auth _ _ => auth
  | .createCommand auth _ _ => auth

end Memclaw.Fleet

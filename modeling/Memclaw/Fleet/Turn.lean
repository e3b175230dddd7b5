import Memclaw.Fleet.CommandDefs

/-! What one turn of a request may write, and which commands it carries on or hands out. -/

namespace Memclaw.Fleet

open Memclaw.Lib Memclaw.Lib.Interleave Memclaw.Api

def Request.inserts : Request → Option NewCommand
  | .heartbeat _ body (.queue nodeId _) => some (autoUpgradeCommand body nodeId)
  | .createCommand auth body .pending =>
    some ⟨body.tenant auth, body.nodeId, body.command, body.payload⟩
  | _ => none

inductive Writes (a : Answer) (t : Tables) : Request → Tables → Prop
  | nothing (r : Request) : Writes a t r t
  | node (auth : AuthContext) (body : HeartbeatIn) {t' : Tables} {nodeId : Uuid} :
      auth.enforceTenant body.tenantId = .ok () →
      t.fleetUpsertNode a.newId body.tenantId body.nodeName = some (t', nodeId) →
      Writes a t (.heartbeat auth body .upsert) t'
  | insert (r : Request) (data : NewCommand) {t' : Tables} : r.inserts = some data →
      t.fleetAddCommand a.newId a.now r.auth.tenantId data = some t' → Writes a t r t'
  | ack (auth : AuthContext) (body : HeartbeatIn) (nodeId : Uuid) (commands : List FleetCommand) :
      a.reply ≠ .refused →
      Writes a t (.heartbeat auth body (.ack nodeId commands))
        (t.fleetAckCommands (commands.map (·.id)) a.now)
  | result (auth : AuthContext) (body : CommandResultIn) :
      auth.enforceReadOnly = .ok () → a.reply ≠ .refused →
      Writes a t (.commandResult auth body .pending)
        (t.fleetUpdateCommandResult body.commandId body.status auth.tenantId body.result a.now).1

theorem heartbeatTurn_writes (chars : CharData) (auth : AuthContext) (body : HeartbeatIn)
    (a : Answer) (t : Tables) (state : Heartbeat) :
    Writes a t (.heartbeat auth body state) (heartbeatTurn chars auth body a t state).2 := by
  cases state with
  | upsert =>
    simp only [heartbeatTurn]
    split
    · exact .nothing _
    · next hauth =>
      split
      · next hup => exact .node auth body hauth hup
      · next hup => exact .node auth body hauth hup
      · exact .nothing _
  | fetch nodeId =>
    simp only [heartbeatTurn]
    split_ifs <;> exact .nothing _
  | inFlight nodeId pending =>
    simp only [heartbeatTurn]
    split_ifs <;> exact .nothing _
  | attempts nodeId pending =>
    simp only [heartbeatTurn]
    split_ifs <;> exact .nothing _
  | queue nodeId pending =>
    simp only [heartbeatTurn]
    split
    · next hadd => exact .insert _ _ rfl hadd
    · next hadd => exact .insert _ _ rfl hadd
    · exact .nothing _
  | refetch nodeId pending => exact .nothing _
  | ack nodeId commands =>
    simp only [heartbeatTurn]
    split
    · next hreply => exact .ack auth body nodeId commands (by simp [hreply])
    · next hreply => exact .ack auth body nodeId commands (by simp [hreply])
    · exact .nothing _
  | responded nodeId commands => exact .nothing _
  | raised e => exact .nothing _

theorem commandResultTurn_writes (auth : AuthContext) (body : CommandResultIn) (a : Answer)
    (t : Tables) (state : Call Unit) :
    Writes a t (.commandResult auth body state) (commandResultTurn auth body a t state).2 := by
  cases state with
  | pending =>
    simp only [commandResultTurn]
    split
    · exact .nothing _
    · next hauth =>
      split
      · next hreply => exact .result auth body hauth (by simp [hreply])
      · next hreply => exact .result auth body hauth (by simp [hreply])
      · exact .nothing _
  | returned value => exact .nothing _
  | raised e => exact .nothing _

theorem createCommandTurn_writes (auth : AuthContext) (body : CommandIn) (a : Answer) (t : Tables)
    (state : Call Uuid) :
    Writes a t (.createCommand auth body state) (createCommandTurn auth body a t state).2 := by
  cases state with
  | pending =>
    simp only [createCommandTurn]
    split
    · next hadd => exact .insert _ _ rfl hadd
    · next hadd => exact .insert _ _ rfl hadd
    · exact .nothing _
  | returned value => exact .nothing _
  | raised e => exact .nothing _

theorem turn_writes (chars : CharData) (a : Answer) (r : Request) (t : Tables) :
    Writes a t r (turn chars a r t).2 := by
  cases r with
  | heartbeat auth body state => exact heartbeatTurn_writes chars auth body a t state
  | commandResult auth body state => exact commandResultTurn_writes auth body a t state
  | createCommand auth body state => exact createCommandTurn_writes auth body a t state

def Request.carried : Request → List FleetCommand
  | .heartbeat _ _ (.inFlight _ pending) => pending
  | .heartbeat _ _ (.attempts _ pending) => pending
  | .heartbeat _ _ (.queue _ pending) => pending
  | .heartbeat _ _ (.refetch _ pending) => pending
  | .heartbeat _ _ (.ack _ commands) => commands
  | _ => []

theorem carried_finish (auth : AuthContext) (body : HeartbeatIn) (nodeId : Uuid)
    (commands : List FleetCommand) :
    (Request.heartbeat auth body (.finish nodeId commands)).carried = commands := by
  unfold Heartbeat.finish
  split_ifs with h
  · exact (List.isEmpty_iff.mp h).symm
  · rfl

theorem handedOut_finish (auth : AuthContext) (body : HeartbeatIn) (nodeId : Uuid)
    (commands : List FleetCommand) :
    (Request.heartbeat auth body (.finish nodeId commands)).handedOut = [] := by
  unfold Heartbeat.finish
  split_ifs <;> rfl

def Tables.PendingFor (t : Tables) (tenantId nodeName : String) (c : FleetCommand) : Prop :=
  ∃ n, t.node? tenantId nodeName = some n ∧ c ∈ t.commands ∧ c.nodeId = n.id ∧ c.status = "pending"

theorem mem_fetched {reply : Reply} {t : Tables} {body : HeartbeatIn}
    {fallback : List FleetCommand} {c : FleetCommand} (hc : c ∈ fetched reply t body fallback) :
    c ∈ fallback ∨ t.PendingFor body.tenantId body.nodeName c := by
  unfold fetched at hc
  split at hc
  · next hget =>
    obtain ⟨n, hn, rfl⟩ := Option.map_eq_some_iff.mp hget
    have hmem : c ∈ t.commands.filter fun c => c.nodeId = n.id && c.status = "pending" := by
      simpa [Tables.fleetGetPendingCommands] using hc
    obtain ⟨hin, hcond⟩ := List.mem_filter.mp hmem
    simp only [Bool.and_eq_true, decide_eq_true_eq] at hcond
    exact .inr ⟨n, hn, hin, hcond.1, hcond.2⟩
  · exact .inl hc

/-- Every command that a heartbeat carries it carried before, or has just fetched. -/
theorem heartbeatTurn_carried (chars : CharData) (auth : AuthContext) (body : HeartbeatIn)
    (a : Answer) (t : Tables) (state : Heartbeat) {c : FleetCommand}
    (hc : c ∈ (Request.heartbeat auth body (heartbeatTurn chars auth body a t state).1).carried) :
    c ∈ (Request.heartbeat auth body state).carried ∨ t.PendingFor body.tenantId body.nodeName c := by
  cases state with
  | upsert =>
    simp only [heartbeatTurn] at hc
    split at hc
    · simp [Request.carried] at hc
    · split at hc <;> simp [Request.carried] at hc
  | fetch nodeId =>
    right
    simp only [heartbeatTurn] at hc
    have hfetched : c ∈ fetched a.reply t body [] := by
      split at hc
      · exact hc
      · rwa [carried_finish] at hc
    rcases mem_fetched hfetched with hnil | hpending
    · simp at hnil
    · exact hpending
  | inFlight nodeId pending =>
    left
    simp only [heartbeatTurn] at hc
    split at hc
    · rwa [carried_finish] at hc
    · exact hc
  | attempts nodeId pending =>
    left
    simp only [heartbeatTurn] at hc
    split at hc
    · rwa [carried_finish] at hc
    · exact hc
  | queue nodeId pending =>
    left
    simp only [heartbeatTurn] at hc
    split at hc
    · exact hc
    · rwa [carried_finish] at hc
    · rwa [carried_finish] at hc
  | refetch nodeId pending =>
    simp only [heartbeatTurn, carried_finish] at hc
    exact mem_fetched hc
  | ack nodeId commands =>
    simp only [heartbeatTurn] at hc
    split at hc <;> simp [Request.carried] at hc
  | responded nodeId commands => simp [heartbeatTurn, Request.carried] at hc
  | raised e => simp [heartbeatTurn, Request.carried] at hc

def Heartbeat.node? : Heartbeat → Option Uuid
  | .fetch nodeId => some nodeId
  | .inFlight nodeId _ => some nodeId
  | .attempts nodeId _ => some nodeId
  | .queue nodeId _ => some nodeId
  | .refetch nodeId _ => some nodeId
  | .ack nodeId _ => some nodeId
  | .responded nodeId _ => some nodeId
  | _ => none

theorem node?_finish (nodeId : Uuid) (commands : List FleetCommand) :
    (Heartbeat.finish nodeId commands).node? = some nodeId := by
  unfold Heartbeat.finish
  split_ifs <;> rfl

theorem heartbeatTurn_node? (chars : CharData) (auth : AuthContext) (body : HeartbeatIn)
    (a : Answer) (t : Tables) {state : Heartbeat} (hup : state ≠ .upsert) {nodeId : Uuid}
    (h : (heartbeatTurn chars auth body a t state).1.node? = some nodeId) :
    state.node? = some nodeId := by
  cases state with
  | upsert => exact absurd rfl hup
  | fetch _ =>
    simp only [heartbeatTurn] at h
    split at h
    · exact h
    · rwa [node?_finish] at h
  | inFlight _ pending =>
    simp only [heartbeatTurn] at h
    split at h
    · rwa [node?_finish] at h
    · exact h
  | attempts _ pending =>
    simp only [heartbeatTurn] at h
    split at h
    · rwa [node?_finish] at h
    · exact h
  | queue _ pending =>
    simp only [heartbeatTurn] at h
    split at h
    · exact h
    · rwa [node?_finish] at h
    · rwa [node?_finish] at h
  | refetch _ pending => rwa [heartbeatTurn, node?_finish] at h
  | ack _ commands =>
    simp only [heartbeatTurn] at h
    split at h
    · exact h
    · simp [Heartbeat.node?] at h
    · simp [Heartbeat.node?] at h
  | responded _ commands => exact h
  | raised e => exact h

theorem heartbeatTurn_handedOut (chars : CharData) (auth : AuthContext) (body : HeartbeatIn)
    (a : Answer) (t : Tables) (state : Heartbeat) :
    (Request.heartbeat auth body (heartbeatTurn chars auth body a t state).1).handedOut = [] ∨
    (heartbeatTurn chars auth body a t state).1 = state ∨
    ∃ nodeId commands, state = .ack nodeId commands ∧ a.reply = .ok ∧
      heartbeatTurn chars auth body a t state =
        (.responded nodeId (commands.map FleetCommand.out),
          t.fleetAckCommands (commands.map (·.id)) a.now) := by
  -- What is handed out was handed out before, or was carried up to an ack that is now done.
  cases state with
  | upsert =>
    left
    simp only [heartbeatTurn]
    split
    · rfl
    · split <;> rfl
  | fetch nodeId =>
    left
    simp only [heartbeatTurn]
    split
    · rfl
    · exact handedOut_finish ..
  | inFlight nodeId pending =>
    left
    simp only [heartbeatTurn]
    split
    · exact handedOut_finish ..
    · rfl
  | attempts nodeId pending =>
    left
    simp only [heartbeatTurn]
    split
    · exact handedOut_finish ..
    · rfl
  | queue nodeId pending =>
    left
    simp only [heartbeatTurn]
    split
    · rfl
    · exact handedOut_finish ..
    · exact handedOut_finish ..
  | refetch nodeId pending => exact .inl (handedOut_finish ..)
  | ack nodeId commands =>
    cases hreply : a.reply with
    | ok => exact .inr (.inr ⟨nodeId, commands, rfl, rfl, by simp [heartbeatTurn, hreply]⟩)
    | refused => exact .inl (by simp [heartbeatTurn, hreply, Request.handedOut])
    | lost => exact .inl (by simp [heartbeatTurn, hreply, Request.handedOut])
  | responded nodeId commands => exact .inr (.inl rfl)
  | raised e => exact .inr (.inl rfl)

theorem mod_eight_lt (k : ℕ) : k % 8 < 2 ^ 128 := by omega

def numbered (k : ℕ) : Uuid := ⟨k % 8, mod_eight_lt k⟩

def answered : Answer := ⟨.ok, 0, numbered 3, false⟩

end Memclaw.Fleet

import Memclaw.Fleet.Turn

/-! The attempt budget of the auto-upgrade. Requests are handled one at a time here: a heartbeat
counts the deploys of its node before it queues one, and the count of a node never falls. -/

namespace Memclaw.Fleet

open Memclaw.Lib Memclaw.Lib.Interleave Memclaw.Api

structure Queued where
  nodeId : Uuid
  createdAt : ℕ

/-- `queued` is a ghost: what the auto-upgrade has queued so far. -/
structure Server where
  tables : Tables
  current : Option Request
  clock : ℕ
  queued : List Queued

inductive Event
  | accept (request : Request)
  | answer (a : Answer)

def Server.queues (s : Server) (a : Answer) : Option Queued :=
  match s.current with
  | some (.heartbeat auth body (.queue nodeId _)) =>
    match a.reply, s.tables.fleetAddCommand a.newId a.now auth.tenantId
        (autoUpgradeCommand body nodeId) with
    | .refused, _ => none
    | _, none => none
    | _, some _ => some ⟨nodeId, a.now⟩
  | _ => none

def Server.step (chars : CharData) (s : Server) : Event → Server
  | .accept request => { s with current := some request }
  | .answer a =>
    match s.current with
    | none => { s with clock := a.now }
    | some request =>
      let next := turn chars a request s.tables
      ⟨next.2, some next.1, a.now, s.queued ++ (s.queues a).toList⟩

/-- No request starts in the middle, no storage call fails and the clock does not go back. -/
def Server.Sequential (s : Server) : Event → Prop
  | .accept request => request.fresh = true
  | .answer a => a.reply = .ok ∧ s.clock ≤ a.now

instance (s : Server) (e : Event) : Decidable (s.Sequential e) := by
  cases e <;> unfold Server.Sequential <;> infer_instance

def Server.start (tables : Tables) (clock : ℕ) : Server := ⟨tables, none, clock, []⟩

def Server.queuedIn (s : Server) (nodeId : Uuid) (since upTo : Int) : ℕ :=
  (s.queued.filter fun q => q.nodeId = nodeId && since ≤ q.createdAt && q.createdAt ≤ upTo).length

theorem Tables.fleetCount_mapCommands {t : Tables} {f : FleetCommand → FleetCommand}
    (hid : ∀ c, (f c).id = c.id)
    (hf : ∀ c, (f c).nodeId = c.nodeId ∧ (f c).command = c.command ∧ (f c).payload = c.payload ∧
      (f c).createdAt = c.createdAt) (nodeId : Uuid) (target : String) (since : Int) :
    (t.mapCommands f hid).fleetCountRecentDeploysForTarget nodeId target since =
      t.fleetCountRecentDeploysForTarget nodeId target since := by
  show ((t.commands.map f).filter _).length = _
  rw [List.filter_map, List.length_map]
  unfold fleetCountRecentDeploysForTarget
  congr 2
  funext c
  obtain ⟨hnode, hcommand, hpayload, hcreated⟩ := hf c
  rw [Function.comp_apply, hnode, hcommand, hpayload, hcreated]

theorem FleetCommand.ack_kept (ids : List Uuid) (now : ℕ) (c : FleetCommand) :
    (c.ack ids now).nodeId = c.nodeId ∧ (c.ack ids now).command = c.command ∧
      (c.ack ids now).payload = c.payload ∧ (c.ack ids now).createdAt = c.createdAt := by
  unfold FleetCommand.ack
  split_ifs <;> exact ⟨rfl, rfl, rfl, rfl⟩

theorem FleetCommand.update_kept (commandId : Uuid) (status : String) (tenantId : Option String)
    (result : Option Json) (completedAt : ℕ) (c : FleetCommand) :
    (c.update commandId status tenantId result completedAt).nodeId = c.nodeId ∧
      (c.update commandId status tenantId result completedAt).command = c.command ∧
      (c.update commandId status tenantId result completedAt).payload = c.payload ∧
      (c.update commandId status tenantId result completedAt).createdAt = c.createdAt := by
  unfold FleetCommand.update FleetCommand.complete
  split_ifs <;> exact ⟨rfl, rfl, rfl, rfl⟩

theorem Tables.commands_of_upsert {t t' : Tables} {newId nodeId : Uuid}
    {tenantId nodeName : String}
    (h : t.fleetUpsertNode newId tenantId nodeName = some (t', nodeId)) :
    t'.commands = t.commands := by
  unfold fleetUpsertNode at h
  split at h
  · rw [← (Prod.mk.inj (Option.some.inj h)).1]
  · split_ifs at h
    rw [← (Prod.mk.inj (Option.some.inj h)).1]

theorem Tables.commands_of_add {t t' : Tables} {newId : Uuid} {now : ℕ} {caller : Option String}
    {data : NewCommand} (h : t.fleetAddCommand newId now caller data = some t') :
    ∃ tenantId, t'.commands = t.commands ++
      [⟨newId, tenantId, data.nodeId, data.command, data.payload, "pending", none, now, none,
        none⟩] := by
  unfold fleetAddCommand at h
  split at h
  · exact absurd h (by simp)
  · split_ifs at h
    rw [← Option.some.inj h]
    exact ⟨_, rfl⟩

theorem fleetCount_le_turn (chars : CharData) (a : Answer) (r : Request) (t : Tables)
    (nodeId : Uuid) (target : String) (since : Int) :
    t.fleetCountRecentDeploysForTarget nodeId target since ≤
      (turn chars a r t).2.fleetCountRecentDeploysForTarget nodeId target since := by
  have hwrites := turn_writes chars a r t
  generalize (turn chars a r t).2 = t' at hwrites
  cases hwrites with
  | nothing => exact le_rfl
  | node auth body _ hup =>
    unfold Tables.fleetCountRecentDeploysForTarget
    rw [Tables.commands_of_upsert hup]
  | insert _ data _ hadd =>
    obtain ⟨tenantId, hcommands⟩ := Tables.commands_of_add hadd
    unfold Tables.fleetCountRecentDeploysForTarget
    rw [hcommands, List.filter_append, List.length_append]
    exact Nat.le_add_right _ _
  | ack auth body nodeId' commands _ =>
    exact (Tables.fleetCount_mapCommands (FleetCommand.ack_id _ _) (FleetCommand.ack_kept _ _)
      _ _ _).ge
  | result auth body _ _ =>
    exact (Tables.fleetCount_mapCommands (FleetCommand.update_id _ _ _ _ _)
      (FleetCommand.update_kept _ _ _ _ _) _ _ _).ge

theorem fleetCount_anti {t : Tables} {nodeId : Uuid} {target : String} {since since' : Int}
    (h : since ≤ since') :
    t.fleetCountRecentDeploysForTarget nodeId target since' ≤
      t.fleetCountRecentDeploysForTarget nodeId target since := by
  unfold Tables.fleetCountRecentDeploysForTarget
  apply List.Sublist.length_le
  apply List.monotone_filter_right
  intro c hc
  simp only [Bool.and_eq_true, decide_eq_true_eq] at hc ⊢
  exact ⟨hc.1, h.trans hc.2⟩

theorem fleetCount_add {t t' : Tables} {newId nodeId : Uuid} {now : ℕ} {caller : Option String}
    {body : HeartbeatIn}
    (h : t.fleetAddCommand newId now caller (autoUpgradeCommand body nodeId) = some t')
    {since : Int} (hsince : since ≤ now) :
    t'.fleetCountRecentDeploysForTarget nodeId minRecommendedPluginVersion since =
      t.fleetCountRecentDeploysForTarget nodeId minRecommendedPluginVersion since + 1 := by
  obtain ⟨tenantId, hcommands⟩ := Tables.commands_of_add h
  unfold Tables.fleetCountRecentDeploysForTarget
  rw [hcommands, List.filter_append, List.length_append]
  congr 1
  have htarget : targetVersionIs minRecommendedPluginVersion
      (some (.obj [("target_version", .str minRecommendedPluginVersion)])) = true := by decide
  rw [List.filter_singleton]
  simp [autoUpgradeCommand, htarget, hsince]

def Tables.Deploying (t : Tables) (nodeId : Uuid) (now : ℕ) (c : FleetCommand) : Prop :=
  c ∈ t.commands ∧ c.nodeId = nodeId ∧ c.command = "deploy" ∧
    (c.status = "pending" ∨
      (c.status = "acked" ∧ (now : Int) - deployInFlightWindow ≤ c.createdAt))

def Cleared (t : Tables) (now : ℕ) (body : HeartbeatIn) : Heartbeat → Prop
  | .fetch nodeId => ∃ n, t.node? body.tenantId body.nodeName = some n ∧ n.id = nodeId
  | .inFlight nodeId _ =>
    ∀ c ∈ t.commands, c.nodeId = nodeId → c.command = "deploy" → c.status ≠ "pending"
  | .attempts nodeId _ => ∀ c, ¬ t.Deploying nodeId now c
  | .queue nodeId _ => (∀ c, ¬ t.Deploying nodeId now c) ∧
      t.fleetCountRecentDeploysForTarget nodeId minRecommendedPluginVersion
        (now - autoUpgradeAttemptWindow) < autoUpgradeMaxAttempts
  | _ => True

theorem Tables.Deploying.earlier {t : Tables} {nodeId : Uuid} {now now' : ℕ} {c : FleetCommand}
    (h : t.Deploying nodeId now' c) (hnow : now ≤ now') : t.Deploying nodeId now c := by
  obtain ⟨hc, hnode, hcommand, hpending | ⟨hacked, hsince⟩⟩ := h
  · exact ⟨hc, hnode, hcommand, Or.inl hpending⟩
  · exact ⟨hc, hnode, hcommand, Or.inr ⟨hacked, by omega⟩⟩

theorem Cleared.later {t : Tables} {now now' : ℕ} {body : HeartbeatIn} {state : Heartbeat}
    (h : Cleared t now body state) (hnow : now ≤ now') : Cleared t now' body state := by
  cases state with
  | attempts nodeId pending => exact fun c hc => h c (hc.earlier hnow)
  | queue nodeId pending =>
    exact ⟨fun c hc => h.1 c (hc.earlier hnow), (fleetCount_anti (by omega)).trans_lt h.2⟩
  | _ => exact h

theorem cleared_finish (t : Tables) (now : ℕ) (body : HeartbeatIn) (nodeId : Uuid)
    (commands : List FleetCommand) : Cleared t now body (.finish nodeId commands) := by
  unfold Heartbeat.finish
  split_ifs <;> trivial

theorem node?_of_upsert {t t' : Tables} {newId nodeId : Uuid} {tenantId nodeName : String}
    (h : t.fleetUpsertNode newId tenantId nodeName = some (t', nodeId)) :
    ∃ n, t'.node? tenantId nodeName = some n ∧ n.id = nodeId := by
  unfold Tables.fleetUpsertNode at h
  split at h
  · next n hn =>
    obtain ⟨rfl, rfl⟩ := Prod.mk.inj (Option.some.inj h)
    exact ⟨n, hn, rfl⟩
  · next hnone =>
    split_ifs at h
    obtain ⟨rfl, rfl⟩ := Prod.mk.inj (Option.some.inj h)
    refine ⟨⟨newId, tenantId, nodeName⟩, ?_, rfl⟩
    unfold Tables.node? at hnone ⊢
    rw [List.find?_append, hnone]
    simp

theorem mem_getPendingCommands {t : Tables} {tenantId nodeName : String} {n : FleetNode}
    (hn : t.node? tenantId nodeName = some n) {c : FleetCommand} (hc : c ∈ t.commands)
    (hnode : c.nodeId = n.id) (hstatus : c.status = "pending") :
    ∃ pending, t.getPendingCommands tenantId nodeName = some pending ∧ c ∈ pending := by
  refine ⟨t.fleetGetPendingCommands n.id, by rw [Tables.getPendingCommands, hn]; rfl, ?_⟩
  rw [Tables.fleetGetPendingCommands, List.mem_insertionSort, List.mem_filter]
  exact ⟨hc, by simp [hnode, hstatus]⟩

/-- One turn of a heartbeat: each check passes on what it has found. -/
theorem heartbeatTurn_cleared (chars : CharData) (auth : AuthContext) (body : HeartbeatIn)
    {a : Answer} (hreply : a.reply = .ok) {t : Tables} {state : Heartbeat}
    (h : Cleared t a.now body state) :
    Cleared (heartbeatTurn chars auth body a t state).2 a.now body
      (heartbeatTurn chars auth body a t state).1 := by
  cases state with
  | upsert =>
    simp only [heartbeatTurn, hreply]
    split
    · trivial
    · split
      · next hup => exact node?_of_upsert hup
      · trivial
      · trivial
  | fetch nodeId =>
    obtain ⟨n, hn, rfl⟩ := h
    simp only [heartbeatTurn]
    split_ifs with heligible
    · intro c hc hnode hcommand hpending
      obtain ⟨pending, hget, hmem⟩ := mem_getPendingCommands hn hc hnode hpending
      have hfetched : fetched a.reply t body [] = pending := by
        unfold fetched
        rw [hreply, hget]
      rw [hfetched] at heligible
      have hnone : pending.any (fun c => c.command = "deploy") = false := by
        simp only [autoUpgradeEligible, Bool.and_eq_true, Bool.not_eq_true'] at heligible
        exact heligible.2
      have hall := List.any_eq_false.mp hnone c hmem
      exact hall (decide_eq_true hcommand)
    · exact cleared_finish ..
  | inFlight nodeId pending =>
    simp only [heartbeatTurn, hreply, decide_true, Bool.true_and]
    split_ifs with hflight
    · exact cleared_finish ..
    · rintro c ⟨hc, hnode, hcommand, hpending | ⟨hacked, hsince⟩⟩
      · exact h c hc hnode hcommand hpending
      · apply hflight
        rw [Tables.fleetHasRecentInFlightDeploy, List.any_eq_true]
        exact ⟨c, hc, by simp [hnode, hcommand, hacked, hsince]⟩
  | attempts nodeId pending =>
    simp only [heartbeatTurn, hreply, decide_true, Bool.true_and]
    split_ifs with hbudget
    · exact cleared_finish ..
    · exact ⟨h, by simpa using hbudget⟩
  | queue nodeId pending =>
    simp only [heartbeatTurn]
    split
    · trivial
    · exact cleared_finish ..
    · exact cleared_finish ..
  | refetch nodeId pending => exact cleared_finish ..
  | ack nodeId commands =>
    simp only [heartbeatTurn]
    split <;> trivial
  | responded nodeId commands => trivial
  | raised e => trivial

/-- What holds between the turns: the checks of the current heartbeat, and a log that the table
counts in full and that no window holds too much of. -/
structure Server.Budgeted (s : Server) : Prop where
  cleared : ∀ auth body state, s.current = some (.heartbeat auth body state) →
    Cleared s.tables s.clock body state
  counted : ∀ nodeId (since : Int),
    (s.queued.filter fun q => q.nodeId = nodeId && since ≤ q.createdAt).length ≤
      s.tables.fleetCountRecentDeploysForTarget nodeId minRecommendedPluginVersion since
  bounded : ∀ nodeId (since : Int),
    s.queuedIn nodeId since (since + autoUpgradeAttemptWindow) ≤ autoUpgradeMaxAttempts

theorem budgeted_start (tables : Tables) (clock : ℕ) : (Server.start tables clock).Budgeted where
  cleared _ _ _ h := absurd h (by simp [Server.start])
  counted _ _ := Nat.zero_le _
  bounded _ _ := Nat.zero_le _

theorem queuedIn_le_filter (s : Server) (nodeId : Uuid) (since upTo : Int) :
    s.queuedIn nodeId since upTo ≤
      (s.queued.filter fun q => q.nodeId = nodeId && since ≤ q.createdAt).length := by
  apply List.Sublist.length_le
  apply List.monotone_filter_right
  intro q hq
  simp only [Bool.and_eq_true] at hq ⊢
  exact hq.1

theorem queues_some {s : Server} {a : Answer} {q : Queued} (h : s.queues a = some q) :
    ∃ auth body pending t', s.current = some (.heartbeat auth body (.queue q.nodeId pending)) ∧
      s.tables.fleetAddCommand a.newId a.now auth.tenantId (autoUpgradeCommand body q.nodeId) =
        some t' ∧ q.createdAt = a.now ∧ a.reply ≠ .refused := by
  -- A turn that queues stands before the insert of a heartbeat.
  unfold Server.queues at h
  split at h
  · next auth body nodeId pending hcurrent =>
    split at h
    · exact absurd h (by simp)
    · exact absurd h (by simp)
    · next t' hadd hreply =>
      obtain rfl := Option.some.inj h
      exact ⟨auth, body, pending, t', hcurrent, hadd, rfl, fun hrefused => hreply hrefused⟩
  · exact absurd h (by simp)

theorem cleared_of_queues {s : Server} (hs : s.Budgeted) {a : Answer} (hnow : s.clock ≤ a.now)
    {q : Queued} (hq : s.queues a = some q) :
    (∀ c, ¬ s.tables.Deploying q.nodeId a.now c) ∧
      s.tables.fleetCountRecentDeploysForTarget q.nodeId minRecommendedPluginVersion
        (a.now - autoUpgradeAttemptWindow) < autoUpgradeMaxAttempts := by
  obtain ⟨auth, body, pending, t', hcurrent, -, -, -⟩ := queues_some hq
  exact (hs.cleared auth body _ hcurrent).later hnow

theorem counted_step (chars : CharData) {s : Server} (hs : s.Budgeted) {request : Request}
    (hcurrent : s.current = some request) {a : Answer} (hreply : a.reply = .ok) (nodeId : Uuid)
    (since : Int) :
    ((s.queued ++ (s.queues a).toList).filter fun q =>
      q.nodeId = nodeId && since ≤ q.createdAt).length ≤
      (turn chars a request s.tables).2.fleetCountRecentDeploysForTarget nodeId
        minRecommendedPluginVersion since := by
  have hcount := fleetCount_le_turn chars a request s.tables nodeId minRecommendedPluginVersion since
  have hbefore := hs.counted nodeId since
  rw [List.filter_append, List.length_append]
  cases hq : s.queues a with
  | none => exact hbefore.trans hcount
  | some q =>
    obtain ⟨auth, body, pending, t', hcurrent', hadd, hcreated, -⟩ := queues_some hq
    obtain rfl := Option.some.inj (hcurrent.symm.trans hcurrent')
    have hturn : (turn chars a (.heartbeat auth body (.queue q.nodeId pending)) s.tables).2 = t' := by
      show (heartbeatTurn chars auth body a s.tables (.queue q.nodeId pending)).2 = t'
      simp only [heartbeatTurn, hreply, hadd]
    by_cases hcond : q.nodeId = nodeId ∧ since ≤ q.createdAt
    · obtain ⟨rfl, hsince⟩ := hcond
      rw [hturn, fleetCount_add hadd (hcreated ▸ hsince)]
      have hone : ([q].filter fun q' => q'.nodeId = q.nodeId && since ≤ q'.createdAt).length ≤ 1 :=
        List.length_filter_le _ _
      exact Nat.add_le_add hbefore hone
    · have hnone : ([q].filter fun q' => q'.nodeId = nodeId && since ≤ q'.createdAt) = [] := by
        refine List.filter_cons_of_neg ?_
        simpa using hcond
      rw [Option.toList_some, hnone]
      exact hbefore.trans hcount

theorem bounded_step {s : Server} (hs : s.Budgeted) {a : Answer} (hnow : s.clock ≤ a.now)
    (nodeId : Uuid) (since : Int) :
    ((s.queued ++ (s.queues a).toList).filter fun q => q.nodeId = nodeId &&
      since ≤ q.createdAt && q.createdAt ≤ since + autoUpgradeAttemptWindow).length ≤
        autoUpgradeMaxAttempts := by
  have hbefore := hs.bounded nodeId since
  rw [List.filter_append, List.length_append]
  cases hq : s.queues a with
  | none => exact hbefore
  | some q =>
    obtain ⟨-, hbudget⟩ := cleared_of_queues hs hnow hq
    obtain ⟨-, -, -, -, -, -, hcreated, -⟩ := queues_some hq
    by_cases hcond : q.nodeId = nodeId ∧ q.createdAt ≤ since + autoUpgradeAttemptWindow
    · obtain ⟨rfl, huntil⟩ := hcond
      -- everything that the window holds so far is in the count that the gate has looked at
      have hwindow : s.queuedIn q.nodeId since (since + autoUpgradeAttemptWindow) <
          autoUpgradeMaxAttempts := by
        refine lt_of_le_of_lt ?_ hbudget
        refine (queuedIn_le_filter s q.nodeId since _).trans ((hs.counted q.nodeId since).trans ?_)
        exact fleetCount_anti (by rw [← hcreated]; omega)
      have hone : ([q].filter fun q' => q'.nodeId = q.nodeId && since ≤ q'.createdAt &&
          q'.createdAt ≤ since + autoUpgradeAttemptWindow).length ≤ 1 := List.length_filter_le _ _
      exact (Nat.add_le_add_left hone _).trans hwindow
    · have hnone : ([q].filter fun q' => q'.nodeId = nodeId && since ≤ q'.createdAt &&
          q'.createdAt ≤ since + autoUpgradeAttemptWindow) = [] := by
        refine List.filter_cons_of_neg ?_
        simp only [Bool.and_eq_true, decide_eq_true_eq]
        exact fun h => hcond ⟨h.1.1, h.2⟩
      rw [Option.toList_some, hnone]
      exact hbefore

theorem step_budgeted (chars : CharData) (s : Server) (e : Event) (hs : s.Budgeted)
    (he : s.Sequential e) : (s.step chars e).Budgeted := by
  cases e with
  | accept request =>
    refine ⟨fun auth body state h => ?_, hs.counted, hs.bounded⟩
    obtain rfl := Option.some.inj h
    cases state with
    | upsert => trivial
    | _ => exact absurd he (by simp [Server.Sequential, Request.fresh])
  | answer a =>
    obtain ⟨hreply, hnow⟩ := he
    dsimp only [Server.step]
    split
    · next hcurrent =>
      exact ⟨fun auth body state h => absurd (hcurrent.symm.trans h) (by simp), hs.counted,
        hs.bounded⟩
    · next request hcurrent =>
      refine ⟨fun auth body state h => ?_, counted_step chars hs hcurrent hreply,
        bounded_step hs hnow⟩
      cases request with
      | heartbeat auth' body' state' =>
        have hcleared := (hs.cleared auth' body' state' hcurrent).later hnow
        injection Option.some.inj h with hauth hbody hstate
        subst hauth hbody hstate
        exact heartbeatTurn_cleared chars _ _ hreply hcleared
      | commandResult auth' body' state' => exact absurd (Option.some.inj h) (by simp [turn])
      | createCommand auth' body' state' => exact absurd (Option.some.inj h) (by simp [turn])

/-- A turn queues a deploy for no node that still has one under way. -/
def Server.Waits (s : Server) : Event → Prop
  | .accept _ => True
  | .answer a => ∀ q, s.queues a = some q → ∀ c, ¬ s.tables.Deploying q.nodeId a.now c

/-- In every window of a run the auto-upgrade queues at most its budget for a node, and it queues
nothing while a deploy of that node is pending, or acked and recent. -/
theorem autoUpgrade_budget (chars : CharData) (tables : Tables) (clock : ℕ) (events : List Event)
    (h : Along (Server.step chars) Server.Sequential (.start tables clock) events) :
    (∀ nodeId (since : Int), (run (Server.step chars) (.start tables clock) events).queuedIn nodeId
      since (since + autoUpgradeAttemptWindow) ≤ autoUpgradeMaxAttempts) ∧
      Along (Server.step chars) Server.Waits (.start tables clock) events := by
  constructor
  · exact (h.invariant (step_budgeted chars) (budgeted_start tables clock)).bounded
  · refine h.mono (step_budgeted chars) (fun s e hs he => ?_) (budgeted_start tables clock)
    cases e with
    | accept request => trivial
    | answer a => exact fun q hq => (cleared_of_queues hs he.2 hq).1

def outdatedBeat (now k : ℕ) : List Event :=
  .accept (.heartbeat (AuthContext.ofTenant "t") ⟨"t", "n", some "2.10.0", none⟩ .upsert) ::
    List.replicate 7 (.answer ⟨.ok, now, numbered k, true⟩)

def stuckNode : List Event :=
  outdatedBeat 1 1 ++
    [.accept (.commandResult (AuthContext.ofTenant "t") ⟨numbered 1, "done", none⟩ .pending),
      .answer ⟨.ok, 2, numbered 1, true⟩] ++ outdatedBeat 3 2

def noTables : Tables := ⟨[], [], fun _ => none, List.nodup_nil, List.nodup_nil⟩

theorem autoUpgrade_budget_stuck :
    (run (Server.step CharData.ascii) (.start noTables 0) stuckNode).queued.length = 2 ∧
      (run (Server.step CharData.ascii) (.start noTables 0) stuckNode).queuedIn (numbered 1) 0
        (0 + autoUpgradeAttemptWindow) ≤ autoUpgradeMaxAttempts :=
  ⟨by decide,
    (autoUpgrade_budget CharData.ascii noTables 0 stuckNode (by decide)).1 (numbered 1) 0⟩

end Memclaw.Fleet

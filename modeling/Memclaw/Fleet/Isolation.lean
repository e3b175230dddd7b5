import Memclaw.Fleet.Turn

/-! Tenant isolation of the command channel. Queueing a command asks no gate, so a caller
chooses both the node and the tenant that a command is stamped with; everything else in
the channel keeps to the tenant of the node. -/

namespace Memclaw.Fleet

open Memclaw.Lib Memclaw.Lib.Interleave Memclaw.Api

def ChangesOwn (auth : AuthContext) (t t' : Tables) : Prop :=
  ∀ c ∈ t.commands, ∀ c' ∈ t'.commands, c'.id = c.id →
    (c'.status ≠ c.status ∨ c'.result ≠ c.result) → auth.tenantId = some c.tenantId

/-- Every command in a response was queued by a caller of the tenant of the node. -/
def DeliversOwn (t : Tables) : Request → Prop
  | .heartbeat _ _ (.responded nodeId commands) =>
    ∃ n ∈ t.nodes, n.id = nodeId ∧ ∀ x ∈ commands, t.createdBy x.id = some n.tenantId
  | _ => True

section Pools

variable {ι : Type} [DecidableEq ι] (chars : CharData)

def IsolationLaw (pool : Pool ι Tables Request) (events : List (ι × Answer)) : Prop :=
  Along (Pool.step (turn chars)) (fun p e =>
      ChangesOwn (p.parties e.1).auth p.shared (p.step (turn chars) e).shared) pool events ∧
    ∀ i, DeliversOwn (run (Pool.step (turn chars)) pool events).shared
      ((run (Pool.step (turn chars)) pool events).parties i)

def Request.queuing : Request → Option CommandIn
  | .createCommand _ body .pending => some body
  | _ => none

def Request.reporting : Request → Bool
  | .commandResult _ _ .pending => true
  | _ => false

/-- A queued command is stamped with the caller's tenant and goes to a node of that tenant;
a reporting caller has a tenant. -/
def WithinTenant (pool : Pool ι Tables Request) (event : ι × Answer) : Prop :=
  let r := pool.parties event.1
  (∀ body ∈ r.queuing, body.tenant r.auth = r.auth.tenantId ∧
    ∀ n ∈ pool.shared.nodes, n.id = body.nodeId → r.auth.tenantId = some n.tenantId) ∧
  (r.reporting = true → r.auth.tenantId ≠ none)

instance (pool : Pool ι Tables Request) (event : ι × Answer) : Decidable (WithinTenant pool event) :=
  inferInstanceAs (Decidable (_ ∧ _))

end Pools

def Stamped (t : Tables) : Prop :=
  ∀ c ∈ t.commands, t.createdBy c.id = some c.tenantId ∧
    ∃ n ∈ t.nodes, n.id = c.nodeId ∧ n.tenantId = c.tenantId

def Owned (t : Tables) (tenantId : String) (id : Uuid) : Prop :=
  t.createdBy id = some tenantId ∧ ∃ c ∈ t.commands, c.id = id

def HoldsOwn (t : Tables) : Request → Prop
  | .heartbeat auth body state =>
    (∀ nodeId ∈ state.node?, auth.tenantId = some body.tenantId ∧
      ∃ n ∈ t.nodes, n.id = nodeId ∧ n.tenantId = body.tenantId) ∧
    (∀ c ∈ (Request.heartbeat auth body state).carried, Owned t body.tenantId c.id) ∧
    ∀ x ∈ (Request.heartbeat auth body state).handedOut, Owned t body.tenantId x.id
  | _ => True

def Grows (t t' : Tables) : Prop :=
  t.nodes ⊆ t'.nodes ∧ ∀ c ∈ t.commands, (∃ c' ∈ t'.commands, c'.id = c.id) ∧
    t'.createdBy c.id = t.createdBy c.id

theorem Owned.mono {t t' : Tables} (h : Grows t t') {tenantId : String} {id : Uuid}
    (ho : Owned t tenantId id) : Owned t' tenantId id := by
  obtain ⟨hby, c, hc, rfl⟩ := ho
  obtain ⟨hstays, hsame⟩ := h.2 c hc
  exact ⟨hsame.trans hby, hstays⟩

theorem HoldsOwn.mono {t t' : Tables} (h : Grows t t') {r : Request} (hr : HoldsOwn t r) :
    HoldsOwn t' r := by
  cases r with
  | heartbeat auth body state =>
    obtain ⟨hnode, hcarried, hout⟩ := hr
    refine ⟨fun nodeId hstate => ?_, fun c hc => (hcarried c hc).mono h,
      fun x hx => (hout x hx).mono h⟩
    obtain ⟨htenant, n, hn, heq⟩ := hnode nodeId hstate
    exact ⟨htenant, n, h.1 hn, heq⟩
  | commandResult auth body state => trivial
  | createCommand auth body state => trivial

theorem grows_mapCommands (t : Tables) (f : FleetCommand → FleetCommand)
    (hid : ∀ c, (f c).id = c.id) : Grows t (t.mapCommands f hid) :=
  ⟨List.Subset.refl _, fun c hc => ⟨⟨f c, List.mem_map_of_mem hc, hid c⟩, rfl⟩⟩

theorem upsert_cases {t t' : Tables} {newId nodeId : Uuid} {tenantId nodeName : String}
    (h : t.fleetUpsertNode newId tenantId nodeName = some (t', nodeId)) :
    t'.commands = t.commands ∧ t'.createdBy = t.createdBy ∧ t.nodes ⊆ t'.nodes ∧
      ∃ n ∈ t'.nodes, n.id = nodeId ∧ n.tenantId = tenantId := by
  unfold Tables.fleetUpsertNode at h
  split at h
  · next n hfind =>
    simp only [Option.some.injEq, Prod.mk.injEq] at h
    obtain ⟨rfl, rfl⟩ := h
    have htenant := List.find?_some hfind
    simp only [Bool.and_eq_true, decide_eq_true_eq] at htenant
    exact ⟨rfl, rfl, List.Subset.refl _, n, List.mem_of_find?_eq_some hfind, rfl, htenant.1⟩
  · split_ifs at h
    simp only [Option.some.injEq, Prod.mk.injEq] at h
    obtain ⟨rfl, rfl⟩ := h
    exact ⟨rfl, rfl, List.subset_append_left _ _, _, List.mem_append_right _ (List.mem_singleton_self _),
      rfl, rfl⟩

theorem add_cases {t t' : Tables} {newId : Uuid} {now : ℕ} {caller : Option String}
    {data : NewCommand} (h : t.fleetAddCommand newId now caller data = some t') :
    ∃ tenantId, data.tenantId = some tenantId ∧ (∃ n ∈ t.nodes, n.id = data.nodeId) ∧
      (¬ ∃ c ∈ t.commands, c.id = newId) ∧ t'.nodes = t.nodes ∧
      t'.commands = t.commands ++ [⟨newId, tenantId, data.nodeId, data.command, data.payload,
        "pending", none, now, none, none⟩] ∧
      t'.createdBy = fun id => if id = newId then caller else t.createdBy id := by
  unfold Tables.fleetAddCommand at h
  split at h
  · simp at h
  · next tenantId htenant =>
    split_ifs at h with hnode hnew
    simp only [Option.some.injEq] at h
    subst h
    obtain ⟨n, hn, hid⟩ := List.any_eq_true.mp hnode
    exact ⟨tenantId, htenant, ⟨n, hn, by simpa using hid⟩, hnew, rfl, rfl, rfl⟩

theorem writes_grows {a : Answer} {t t' : Tables} {r : Request} (h : Writes a t r t') :
    Grows t t' := by
  cases h with
  | nothing => exact ⟨List.Subset.refl _, fun c hc => ⟨⟨c, hc, rfl⟩, rfl⟩⟩
  | node auth body hauth hup =>
    obtain ⟨hcommands, hby, hnodes, _⟩ := upsert_cases hup
    refine ⟨hnodes, fun c hc => ⟨⟨c, ?_, rfl⟩, by rw [hby]⟩⟩
    rwa [hcommands]
  | insert _ data hdata hadd =>
    obtain ⟨tenantId, _, _, hnew, hnodes, hcommands, hby⟩ := add_cases hadd
    refine ⟨hnodes ▸ List.Subset.refl _, fun c hc => ⟨⟨c, ?_, rfl⟩, ?_⟩⟩
    · rw [hcommands]
      exact List.mem_append_left _ hc
    · have hne : c.id ≠ a.newId := fun heq => hnew ⟨c, hc, heq⟩
      simp [hby, hne]
  | ack auth body nodeId commands hreply => exact grows_mapCommands _ _ (FleetCommand.ack_id _ _)
  | result auth body hauth hreply => exact grows_mapCommands _ _ (FleetCommand.update_id _ _ _ _ _)

theorem stamped_mapCommands {t : Tables} {f : FleetCommand → FleetCommand}
    (hid : ∀ c, (f c).id = c.id) (hkeep : ∀ c, (f c).tenantId = c.tenantId ∧ (f c).nodeId = c.nodeId)
    (h : Stamped t) : Stamped (t.mapCommands f hid) := by
  intro c hc
  obtain ⟨c₀, hc₀, rfl⟩ := List.mem_map.mp hc
  rw [hid, (hkeep c₀).1, (hkeep c₀).2]
  exact h c₀ hc₀

theorem ack_keeps (ids : List Uuid) (now : ℕ) (c : FleetCommand) :
    (c.ack ids now).tenantId = c.tenantId ∧ (c.ack ids now).nodeId = c.nodeId := by
  unfold FleetCommand.ack
  split_ifs <;> exact ⟨rfl, rfl⟩

theorem update_keeps (commandId : Uuid) (status : String) (tenantId : Option String)
    (result : Option Json) (now : ℕ) (c : FleetCommand) :
    (c.update commandId status tenantId result now).tenantId = c.tenantId ∧
      (c.update commandId status tenantId result now).nodeId = c.nodeId := by
  unfold FleetCommand.update FleetCommand.complete
  split_ifs <;> exact ⟨rfl, rfl⟩

theorem node_unique {t : Tables} {n n' : FleetNode} (hn : n ∈ t.nodes) (hn' : n' ∈ t.nodes)
    (h : n.id = n'.id) : n = n' := List.inj_on_of_nodup_map t.nodeIds_nodup hn hn' h

theorem command_unique {t : Tables} {c c' : FleetCommand} (hc : c ∈ t.commands)
    (hc' : c' ∈ t.commands) (h : c.id = c'.id) : c = c' :=
  List.inj_on_of_nodup_map t.commandIds_nodup hc hc' h

theorem owned_of_pending {t : Tables} (h : Stamped t) {tenantId nodeName : String}
    {c : FleetCommand} (hc : t.PendingFor tenantId nodeName c) : Owned t tenantId c.id := by
  obtain ⟨n, hfind, hin, hnode, _⟩ := hc
  obtain ⟨hby, n', hn', hid, htenant⟩ := h c hin
  have hn := List.mem_of_find?_eq_some hfind
  have hcond := List.find?_some hfind
  simp only [Bool.and_eq_true, decide_eq_true_eq] at hcond
  have heq : n = n' := node_unique hn hn' (hnode.symm.trans hid.symm)
  refine ⟨?_, c, hin, rfl⟩
  rw [hby, ← htenant, ← heq, hcond.1]

section Step

variable {ι : Type} {pool : Pool ι Tables Request} {event : ι × Answer}

theorem writes_stamped (hok : WithinTenant pool event) (h : Stamped pool.shared)
    (hown : HoldsOwn pool.shared (pool.parties event.1)) {t' : Tables}
    (hw : Writes event.2 pool.shared (pool.parties event.1) t') : Stamped t' := by
  have hg := writes_grows hw
  unfold WithinTenant at hok
  generalize pool.parties event.1 = r at *
  cases hw with
  | nothing => exact h
  | node auth body hauth hup =>
    obtain ⟨hcommands, hby, hnodes, _⟩ := upsert_cases hup
    intro c hc
    rw [hcommands] at hc
    obtain ⟨hstamp, n, hn, heq⟩ := h c hc
    exact ⟨by rw [hby, hstamp], n, hnodes hn, heq⟩
  | insert _ data hdata hadd =>
    obtain ⟨tenantId, htenant, ⟨n, hn, hid⟩, hnew, hnodes, hcommands, hby⟩ := add_cases hadd
    intro c hc
    rw [hcommands] at hc
    rcases List.mem_append.mp hc with hold | hlast
    · obtain ⟨hstamp, n', hn', heq⟩ := h c hold
      exact ⟨(hg.2 c hold).2.trans hstamp, n', hnodes ▸ hn', heq⟩
    · -- the new command: caller, stamp and node agree, by the condition or by the gate
      rw [List.mem_singleton.mp hlast]
      have hagree : r.auth.tenantId = some tenantId ∧ n.tenantId = tenantId := by
        cases r with
        | heartbeat auth body state =>
          cases state <;> simp only [Request.inserts, reduceCtorEq, Option.some.injEq] at hdata
          subst hdata
          simp only [autoUpgradeCommand, Option.some.injEq] at htenant hid
          subst htenant
          obtain ⟨hauth, n', hn', hid', htenant'⟩ := hown.1 _ rfl
          rw [node_unique hn hn' (hid.trans hid'.symm)]
          exact ⟨hauth, htenant'⟩
        | commandResult auth body state => simp [Request.inserts] at hdata
        | createCommand auth body state =>
          cases state <;> simp only [Request.inserts, reduceCtorEq, Option.some.injEq] at hdata
          subst hdata
          obtain ⟨hstamp, hnode⟩ := hok.1 body rfl
          have hcaller : auth.tenantId = some tenantId := hstamp.symm.trans htenant
          have hsame : auth.tenantId = some n.tenantId := hnode n hn hid
          exact ⟨hcaller, Option.some.inj (hsame.symm.trans hcaller)⟩
      refine ⟨?_, n, hnodes ▸ hn, hid, hagree.2⟩
      simp [hby, hagree.1]
  | ack auth body nodeId commands hreply =>
    exact stamped_mapCommands (FleetCommand.ack_id _ _) (ack_keeps _ _) h
  | result auth body hauth hreply =>
    exact stamped_mapCommands (FleetCommand.update_id _ _ _ _ _) (update_keeps _ _ _ _ _) h

theorem changesOwn_of_subset {auth : AuthContext} {t t' : Tables} (h : t.commands ⊆ t'.commands) :
    ChangesOwn auth t t' := by
  intro c hc c' hc' hid hne
  have heq : c' = c := command_unique hc' (h hc) hid
  simp [heq] at hne

theorem changesOwn_mapCommands {auth : AuthContext} {t : Tables} {f : FleetCommand → FleetCommand}
    (hid : ∀ c, (f c).id = c.id) (h : ∀ c ∈ t.commands, f c = c ∨ auth.tenantId = some c.tenantId) :
    ChangesOwn auth t (t.mapCommands f hid) := by
  intro c hc c' hc' heq hne
  obtain ⟨c₀, hc₀, rfl⟩ := List.mem_map.mp hc'
  have hsame : c₀ = c := command_unique hc₀ hc ((hid c₀).symm.trans heq)
  subst hsame
  rcases h c₀ hc₀ with hfix | hown
  · simp [hfix] at hne
  · exact hown

theorem writes_changesOwn (hok : WithinTenant pool event) (h : Stamped pool.shared)
    (hown : HoldsOwn pool.shared (pool.parties event.1)) {t' : Tables}
    (hw : Writes event.2 pool.shared (pool.parties event.1) t') :
    ChangesOwn (pool.parties event.1).auth pool.shared t' := by
  unfold WithinTenant at hok
  generalize pool.parties event.1 = r at *
  cases hw with
  | nothing => exact changesOwn_of_subset (List.Subset.refl _)
  | node auth body hauth hup =>
    exact changesOwn_of_subset ((upsert_cases hup).1 ▸ List.Subset.refl _)
  | insert _ data hdata hadd =>
    obtain ⟨_, _, _, _, _, hcommands, _⟩ := add_cases hadd
    exact changesOwn_of_subset (hcommands ▸ List.subset_append_left _ _)
  | ack auth body nodeId commands hreply =>
    refine changesOwn_mapCommands (FleetCommand.ack_id _ _) fun c hc => ?_
    by_cases hin : c.id ∈ commands.map (·.id)
    · right
      obtain ⟨x, hx, hid⟩ := List.mem_map.mp hin
      obtain ⟨hby, _⟩ := hown.2.1 x hx
      have hstamp := (h c hc).1
      rw [← hid, hby] at hstamp
      exact (hown.1 nodeId rfl).1.trans hstamp
    · left
      unfold FleetCommand.ack
      rw [if_neg hin]
  | result auth body hauth hreply =>
    refine changesOwn_mapCommands (FleetCommand.update_id _ _ _ _ _) fun c hc => ?_
    by_cases hmatch : c.matchesResult body.commandId auth.tenantId = true
    · right
      have hsome := hok.2 rfl
      obtain ⟨tenantId, htenant⟩ := Option.ne_none_iff_exists'.mp hsome
      have hauth' : auth.tenantId = some tenantId := htenant
      simp only [FleetCommand.matchesResult, hauth', Option.all_some, Bool.and_eq_true,
        decide_eq_true_eq] at hmatch
      rw [← hmatch.2]
      exact hauth'
    · left
      unfold FleetCommand.update
      rw [if_neg hmatch]

theorem heartbeatTurn_holdsOwn (chars : CharData) {auth : AuthContext} {body : HeartbeatIn}
    {a : Answer} {t : Tables} {state : Heartbeat} (hadmin : auth.isAdmin = false) (h : Stamped t)
    (hr : HoldsOwn t (.heartbeat auth body state)) :
    HoldsOwn (heartbeatTurn chars auth body a t state).2
      (.heartbeat auth body (heartbeatTurn chars auth body a t state).1) := by
  have hg : Grows t (heartbeatTurn chars auth body a t state).2 :=
    writes_grows (heartbeatTurn_writes chars auth body a t state)
  have hnode : ∀ nodeId ∈ (heartbeatTurn chars auth body a t state).1.node?,
      auth.tenantId = some body.tenantId ∧
        ∃ n ∈ (heartbeatTurn chars auth body a t state).2.nodes,
          n.id = nodeId ∧ n.tenantId = body.tenantId := by
    by_cases hup : state = .upsert
    · subst hup
      simp only [heartbeatTurn]
      split
      · simp [Heartbeat.node?]
      · next hauth =>
        have htenant := AuthContext.tenant_of_enforceTenant hadmin hauth
        split
        · next hupsert =>
          intro nodeId hmem
          obtain rfl : _ = nodeId := by simpa [Heartbeat.node?] using hmem
          exact ⟨htenant, (upsert_cases hupsert).2.2.2⟩
        · simp [Heartbeat.node?]
        · simp [Heartbeat.node?]
    · -- past the gate the node never changes
      intro nodeId hmem
      exact (hr.mono hg).1 nodeId (heartbeatTurn_node? chars auth body a t hup hmem)
  refine ⟨hnode, fun c hc => ?_, ?_⟩
  · rcases heartbeatTurn_carried chars auth body a t state hc with hold | hpending
    · exact (hr.2.1 c hold).mono hg
    · exact (owned_of_pending h hpending).mono hg
  · rcases heartbeatTurn_handedOut chars auth body a t state with hnone | hsame | hdone
    · rw [hnone]
      simp
    · rw [hsame]
      exact (hr.mono hg).2.2
    · obtain ⟨nodeId, commands, rfl, _, hturn⟩ := hdone
      rw [hturn] at hg ⊢
      intro x hx
      obtain ⟨c, hc, rfl⟩ := List.mem_map.mp hx
      exact (hr.2.1 c hc).mono hg

end Step

section Runs

variable {ι : Type} [DecidableEq ι] (chars : CharData)

def IsolationInv (pool : Pool ι Tables Request) : Prop :=
  pool.Holds Stamped (fun _ r t => r.auth.isAdmin = false ∧ HoldsOwn t r) fun _ _ => True

theorem turn_holdsOwn {a : Answer} {t : Tables} {r : Request} (hadmin : r.auth.isAdmin = false)
    (h : Stamped t) (hr : HoldsOwn t r) :
    (turn chars a r t).1.auth.isAdmin = false ∧ HoldsOwn (turn chars a r t).2 (turn chars a r t).1 := by
  cases r with
  | heartbeat auth body state => exact ⟨hadmin, heartbeatTurn_holdsOwn chars hadmin h hr⟩
  | commandResult auth body state => exact ⟨hadmin, trivial⟩
  | createCommand auth body state => exact ⟨hadmin, trivial⟩

theorem step_isolationInv (pool : Pool ι Tables Request) (event : ι × Answer)
    (h : IsolationInv pool) (hok : WithinTenant pool event) :
    IsolationInv (pool.step (turn chars) event) := by
  have hw := turn_writes chars event.2 (pool.parties event.1) pool.shared
  obtain ⟨hadmin, hown⟩ := h.own event.1
  refine Pool.Holds.step h event _ rfl (writes_stamped hok h.shared hown hw)
    (turn_holdsOwn chars hadmin h.shared hown) (fun j _ => ?_) fun _ _ => ⟨trivial, trivial⟩
  exact ⟨(h.own j).1, (h.own j).2.mono (writes_grows hw)⟩

theorem delivers_of_holdsOwn {t : Tables} {r : Request} (h : HoldsOwn t r) : DeliversOwn t r := by
  unfold DeliversOwn
  split
  · obtain ⟨hnode, _, hout⟩ := h
    obtain ⟨_, n, hn, hid, htenant⟩ := hnode _ rfl
    exact ⟨n, hn, hid, fun x hx => htenant ▸ (hout x hx).1⟩
  · trivial

/-- In every interleaving of non-admin requests in which commands are queued within the
caller's tenant, nodes get commands of their own tenant only, and a caller changes
commands of its own tenant only. -/
theorem isolation_of_within_tenant (pool : Pool ι Tables Request) (hstart : Stamped pool.shared)
    (hadmin : ∀ i, (pool.parties i).auth.isAdmin = false)
    (hfresh : ∀ i, (pool.parties i).fresh = true) (events : List (ι × Answer))
    (h : Along (Pool.step (turn chars)) WithinTenant pool events) :
    IsolationLaw chars pool events := by
  have hinv : IsolationInv pool := by
    refine ⟨hstart, fun i => ⟨hadmin i, ?_⟩, fun _ _ _ => trivial⟩
    have hfresh := hfresh i
    generalize pool.parties i = r at hfresh
    unfold Request.fresh at hfresh
    split at hfresh
    · simp [HoldsOwn, Heartbeat.node?, Request.carried, Request.handedOut]
    · trivial
    · trivial
    · simp at hfresh
  constructor
  · refine Along.mono (step_isolationInv chars) (fun p e hp hok => ?_) hinv h
    exact writes_changesOwn hok hp.shared (hp.own e.1).2 (turn_writes chars _ _ _)
  · intro i
    exact delivers_of_holdsOwn ((Along.invariant (step_isolationInv chars) hinv h).own i).2

end Runs

def crossPool (caller : String) (stamp : Option String) : Pool ℕ Tables Request where
  shared := {
    nodes := [⟨numbered 1, "a", "n"⟩]
    commands := []
    createdBy := fun _ => none
    nodeIds_nodup := List.nodup_singleton _
    commandIds_nodup := List.nodup_nil }
  parties := fun i =>
    if i = 0 then
      .createCommand (AuthContext.ofTenant caller) ⟨stamp, numbered 1, "ping", none⟩ .pending
    else .heartbeat (AuthContext.ofTenant "a") ⟨"a", "n", none, none⟩ .upsert

def queueThenHeartbeat : List (ℕ × Answer) := [0, 1, 1, 1].map fun i => (i, answered)

theorem crossPool_fresh (caller : String) (stamp : Option String) (i : ℕ) :
    ((crossPool caller stamp).parties i).fresh = true ∧
      ((crossPool caller stamp).parties i).auth.isAdmin = false := by
  simp only [crossPool]
  split_ifs <;> exact ⟨rfl, rfl⟩

theorem isolation_within_one_tenant :
    IsolationLaw CharData.ascii (crossPool "a" none) queueThenHeartbeat :=
  isolation_of_within_tenant CharData.ascii _ (by intro c hc; simp [crossPool] at hc)
    (fun i => (crossPool_fresh _ _ i).2) (fun i => (crossPool_fresh _ _ i).1) _ (by decide)

/-- The node of `a` is handed a command that a caller of `b` queued. -/
theorem foreign_command_is_delivered :
    (∀ i, ((crossPool "b" none).parties i).fresh = true ∧
      ((crossPool "b" none).parties i).auth.isAdmin = false) ∧
    ¬ IsolationLaw CharData.ascii (crossPool "b" none) queueThenHeartbeat := by
  refine ⟨crossPool_fresh _ _, fun hlaw => ?_⟩
  have hend : ∃ n ∈ (run (Pool.step (turn CharData.ascii)) (crossPool "b" none)
        queueThenHeartbeat).shared.nodes, n.id = numbered 1 ∧ ∀ x ∈ [numbered 3],
      (run (Pool.step (turn CharData.ascii)) (crossPool "b" none) queueThenHeartbeat).shared.createdBy x
        = some n.tenantId := by
    obtain ⟨n, hn, hid, hby⟩ := hlaw.2 1
    exact ⟨n, hn, hid, fun x hx => List.mem_singleton.mp hx ▸ hby _ List.mem_cons_self⟩
  revert hend
  decide

end Memclaw.Fleet

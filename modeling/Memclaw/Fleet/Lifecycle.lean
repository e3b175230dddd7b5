import Memclaw.Fleet.Turn

/-! The lifecycle of a command under concurrent heartbeats and results. Neither the ack nor
the result looks at the stored status, so the law holds along a run exactly as far as
every ack still finds its commands pending and every result a command to complete. -/

namespace Memclaw.Fleet

open Memclaw.Lib Memclaw.Lib.Interleave Memclaw.Api

def Forward (status status' : String) : Prop :=
  status' = status ∨ (status = "pending" ∧ status' ∈ ["acked", "done", "failed"]) ∨
    (status = "acked" ∧ status' ∈ ["done", "failed"])

instance (status status' : String) : Decidable (Forward status status') :=
  inferInstanceAs (Decidable (_ ∨ _ ∨ _))

def StatusesForward (t t' : Tables) : Prop :=
  ∀ c ∈ t.commands, ∃ c' ∈ t'.commands, c'.id = c.id ∧ Forward c.status c'.status

instance (t t' : Tables) : Decidable (StatusesForward t t') :=
  inferInstanceAs (Decidable (∀ c ∈ t.commands, ∃ c' ∈ t'.commands, _ ∧ _))

section Pools

variable {ι : Type} [DecidableEq ι] (chars : CharData)

abbrev FleetPool (ι : Type) := Pool ι Tables Request

def HandedOutOnce (pool : FleetPool ι) : Prop :=
  ∀ i j, i ≠ j → ∀ x ∈ (pool.parties i).handedOut, ∀ y ∈ (pool.parties j).handedOut, x.id ≠ y.id

/-- The law of a run: its steps move statuses forward, and no command is handed out twice. -/
def LifecycleLaw (pool : FleetPool ι) (events : List (ι × Answer)) : Prop :=
  Along (Pool.step (turn chars)) (fun p e =>
      StatusesForward p.shared (p.step (turn chars) e).shared) pool events ∧
    HandedOutOnce (run (Pool.step (turn chars)) pool events)

def Request.acking (a : Answer) : Request → List Uuid
  | .heartbeat _ _ (.ack _ commands) => if a.reply = .refused then [] else commands.map (·.id)
  | _ => []

def Request.completing (a : Answer) (c : FleetCommand) : Request → Option String
  | .commandResult auth body .pending =>
    if auth.enforceReadOnly.isOk && a.reply ≠ .refused &&
        c.matchesResult body.commandId auth.tenantId then
      some body.status
    else none
  | _ => none

/-- An ack finds every command of its list pending. A result is done or failed, and finds
its command pending, acked or with this status. -/
def Undisturbed (pool : FleetPool ι) (event : ι × Answer) : Prop :=
  ∀ c ∈ pool.shared.commands,
    (c.id ∈ (pool.parties event.1).acking event.2 → c.status = "pending") ∧
    ∀ status ∈ (pool.parties event.1).completing event.2 c,
      status ∈ ["done", "failed"] ∧ c.status ∈ ["pending", "acked", status]

instance (pool : FleetPool ι) (event : ι × Answer) : Decidable (Undisturbed pool event) :=
  inferInstanceAs (Decidable (∀ c ∈ pool.shared.commands, _ ∧ _))

theorem Forward.refl (status : String) : Forward status status := .inl rfl

theorem Forward.ne_pending {status status' : String} (h : Forward status status')
    (hne : status ≠ "pending") : status' ≠ "pending" := by
  rcases h with rfl | ⟨hpending, _⟩ | ⟨_, hlater⟩
  · exact hne
  · exact absurd hpending hne
  · intro heq
    rw [heq] at hlater
    simp at hlater

theorem statusesForward_of_subset {t t' : Tables} (h : t.commands ⊆ t'.commands) :
    StatusesForward t t' := fun c hc => ⟨c, h hc, rfl, Forward.refl _⟩

theorem statusesForward_mapCommands {t : Tables} {f : FleetCommand → FleetCommand}
    (hid : ∀ c, (f c).id = c.id) (h : ∀ c ∈ t.commands, Forward c.status (f c).status) :
    StatusesForward t (t.mapCommands f hid) :=
  fun c hc => ⟨f c, List.mem_map_of_mem hc, hid c, h c hc⟩

theorem commands_subset_of_add {t t' : Tables} {newId : Uuid} {now : ℕ} {caller : Option String}
    {data : NewCommand} (h : t.fleetAddCommand newId now caller data = some t') :
    t.commands ⊆ t'.commands := by
  unfold Tables.fleetAddCommand at h
  split at h
  · simp at h
  · split_ifs at h
    simp only [Option.some.injEq] at h
    subst h
    exact List.subset_append_left _ _

theorem commands_of_upsert {t t' : Tables} {newId nodeId : Uuid} {tenantId nodeName : String}
    (h : t.fleetUpsertNode newId tenantId nodeName = some (t', nodeId)) :
    t'.commands = t.commands := by
  unfold Tables.fleetUpsertNode at h
  split at h
  · simp only [Option.some.injEq, Prod.mk.injEq] at h
    rw [h.1]
  · split_ifs at h
    simp only [Option.some.injEq, Prod.mk.injEq] at h
    rw [← h.1]

theorem status_ack (ids : List Uuid) (now : ℕ) (c : FleetCommand) :
    (c.ack ids now).status = if c.id ∈ ids then "acked" else c.status := by
  unfold FleetCommand.ack
  split_ifs <;> rfl

theorem status_complete (status : String) (result : Option Json) (now : ℕ) (c : FleetCommand) :
    (c.complete status result now).status = status := by
  unfold FleetCommand.complete
  split_ifs with h
  · exact h.symm
  · rfl

theorem step_forward {pool : FleetPool ι} {event : ι × Answer} (hok : Undisturbed pool event) :
    StatusesForward pool.shared (pool.step (turn chars) event).shared := by
  have hw : Writes event.2 pool.shared (pool.parties event.1)
    (pool.step (turn chars) event).shared := turn_writes chars _ _ _
  revert hw hok
  unfold Undisturbed
  generalize (pool.step (turn chars) event).shared = t'
  generalize pool.parties event.1 = r
  intro hok hw
  cases hw with
  | nothing => exact statusesForward_of_subset (List.Subset.refl _)
  | node auth body hauth hup =>
    exact statusesForward_of_subset (commands_of_upsert hup ▸ List.Subset.refl _)
  | insert _ data hdata hadd => exact statusesForward_of_subset (commands_subset_of_add hadd)
  | ack auth body nodeId commands hreply =>
    refine statusesForward_mapCommands (FleetCommand.ack_id _ _) fun c hc => ?_
    rw [status_ack]
    split_ifs with hin
    · have hpending : c.status = "pending" := by
        apply (hok c hc).1
        simpa only [Request.acking, if_neg hreply] using hin
      rw [hpending]
      exact .inr (.inl ⟨rfl, by simp⟩)
    · exact Forward.refl _
  | result auth body hauth hreply =>
    refine statusesForward_mapCommands (FleetCommand.update_id _ _ _ _ _) fun c hc => ?_
    unfold FleetCommand.update
    split_ifs with hmatch
    · obtain ⟨hlast, hstored⟩ := (hok c hc).2 body.status (by
        simp [Request.completing, hauth, hreply, hmatch, Except.isOk, Except.toBool])
      rw [status_complete]
      rcases List.mem_cons.mp hstored with hpending | hstored
      · exact .inr (.inl ⟨hpending, List.mem_cons_of_mem _ hlast⟩)
      rcases List.mem_cons.mp hstored with hacked | hsame
      · exact .inr (.inr ⟨hacked, hlast⟩)
      · exact .inl (List.mem_singleton.mp hsame).symm
    · exact Forward.refl _

def Keeps (r : Request) (t : Tables) : Prop :=
  (∀ x ∈ r.carried, ∃ c ∈ t.commands, c.id = x.id) ∧
    ∀ x ∈ r.handedOut, ∃ c ∈ t.commands, c.id = x.id ∧ c.status ≠ "pending"

def Disjoint (r s : Request) : Prop := ∀ x ∈ r.handedOut, ∀ y ∈ s.handedOut, x.id ≠ y.id

theorem Disjoint.symm {r s : Request} (h : Disjoint r s) : Disjoint s r :=
  fun x hx y hy heq => h y hy x hx heq.symm

theorem Keeps.mono {r : Request} {t t' : Tables} (h : Keeps r t) (hf : StatusesForward t t') :
    Keeps r t' := by
  refine ⟨fun x hx => ?_, fun x hx => ?_⟩
  · obtain ⟨c, hc, hid⟩ := h.1 x hx
    obtain ⟨c', hc', hid', _⟩ := hf c hc
    exact ⟨c', hc', hid'.trans hid⟩
  · obtain ⟨c, hc, hid, hne⟩ := h.2 x hx
    obtain ⟨c', hc', hid', hforward⟩ := hf c hc
    exact ⟨c', hc', hid'.trans hid, hforward.ne_pending hne⟩

theorem Keeps.of_nothing {r : Request} (hcarried : r.carried = []) (hout : r.handedOut = [])
    (t : Tables) : Keeps r t := by
  constructor
  · simp [hcarried]
  · simp [hout]

theorem keeps_heartbeat {auth : AuthContext} {body : HeartbeatIn} {a : Answer} {t : Tables}
    {state : Heartbeat} (h : Keeps (.heartbeat auth body state) t)
    (hf : StatusesForward t (heartbeatTurn chars auth body a t state).2) :
    Keeps (.heartbeat auth body (heartbeatTurn chars auth body a t state).1)
      (heartbeatTurn chars auth body a t state).2 := by
  constructor
  · intro x hx
    rcases heartbeatTurn_carried chars auth body a t state hx with hold | ⟨_, _, hin, _⟩
    · exact (h.mono hf).1 x hold
    · obtain ⟨c', hc', hid', _⟩ := hf x hin
      exact ⟨c', hc', hid'⟩
  · rcases heartbeatTurn_handedOut chars auth body a t state with hnone | hsame | hack
    · rw [hnone]
      simp
    · rw [hsame]
      exact (h.mono hf).2
    · obtain ⟨nodeId, commands, rfl, _, hturn⟩ := hack
      rw [hturn]
      intro x hx
      obtain ⟨y, hy, rfl⟩ := List.mem_map.mp hx
      obtain ⟨c, hc, hid⟩ := h.1 y hy
      have hin : c.id ∈ commands.map (·.id) := hid ▸ List.mem_map_of_mem hy
      refine ⟨c.ack (commands.map (·.id)) a.now, List.mem_map_of_mem hc, ?_, ?_⟩
      · exact (FleetCommand.ack_id ..).trans hid
      · rw [status_ack, if_pos hin]
        decide

theorem keeps_turn {a : Answer} {t : Tables} {r : Request} (h : Keeps r t)
    (hf : StatusesForward t (turn chars a r t).2) :
    Keeps (turn chars a r t).1 (turn chars a r t).2 := by
  cases r with
  | heartbeat auth body state => exact keeps_heartbeat chars h hf
  | commandResult auth body state => exact Keeps.of_nothing rfl rfl _
  | createCommand auth body state => exact Keeps.of_nothing rfl rfl _

theorem disjoint_turn {a : Answer} {t : Tables} {r s : Request} (hr : Keeps r t) (hs : Keeps s t)
    (hrs : Disjoint r s) (hack : ∀ c ∈ t.commands, c.id ∈ r.acking a → c.status = "pending") :
    Disjoint (turn chars a r t).1 s := by
  -- Before an undisturbed ack its commands are pending, those of every response are not.
  cases r with
  | heartbeat auth body state =>
    intro x hx y hy
    rcases heartbeatTurn_handedOut chars auth body a t state with hnone | hsame | hdone
    · rw [show (turn chars a (.heartbeat auth body state) t).1.handedOut = [] from hnone] at hx
      simp at hx
    · have hx' : x ∈ (Request.heartbeat auth body state).handedOut := by
        simpa only [turn, hsame] using hx
      exact hrs x hx' y hy
    · obtain ⟨nodeId, commands, rfl, hreply, hturn⟩ := hdone
      have hx' : x ∈ commands.map FleetCommand.out := by
        simpa only [turn, hturn, Request.handedOut] using hx
      obtain ⟨z, hz, rfl⟩ := List.mem_map.mp hx'
      obtain ⟨c, hc, hid, hne⟩ := hs.2 y hy
      intro heq
      apply hne
      apply hack c hc
      have hne : a.reply ≠ .refused := by simp [hreply]
      simp only [Request.acking, if_neg hne]
      rw [hid, ← heq]
      exact List.mem_map_of_mem (f := FleetCommand.id) hz
  | commandResult auth body state => intro x hx; simp [turn, Request.handedOut] at hx
  | createCommand auth body state => intro x hx; simp [turn, Request.handedOut] at hx

def LifecycleInv (pool : FleetPool ι) : Prop :=
  pool.Holds (fun _ => True) (fun _ r t => Keeps r t) Disjoint

theorem step_lifecycleInv (pool : FleetPool ι) (event : ι × Answer) (h : LifecycleInv pool)
    (hok : Undisturbed pool event) : LifecycleInv (pool.step (turn chars) event) := by
  have hf := step_forward chars hok
  refine Pool.Holds.step h event _ rfl trivial (keeps_turn chars (h.own event.1) hf)
    (fun j _ => (h.own j).mono hf) fun j hj => ?_
  have hd := disjoint_turn chars (h.own event.1) (h.own j) (h.pair _ _ hj.symm)
    fun c hc => (hok c hc).1
  exact ⟨hd, hd.symm⟩

omit [DecidableEq ι] in
theorem fresh_lifecycleInv {pool : FleetPool ι} (hfresh : ∀ i, (pool.parties i).fresh = true) :
    LifecycleInv pool := by
  have hnone : ∀ r : Request, r.fresh = true → r.carried = [] ∧ r.handedOut = [] := by
    intro r hr
    unfold Request.fresh at hr
    split at hr
    · exact ⟨rfl, rfl⟩
    · exact ⟨rfl, rfl⟩
    · exact ⟨rfl, rfl⟩
    · simp at hr
  refine ⟨trivial, fun i => ?_, fun i j _ x hx => ?_⟩
  · obtain ⟨hcarried, hout⟩ := hnone _ (hfresh i)
    exact Keeps.of_nothing hcarried hout _
  · rw [(hnone _ (hfresh i)).2] at hx
    simp at hx

/-- In every interleaving in which acks and results are undisturbed, statuses only move
forward and no command is handed out by two heartbeats. -/
theorem lifecycle_of_undisturbed (pool : FleetPool ι) (hfresh : ∀ i, (pool.parties i).fresh = true)
    (events : List (ι × Answer)) (h : Along (Pool.step (turn chars)) Undisturbed pool events) :
    LifecycleLaw chars pool events := by
  have hinv := fresh_lifecycleInv hfresh
  constructor
  · exact Along.mono (step_lifecycleInv chars) (fun p e _ hok => step_forward chars hok) hinv h
  · exact (Along.invariant (step_lifecycleInv chars) hinv h).pair

end Pools

def waitingTables : Tables where
  nodes := [⟨numbered 1, "t", "n"⟩]
  commands := [⟨numbered 2, "t", numbered 1, "ping", none, "pending", none, 0, none, none⟩]
  createdBy := fun _ => some "t"
  nodeIds_nodup := List.nodup_singleton _
  commandIds_nodup := List.nodup_singleton _

def nodeHeartbeat : Request :=
  .heartbeat (AuthContext.ofTenant "t") ⟨"t", "n", none, none⟩ .upsert

def nodePool : FleetPool ℕ where
  shared := waitingTables
  parties := fun i =>
    if i = 2 then .commandResult (AuthContext.ofTenant "t") ⟨numbered 2, "done", none⟩ .pending
    else nodeHeartbeat

theorem nodePool_fresh (i : ℕ) : (nodePool.parties i).fresh = true := by
  simp only [nodePool]
  split_ifs <;> rfl

/-- A heartbeat that is alone, then the result and another heartbeat. -/
theorem lifecycle_of_orderly_run :
    LifecycleLaw CharData.ascii nodePool ([0, 0, 0, 2, 1, 1].map fun i => (i, answered)) :=
  lifecycle_of_undisturbed CharData.ascii nodePool nodePool_fresh _ (by decide)

def overlappingRun : List (ℕ × Answer) := [0, 0, 1, 1, 0, 2, 1].map fun i => (i, answered)

def afterOverlap (steps : ℕ) : FleetPool ℕ :=
  run (Pool.step (turn CharData.ascii)) nodePool (overlappingRun.take steps)

/-- The command is handed out twice and goes back from done to acked. -/
theorem overlapping_heartbeats_break_lifecycle :
    (∀ i, (nodePool.parties i).fresh = true) ∧
      ¬ LifecycleLaw CharData.ascii nodePool overlappingRun ∧
      ¬ HandedOutOnce (afterOverlap 7) ∧
      (afterOverlap 6).shared.commands.map (·.status) = ["done"] ∧
      (afterOverlap 7).shared.commands.map (·.status) = ["acked"] := by
  have hout : ((afterOverlap 7).parties 0).handedOut.map (·.id) = [numbered 2] ∧
      ((afterOverlap 7).parties 1).handedOut.map (·.id) = [numbered 2] := by
    decide
  have htwice : ¬ HandedOutOnce (afterOverlap 7) := by
    intro honce
    obtain ⟨x, hx, hxid⟩ := List.mem_map.mp (hout.1 ▸ List.mem_singleton_self (numbered 2))
    obtain ⟨y, hy, hyid⟩ := List.mem_map.mp (hout.2 ▸ List.mem_singleton_self (numbered 2))
    exact honce 0 1 (by decide) x hx y hy (hxid.trans hyid.symm)
  exact ⟨nodePool_fresh, fun hlaw => htwice hlaw.2, htwice, by decide, by decide⟩

end Memclaw.Fleet

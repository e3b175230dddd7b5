import Memclaw.Memories.MutationDefs
import Memclaw.Memories.Statements

/-! What an agent below the last step of the trust ladder can do to stored memories with the
routes that change and delete them, and with the detection that its changes of content start. -/

namespace Memclaw.Memories

open Memclaw.Lib Memclaw.Lib.Interleave Memclaw.Api
open Memclaw.Contradiction (Status Visibility Store Rewrites Detection)

variable {V : Type}

/-- A row keeps its owner, another agent's row keeps everything, and no row becomes deleted. -/
structure Confined (agentId : String) (m m' : Memory V) : Prop where
  owner : m'.agentId = m.agentId
  others : m.agentId ≠ agentId → m' = m
  deletedAt : m'.deletedAt.isSome = true → m.deletedAt.isSome = true
  status : m'.status = .deleted → m.status = .deleted

namespace Confined

variable {agentId : String}

theorem refl (m : Memory V) : Confined agentId m m := ⟨rfl, fun _ => rfl, id, id⟩

theorem trans {a b c : Memory V} (h : Confined agentId a b) (h' : Confined agentId b c) :
    Confined agentId a c where
  owner := h'.owner.trans h.owner
  others := fun hne => (h'.others (h.owner.symm ▸ hne)).trans (h.others hne)
  deletedAt := h.deletedAt ∘ h'.deletedAt
  status := h.status ∘ h'.status

end Confined

def statusGates (auth : AuthContext) (tenantId : String) : Except HTTPException Unit := do
  auth.enforceReadOnly
  auth.enforceUsageLimits
  auth.enforceTenant tenantId

/-- A status that is written to a row goes to the agent's own or repeats the one there, and
neither route writes `deleted` over another status. -/
def WithinAuthority (agents : Agents.Table) (auth : AuthContext) (agentId : String) (t : Table V) :
    MutationRequest V → Prop
  | .status memoryId tenantId (some status) => statusGates auth tenantId = .ok () →
    ∀ m ∈ t.getForTenant memoryId tenantId,
      authorizeMemoryAccess agents tenantId (some agentId) m true = true →
        (m.agentId = agentId ∨ m.status = status) ∧ (status = .deleted → m.status = .deleted)
  | .update memoryId tenantId _ _ body s => auth.enforceTenant tenantId = .ok () →
    s.refusal.isNone = true → ∀ m ∈ t.getForTenant memoryId tenantId,
      enforceRowUpdate agents tenantId (some agentId) m = .ok () →
        body.status = some (some .deleted) → m.status = .deleted
  | _ => True

instance WithinAuthority.decidable (agents : Agents.Table) (auth : AuthContext) (agentId : String)
    (t : Table V) : ∀ request, Decidable (WithinAuthority agents auth agentId t request)
  | .status memoryId tenantId (some status) => inferInstanceAs (Decidable (
    statusGates auth tenantId = .ok () → ∀ m ∈ t.getForTenant memoryId tenantId,
      authorizeMemoryAccess agents tenantId (some agentId) m true = true →
        (m.agentId = agentId ∨ m.status = status) ∧ (status = .deleted → m.status = .deleted)))
  | .status _ _ none => .isTrue trivial
  | .update memoryId tenantId _ _ body s => inferInstanceAs (Decidable (
    auth.enforceTenant tenantId = .ok () → s.refusal.isNone = true →
      ∀ m ∈ t.getForTenant memoryId tenantId,
        enforceRowUpdate agents tenantId (some agentId) m = .ok () →
          body.status = some (some .deleted) → m.status = .deleted))
  | .delete _ _ _ _ => .isTrue trivial
  | .deleteAll _ _ => .isTrue trivial
  | .bulkDelete _ _ _ => .isTrue trivial

/-- The rows that a run of detection writes to, besides the memory it runs for, are the agent's. -/
def DetectionWithin (dicts : RowDicts) (agentId : String) (t : Table V) (memoryId : ℕ)
    (detection : Detection) : Prop :=
  ∀ store ∈ dicts.store t, ∀ mem ∈ t.get memoryId, ∀ m ∈ t, m.id ≠ mem.id →
    detection.Writes dicts.rt store (dicts.memory mem) (dicts.memory m) → m.agentId = agentId

instance DetectionWithin.decidable (dicts : RowDicts) (agentId : String) (t : Table V)
    (memoryId : ℕ) (detection : Detection) :
    Decidable (DetectionWithin dicts agentId t memoryId detection) :=
  inferInstanceAs (Decidable (∀ store ∈ dicts.store t, ∀ mem ∈ t.get memoryId, ∀ m ∈ t,
    m.id ≠ mem.id → detection.Writes dicts.rt store (dicts.memory mem) (dicts.memory m) →
      m.agentId = agentId))

def EventWithin (dicts : RowDicts) (agents : Agents.Table) (auth : AuthContext) (agentId : String)
    (c : Mutable V) : MutationEvent V → Prop
  | .request request => WithinAuthority agents auth agentId c.table request
  | .background (.detect memoryId detection) =>
    (TaskRun.detect memoryId detection).task ∈ c.tasks →
      DetectionWithin dicts agentId c.table memoryId detection
  | .background (.processEntityExtraction _ _) => True

instance EventWithin.decidable (dicts : RowDicts) (agents : Agents.Table) (auth : AuthContext)
    (agentId : String) (c : Mutable V) :
    ∀ event, Decidable (EventWithin dicts agents auth agentId c event)
  | .request request => inferInstanceAs (Decidable (WithinAuthority agents auth agentId c.table
    request))
  | .background (.detect memoryId detection) => inferInstanceAs (Decidable (
    (TaskRun.detect memoryId detection).task ∈ c.tasks →
      DetectionWithin dicts agentId c.table memoryId detection))
  | .background (.processEntityExtraction _ _) => .isTrue trivial

def OwnTasks (agentId : String) (t : Table V) (tasks : List Task) : Prop :=
  ∀ task ∈ tasks, ∃ m, t[task.memoryId]? = some m ∧ m.agentId = agentId

theorem OwnTasks.evolves {agentId : String} {t t' : Table V} {tasks : List Task}
    (h : OwnTasks agentId t tasks) (hrows : Rows.Evolves (Confined agentId) t t') :
    OwnTasks agentId t' tasks := by
  intro task htask
  obtain ⟨m, hm, howner⟩ := h task htask
  obtain ⟨m', hm', hconfined⟩ := hrows _ m hm
  exact ⟨m', hm', hconfined.owner.trans howner⟩

section Request

variable {agents : Agents.Table} {auth : AuthContext} {tenantId agentId : String}

theorem AgentCredential.tenant_eq (h : AgentCredential auth tenantId agentId) {requested : String}
    (hok : auth.enforceTenant requested = .ok ()) : requested = tenantId := by
  have htenant := AuthContext.tenant_of_enforceTenant h.notAdmin hok
  exact Option.some.inj (htenant.symm.trans h.tenant)

theorem AgentCredential.not_deleteGate (h : AgentCredential auth tenantId agentId)
    (hbelow : BelowAdmin agents tenantId agentId) {requested : String} {other : Option String}
    (htenant : auth.enforceTenant requested = .ok ()) :
    deleteGate agents auth requested (orText auth.agentId other) ≠ .ok () := by
  obtain rfl := h.tenant_eq htenant
  rw [h.agent, orText_some h.agent_ne, deleteGate, h.tenant, orText_some h.tenant_ne,
    orText_some h.agent_ne]
  exact not_enforceDelete hbelow

theorem deleteGate_self (h : AgentCredential auth tenantId agentId) (requested : String) :
    deleteGate agents auth requested auth.agentId =
      deleteGate agents auth requested (orText auth.agentId none) := by
  rw [h.agent, orText_some h.agent_ne]

theorem AgentCredential.not_delete (h : AgentCredential auth tenantId agentId)
    (hbelow : BelowAdmin agents tenantId agentId) {getText : GetText} {t : Table V}
    {request : MutationRequest V} {out : Table V × List Task}
    (hok : handleMutation getText agents auth t request = .ok out) :
    (∃ memoryId requested agent mode body s,
      request = .update memoryId requested agent mode body s) ∨
      ∃ memoryId requested status, request = .status memoryId requested status := by
  cases request with
  | update memoryId requested agent mode body s => exact .inl ⟨_, _, _, _, _, _, rfl⟩
  | status memoryId requested status => exact .inr ⟨_, _, _, rfl⟩
  | delete memoryId requested agent now =>
    obtain ⟨_, hok, -⟩ := ok_of_bind hok
    obtain ⟨_, -, hok⟩ := ok_of_bind hok
    obtain ⟨_, htenant, hok⟩ := ok_of_bind hok
    obtain ⟨_, hgate, -⟩ := ok_of_bind hok
    exact absurd hgate (h.not_deleteGate hbelow htenant)
  | deleteAll filter now =>
    obtain ⟨_, hok, -⟩ := ok_of_bind hok
    obtain ⟨_, -, hok⟩ := ok_of_bind hok
    obtain ⟨_, htenant, hok⟩ := ok_of_bind hok
    obtain ⟨_, hgate, -⟩ := ok_of_bind hok
    rw [deleteGate_self h] at hgate
    exact absurd hgate (h.not_deleteGate hbelow htenant)
  | bulkDelete requested ids now =>
    obtain ⟨_, hok, -⟩ := ok_of_bind hok
    unfold bulkDeleteByIds at hok
    split at hok
    · exact nomatch hok
    · obtain ⟨_, -, hok⟩ := ok_of_bind hok
      obtain ⟨_, htenant, hok⟩ := ok_of_bind hok
      obtain ⟨_, hgate, -⟩ := ok_of_bind hok
      rw [deleteGate_self h] at hgate
      exact absurd hgate (h.not_deleteGate hbelow htenant)

theorem withMode_status {body body' : MemoryUpdate} {mode : Option MetadataMode}
    (h : body.withMode mode = .ok body') : body'.status = body.status := by
  unfold MemoryUpdate.withMode at h
  split at h
  · split at h
    · exact nomatch h
    · obtain rfl := Except.ok.inj h
      rfl
  · obtain rfl := Except.ok.inj h
    rfl

theorem changedField_eq_some {α : Type} [DecidableEq α] {field : Option α} {old new : α}
    (h : changedField field old = some new) : field = some new :=
  (Option.filter_eq_some_iff.mp h).1

theorem patch_status_deleted {data : MemoryUpdate} {mem : Memory V} {newEmbedding : Option V}
    {patch : Patch V} (h : data.patch mem newEmbedding = .ok patch) {m : Memory V}
    (hdeleted : (patch.apply m).status = .deleted) (hm : m.status ≠ .deleted) :
    data.status = some (some .deleted) := by
  -- A patch writes `deleted` only when the body says so.
  obtain ⟨base, hbase, -, -, -, hstatus⟩ := MemoryUpdate.patch_eq_ok h
  have hwritten : patch.status = some (some .deleted) := by
    simp only [Patch.apply] at hdeleted
    rcases hp : patch.status with _ | _ | status
    · rw [hp] at hdeleted
      exact absurd hdeleted hm
    · rw [hp] at hdeleted
      exact absurd hdeleted hm
    · rw [hp] at hdeleted
      exact congrArg (fun s => some (some s)) hdeleted
  rw [hwritten] at hstatus
  rcases Option.or_eq_some_iff.mp hstatus.symm with hfield | ⟨-, hclear⟩
  · exact changedField_eq_some hfield
  · -- a content change clears a verdict to `active` only
    unfold MemoryUpdate.basePatch at hbase
    split at hbase
    · split at hbase
      · exact nomatch hbase
      · obtain rfl := Except.ok.inj hbase
        simp only [contentPatch] at hclear
        split at hclear
        · exact nomatch hclear
        · exact nomatch hclear
    · obtain rfl := Except.ok.inj hbase
      exact nomatch hclear

theorem postCommitTasks_memoryId {memoryId : ℕ} {contentChanged entityExtractionEnabled : Bool} :
    ∀ task ∈ postCommitTasks memoryId contentChanged entityExtractionEnabled,
      task.memoryId = memoryId := by
  cases contentChanged <;> cases entityExtractionEnabled <;>
    simp [postCommitTasks, Task.memoryId]

/-- An accepted update rewrites the agent's own row, as the body says. -/
theorem update_confined (h : AgentCredential auth tenantId agentId)
    (hbelow : BelowAdmin agents tenantId agentId) {t t' : Table V} (ht : t.Numbered)
    {memoryId : ℕ} {requested : String} {agent : Option String} {mode : Option MetadataMode}
    {body : MemoryUpdate} {s : UpdateSurroundings V} {tasks : List Task}
    (hwithin : WithinAuthority agents auth agentId t
      (.update memoryId requested agent mode body s))
    (hok : updateMemoryEndpoint agents auth t memoryId requested agent mode body s =
      .ok (t', tasks)) :
    t'.Numbered ∧ Rows.Evolves (Confined agentId) t t' ∧ OwnTasks agentId t tasks := by
  obtain ⟨_, htenant, hok⟩ := ok_of_bind hok
  obtain ⟨body', hbody, hok⟩ := ok_of_bind hok
  rw [h.tenant, orText_some h.tenant_ne, h.agent, orText_some h.agent_ne] at hok
  simp only [Option.isSome_some, if_true, updateMemory] at hok
  split at hok
  · exact nomatch hok
  next mem hmem =>
  obtain ⟨_, hrow, hok⟩ := ok_of_bind hok
  split at hok
  · exact nomatch hok
  next hrefusal =>
  split at hok
  · exact nomatch hok
  next patch hpatch =>
  split at hok
  · exact nomatch hok
  next found t'' hupdate =>
  obtain ⟨rfl, rfl⟩ := Prod.mk.inj (Except.ok.inj hok)
  obtain rfl := h.tenant_eq htenant
  have hown : agentId = mem.agentId := by
    simp only [enforceRowUpdate, orText_some h.agent_ne] at hrow
    obtain ⟨_, howner, -⟩ := ok_of_bind hrow
    exact owner_of_enforceUpdate hbelow howner
  have hstatus := hwithin htenant (by rw [hrefusal]; rfl) mem hmem hrow
  obtain ⟨hget, -, -, -⟩ := getForTenant_eq_some ht hmem
  have htasks : OwnTasks agentId t
      (postCommitTasks memoryId (body'.contentChanged mem) s.entityExtractionEnabled) :=
    fun task htask => ⟨mem, by rw [postCommitTasks_memoryId task htask, hget], hown.symm⟩
  rcases memoryUpdate_cases hupdate with hsame | ⟨-, hrows⟩
  · rw [hsame]
    exact ⟨ht, Rows.Evolves.refl Confined.refl t, htasks⟩
  · rw [hrows]
    refine ⟨ht.update fun m => rfl, Rows.Evolves.update Confined.refl fun m hm hp => ?_, htasks⟩
    obtain ⟨rfl, -⟩ := ht.at_eq hget hm (Bool.and_eq_true_iff.mp hp).1
    refine ⟨rfl, fun hne => absurd hown.symm hne, id, fun hdeleted => ?_⟩
    by_contra hnot
    have hsays := patch_status_deleted hpatch hdeleted hnot
    rw [withMode_status hbody] at hsays
    exact hnot (hstatus hsays)

theorem refusedUnless_ok {allowed : Bool} {error : HTTPException} {u : Unit}
    (h : refusedUnless allowed error = .ok u) : allowed = true := by
  cases allowed with
  | true => rfl
  | false => exact nomatch h

theorem status_confined (h : AgentCredential auth tenantId agentId) {t t' : Table V}
    (ht : t.Numbered) {memoryId : ℕ} {requested : String} {status : Option Status}
    (hwithin : WithinAuthority agents auth agentId t (.status memoryId requested status))
    (hok : updateMemoryStatus agents auth t memoryId requested status = .ok t') :
    t'.Numbered ∧ Rows.Evolves (Confined agentId) t t' := by
  -- An accepted status goes to a row that the agent may write to.
  obtain ⟨_, hreadOnly, hok⟩ := ok_of_bind hok
  obtain ⟨_, hlimits, hok⟩ := ok_of_bind hok
  obtain ⟨_, htenant, hok⟩ := ok_of_bind hok
  cases status with
  | none => exact nomatch hok
  | some status =>
    simp only at hok
    split at hok
    · exact nomatch hok
    next mem hmem =>
    obtain ⟨_, hallowed, hok⟩ := ok_of_bind hok
    obtain rfl := Except.ok.inj hok
    have hgates : statusGates auth requested = .ok () := by
      rw [statusGates, hreadOnly, hlimits, htenant]
      rfl
    have hrow := refusedUnless_ok hallowed
    rw [h.agent] at hrow
    obtain ⟨hown, hdeleted⟩ := hwithin hgates mem hmem hrow
    refine ⟨ht.update fun m => rfl, Rows.Evolves.update Confined.refl fun m hm hp => ?_⟩
    obtain ⟨hget, -, -, -⟩ := getForTenant_eq_some ht hmem
    obtain ⟨rfl, -⟩ := ht.at_eq hget hm (Bool.and_eq_true_iff.mp hp).1
    refine ⟨rfl, fun hne => ?_, id, hdeleted⟩
    have hsame := hown.resolve_left hne
    simp [StatusUpdate.write, ← hsame]

end Request

section Detection

variable {dicts : RowDicts} {agentId : String}

theorem store_eq_some {t : Table V} {store : Store} (h : dicts.store t = some store) :
    ∃ hnodup, store = ⟨t.map dicts.memory, hnodup⟩ := by
  unfold RowDicts.store at h
  split at h
  · next hnodup => exact ⟨hnodup, (Option.some.inj h).symm⟩
  · cases h

theorem uuid_inj {t : Table V} (hnodup : ((t.map dicts.memory).map (·.id)).Nodup)
    {m m' : Memory V} (hm : m ∈ t) (hm' : m' ∈ t)
    (hid : (dicts.memory m).id = (dicts.memory m').id) : m = m' := by
  rw [List.map_map] at hnodup
  exact List.inj_on_of_nodup_map hnodup hm hm' hid

/-- Detection for one of the agent's memories rewrites only the agent's rows. -/
theorem detect_confined {t : Table V} (ht : t.Numbered) {memoryId : ℕ}
    (hown : ∃ mem, t[memoryId]? = some mem ∧ mem.agentId = agentId) {detection : Detection}
    (hwithin : DetectionWithin dicts agentId t memoryId detection) :
    (dicts.detect t memoryId detection).Numbered ∧
      Rows.Evolves (Confined agentId) t (dicts.detect t memoryId detection) := by
  obtain ⟨mem, hmem, howner⟩ := hown
  have hget : t.get memoryId = some mem := (ht.get memoryId).trans hmem
  unfold RowDicts.detect
  rw [hget]
  cases hstore : dicts.store t with
  | none => exact ⟨ht, Rows.Evolves.refl Confined.refl t⟩
  | some store =>
    obtain ⟨hnodup, rfl⟩ := store_eq_some hstore
    have hrow : ∀ m ∈ t, dicts.memory m ∈ (⟨t.map dicts.memory, hnodup⟩ : Store).rows :=
      fun m hm => List.mem_map_of_mem hm
    obtain ⟨f, hrun⟩ := detection.run_rewrites dicts.rt (hrow mem (List.mem_of_getElem? hmem))
    -- the row that detection leaves for a row of the table
    have hafter : ∀ m ∈ t, (detection.run dicts.rt ⟨t.map dicts.memory, hnodup⟩
        (dicts.memory mem)).get (dicts.uuid m.id) = some (f (dicts.memory m)) := by
      intro m hm
      rw [Store.get_rewritten hrun.id hrun.rows]
      exact congrArg (Option.map f) (Store.get_of_mem (hrow m hm))
    constructor
    · intro i m hm
      rw [List.getElem?_map, Option.map_eq_some_iff] at hm
      obtain ⟨old, hold, rfl⟩ := hm
      rw [hafter old (List.mem_of_getElem? hold)]
      exact ht i old hold
    · refine Rows.Evolves.map fun m hm => ?_
      rw [hafter m hm]
      refine ⟨rfl, fun hother => ?_, id, hrun.deleted _ (hrow m hm)⟩
      -- ids are distinct, and the memory detection runs for is the agent's
      have hne : m ≠ mem := fun hsame => hother (hsame ▸ howner)
      have hid : m.id ≠ mem.id := fun hid =>
        hne (ht.eq_of_id hmem hm (hid.trans (ht memoryId mem hmem)))
      have huuid : (dicts.memory m).id ≠ (dicts.memory mem).id := fun hid =>
        hne (uuid_inj hnodup hm (List.mem_of_getElem? hmem) hid)
      have hkept := (hrun.changed_iff _ (hrow m hm) huuid).not.mpr fun hwrites =>
        hother (hwithin _ hstore mem hget m hm hid hwrites)
      rw [Contradiction.Changed, not_or, not_not, not_not] at hkept
      simp only [RowDicts.written, hkept.1, hkept.2, if_true]
      rfl

end Detection

section Runs

variable {getText : GetText} {dicts : RowDicts} {agents : Agents.Table} {auth : AuthContext}
  {tenantId agentId : String}

theorem request_confined (h : AgentCredential auth tenantId agentId)
    (hbelow : BelowAdmin agents tenantId agentId) {t t' : Table V} (ht : t.Numbered)
    {request : MutationRequest V} (hwithin : WithinAuthority agents auth agentId t request)
    {tasks : List Task} (hok : handleMutation getText agents auth t request = .ok (t', tasks)) :
    t'.Numbered ∧ Rows.Evolves (Confined agentId) t t' ∧ OwnTasks agentId t tasks := by
  rcases h.not_delete hbelow hok with ⟨memoryId, requested, agent, mode, body, s, rfl⟩ |
    ⟨memoryId, requested, status, rfl⟩
  · exact update_confined h hbelow ht hwithin hok
  · obtain ⟨_, hstatus, hok⟩ := ok_of_bind hok
    obtain ⟨rfl, rfl⟩ := Prod.mk.inj (Except.ok.inj hok)
    obtain ⟨ht', hrows⟩ := status_confined h ht hwithin hstatus
    exact ⟨ht', hrows, fun _ htask => absurd htask List.not_mem_nil⟩

theorem background_confined {c : Mutable V} (ht : c.table.Numbered)
    (hown : OwnTasks agentId c.table c.tasks) {run : TaskRun} (htask : run.task ∈ c.tasks)
    (hwithin : EventWithin dicts agents auth agentId c (.background run)) :
    (run.apply dicts c.table).1.Numbered ∧
      Rows.Evolves (Confined agentId) c.table (run.apply dicts c.table).1 ∧
        OwnTasks agentId c.table (run.apply dicts c.table).2 := by
  cases run with
  | processEntityExtraction memoryId entitiesNamed =>
    refine ⟨ht, Rows.Evolves.refl Confined.refl _, fun task hnext => ?_⟩
    cases entitiesNamed with
    | false => exact absurd hnext List.not_mem_nil
    | true =>
      obtain rfl := List.mem_singleton.mp hnext
      exact hown (.processEntityExtraction memoryId) htask
  | detect memoryId detection =>
    have hmemory : ∃ mem, c.table[memoryId]? = some mem ∧ mem.agentId = agentId := by
      cases detection with
      | pathA input => exact hown _ htask
      | pathC retraction input => exact hown _ htask
    obtain ⟨ht', hrows⟩ := detect_confined ht hmemory (hwithin htask)
    exact ⟨ht', hrows, fun _ htask => absurd htask List.not_mem_nil⟩

theorem mutationStep_confined (h : AgentCredential auth tenantId agentId)
    (hbelow : BelowAdmin agents tenantId agentId) {c : Mutable V} (ht : c.table.Numbered)
    (hown : OwnTasks agentId c.table c.tasks) {event : MutationEvent V}
    (hwithin : EventWithin dicts agents auth agentId c event) :
    (mutationStep getText dicts agents auth c event).table.Numbered ∧
      Rows.Evolves (Confined agentId) c.table
        (mutationStep getText dicts agents auth c event).table ∧
      OwnTasks agentId (mutationStep getText dicts agents auth c event).table
        (mutationStep getText dicts agents auth c event).tasks := by
  cases event with
  | request request =>
    simp only [mutationStep]
    split
    · exact ⟨ht, Rows.Evolves.refl Confined.refl _, hown⟩
    · next t' tasks hok =>
      obtain ⟨ht', hrows, htasks⟩ := request_confined h hbelow ht hwithin hok
      refine ⟨ht', hrows, fun task htask => ?_⟩
      rcases List.mem_append.mp htask with hold | hnew
      · exact hown.evolves hrows task hold
      · exact htasks.evolves hrows task hnew
  | background run =>
    simp only [mutationStep]
    split
    · next hpending =>
      obtain ⟨ht', hrows, htasks⟩ := background_confined ht hown hpending hwithin
      refine ⟨ht', hrows, fun task htask => ?_⟩
      rcases List.mem_append.mp htask with hold | hnew
      · exact hown.evolves hrows task (List.mem_of_mem_erase hold)
      · exact htasks.evolves hrows task hnew
    · exact ⟨ht, Rows.Evolves.refl Confined.refl _, hown⟩

theorem run_confined (h : AgentCredential auth tenantId agentId)
    (hbelow : BelowAdmin agents tenantId agentId) {c : Mutable V} (ht : c.table.Numbered)
    (hown : OwnTasks agentId c.table c.tasks) {events : List (MutationEvent V)}
    (hwithin : Along (mutationStep getText dicts agents auth)
      (EventWithin dicts agents auth agentId) c events) :
    Rows.Evolves (Confined agentId) c.table
      (run (mutationStep getText dicts agents auth) c events).table := by
  induction events generalizing c with
  | nil => exact Rows.Evolves.refl Confined.refl _
  | cons event events ih =>
    obtain ⟨ht', hstep, hown'⟩ := mutationStep_confined h hbelow ht hown hwithin.1
    exact Rows.Evolves.trans (R := Confined agentId) Confined.trans hstep
      (ih ht' hown' hwithin.2)

/-- In every store and after every sequence of requests and of the tasks that they leave, all
within the agent's authority, other agents' memories are as they were and none has become
deleted. -/
theorem authority_kept (h : AgentCredential auth tenantId agentId)
    (hbelow : BelowAdmin agents tenantId agentId) (writes : List (Write V))
    {events : List (MutationEvent V)}
    (hwithin : Along (mutationStep getText dicts agents auth)
      (EventWithin dicts agents auth agentId) ⟨run step [] writes, []⟩ events) :
    Rows.Evolves (Confined agentId) (run step [] writes)
      (run (mutationStep getText dicts agents auth) ⟨run step [] writes, []⟩ events).table :=
  run_confined h hbelow (run_numbered Table.Numbered.nil writes)
    (fun _ htask => absurd htask List.not_mem_nil) hwithin

end Runs

def sampleAgents : Agents.Table := fun tenantId agentId =>
  if tenantId = "t" ∧ agentId = "b" then some ⟨some "f", none, none, none, 1, none, false⟩ else none

def sampleCredential : AuthContext := { AuthContext.ofTenant "t" with agentId := some "b" }

theorem sampleCredential_agent : AgentCredential sampleCredential "t" "b" :=
  ⟨rfl, by decide, rfl, by decide, rfl⟩

theorem sampleAgents_below : BelowAdmin sampleAgents "t" "b" := by
  intro agent hagent
  obtain rfl := Option.some.inj hagent
  decide

def sampleDicts : RowDicts where
  rt := Contradiction.plainRuntime
  uuid := Contradiction.sampleId
  entityId _ := ""
  createdAt t := .datetime t

def sharedWrites : List (Write ℕ) :=
  [.memoryAdd sampleMemory 1, .memoryAdd { sampleMemory with agentId := "b" } 2,
    .memoryAdd { sampleMemory with agentId := "b" } 3]

def flaggingRun (k : ℕ) : Detection :=
  .pathA ⟨fun m => m.id = Contradiction.sampleId k, fun _ => .verdict true 1⟩

/-- The agent changes one of its memories, and detection marks its other one. It confirms that
one, repeats the status of another agent's, and is refused a delete. -/
theorem authority_kept_sample :
    Rows.Evolves (Confined "b") (run step [] sharedWrites)
      (run (mutationStep (fun _ _ => none) sampleDicts sampleAgents sampleCredential)
        ⟨run step [] sharedWrites, []⟩
        [.request (.update 2 "t" none none { content := some (some "the sky is red") } {}),
          .background (.detect 2 (flaggingRun 1)),
          .background (.processEntityExtraction 2 true),
          .request (.status 1 "t" (some .confirmed)), .request (.status 0 "t" (some .active)),
          .request (.delete 0 "t" none 3)]).table :=
  authority_kept sampleCredential_agent sampleAgents_below _ (by decide)

/-- The status route asks neither for ownership nor for the right to delete, and detection marks
what contradicts a change of content, whoever wrote it. -/
theorem status_route_deletes :
    ¬ Rows.Evolves (Confined "b") (run step [] sharedWrites)
        (run (mutationStep (fun _ _ => none) sampleDicts sampleAgents sampleCredential)
          ⟨run step [] sharedWrites, []⟩ [.request (.status 0 "t" (some .deleted))]).table ∧
      ¬ Rows.Evolves (Confined "b") (run step [] sharedWrites)
        (run (mutationStep (fun _ _ => none) sampleDicts sampleAgents sampleCredential)
          ⟨run step [] sharedWrites, []⟩
          [.request (.update 2 "t" none none { content := some (some "the sky is red") } {}),
            .background (.detect 2 (flaggingRun 0))]).table := by
  constructor
  · intro h
    obtain ⟨m, hm, hconfined⟩ := h 0 _ rfl
    obtain rfl := Option.some.inj hm
    exact nomatch hconfined.status rfl
  · intro h
    obtain ⟨m, hm, hconfined⟩ := h 0 _ rfl
    have hmarked : m.status = .conflicted := by
      obtain rfl := Option.some.inj hm
      decide
    rw [hconfined.others (by decide)] at hmarked
    exact nomatch hmarked

end Memclaw.Memories

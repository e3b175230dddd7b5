import Memclaw.Agents.RegistryDefs

/-! What one turn of a request may write to the agents table, and what every write keeps. -/

namespace Memclaw.Agents

open Memclaw.Lib Memclaw.Lib.Interleave Memclaw.Api

@[simp] theorem Table.set_same (t : Table) (tenantId agentId : String) (row : Agent) :
    t.set tenantId agentId row tenantId agentId = some row := by
  simp [Table.set]

theorem Table.set_other (t : Table) {tenantId agentId tenant agent : String} (row : Agent)
    (h : ¬ (tenant = tenantId ∧ agent = agentId)) :
    t.set tenantId agentId row tenant agent = t tenant agent := by
  simp [Table.set, h]

theorem agentAdd_eq {t t' : Table} {data : AgentData} {row : Agent}
    (h : t.agentAdd data = some (t', row)) :
    row = data.stored t ∧ t' = t.set data.tenantId data.agentId (data.stored t) := by
  unfold Table.agentAdd at h
  split_ifs at h
  simp only [Option.some.injEq, Prod.mk.injEq] at h
  exact ⟨h.2.symm, h.1.symm⟩

theorem stored_of_some {t : Table} {data : AgentData} {row : Agent}
    (h : t data.tenantId data.agentId = some row) : data.stored t = data.merge row := by
  simp [AgentData.stored, h]

def GetOrCreateArgs.posting (args : GetOrCreateArgs) : GetOrCreate → Option AgentData
  | .backfill read => some (args.backfill read)
  | .create carried => some (args.payload carried)
  | _ => none

def Request.registering : Request → Option (GetOrCreateArgs × GetOrCreate)
  | .resolveWriteAgent args (.first agentId state) => some (args.register agentId, state)
  | .resolveWriteAgent args (.second state) =>
    some (args.register (brokerLabel args.installUuid), state)
  | .getOrCreateAgent args state => some (args, state)
  | _ => none

inductive Writes (reply : Reply) (t : Table) : Request → Table → Prop
  | nothing (r : Request) : Writes reply t r t
  | post (r : Request) {args : GetOrCreateArgs} {state : GetOrCreate} {data : AgentData} {t' : Table}
      {row : Agent} : r.registering = some (args, state) → args.posting state = some data →
      reply ≠ .refused → t.agentAdd data = some (t', row) → Writes reply t r t'
  | operator (tenantId agentId : String) (update : OperatorUpdate) : reply ≠ .refused →
      Writes reply t (.operator tenantId agentId update .pending) (update.apply t tenantId agentId)

theorem getOrCreateTurn_writes (args : GetOrCreateArgs) (reply : Reply) (t : Table)
    (state : GetOrCreate) :
    (getOrCreateTurn args reply t state).2 = t ∨
      ∃ data row, args.posting state = some data ∧ reply ≠ .refused ∧
        t.agentAdd data = some ((getOrCreateTurn args reply t state).2, row) := by
  cases state with
  | get =>
    left
    simp only [getOrCreateTurn]
    split
    · split_ifs <;> rfl
    · rfl
    · rfl
  | backfill read =>
    simp only [getOrCreateTurn]
    split
    · next hadd => exact .inr ⟨_, _, rfl, by decide, hadd⟩
    · next hadd => exact .inr ⟨_, _, rfl, by decide, hadd⟩
    · exact .inl rfl
  | legacy =>
    left
    simp only [getOrCreateTurn]
    split <;> rfl
  | create carried =>
    simp only [getOrCreateTurn]
    split
    · next hadd => exact .inr ⟨_, _, rfl, by decide, hadd⟩
    · next hadd => exact .inr ⟨_, _, rfl, by decide, hadd⟩
    · exact .inl rfl
  | returned agent => exact .inl rfl
  | raised e => exact .inl rfl

theorem writes_of_getOrCreate {args : GetOrCreateArgs} {reply : Reply} {t : Table}
    {state : GetOrCreate} {r : Request} (hr : r.registering = some (args, state)) :
    Writes reply t r (getOrCreateTurn args reply t state).2 := by
  rcases getOrCreateTurn_writes args reply t state with hsame | ⟨data, row, hpost, hreply, hadd⟩
  · rw [hsame]
    exact .nothing r
  · exact .post r hr hpost hreply hadd

theorem turn_writes (reply : Reply) (r : Request) (t : Table) :
    Writes reply t r (turn reply r t).2 := by
  cases r with
  | resolveWriteAgent args state =>
    cases state with
    | gate =>
      simp only [turn, resolveTurn]
      split_ifs
      · split <;> exact .nothing _
      · exact .nothing _
    | first agentId state => exact writes_of_getOrCreate rfl
    | second state => exact writes_of_getOrCreate rfl
    | returned agent agentId => exact .nothing _
    | raised e => exact .nothing _
  | getOrCreateAgent args state => exact writes_of_getOrCreate rfl
  | operator tenantId agentId update state =>
    cases state with
    | pending =>
      simp only [turn, operatorTurn]
      split
      · exact .operator _ _ _ (by decide)
      · exact .operator _ _ _ (by decide)
      · exact .nothing _
    | returned => exact .nothing _
    | raised => exact .nothing _

def IdentitiesKept (t t' : Table) : Prop :=
  ∀ tenantId agentId row, t tenantId agentId = some row →
    ∃ row', t' tenantId agentId = some row' ∧
      (row.installId ≠ none → row'.installId = row.installId) ∧
      (row.ownerInstallUuid ≠ none → row'.ownerInstallUuid = row.ownerInstallUuid)

theorem IdentitiesKept.refl (t : Table) : IdentitiesKept t t :=
  fun _ _ row h => ⟨row, h, fun _ => rfl, fun _ => rfl⟩

theorem identitiesKept_set {t : Table} {tenantId agentId : String} {new : Agent}
    (h : ∀ row, t tenantId agentId = some row →
      (row.installId ≠ none → new.installId = row.installId) ∧
      (row.ownerInstallUuid ≠ none → new.ownerInstallUuid = row.ownerInstallUuid)) :
    IdentitiesKept t (t.set tenantId agentId new) := by
  intro tenant agent row hrow
  by_cases hkey : tenant = tenantId ∧ agent = agentId
  · obtain ⟨rfl, rfl⟩ := hkey
    exact ⟨new, Table.set_same .., h row hrow⟩
  · exact ⟨row, (Table.set_other t new hkey).trans hrow, fun _ => rfl, fun _ => rfl⟩

theorem merge_identities (data : AgentData) (row : Agent) :
    (row.installId ≠ none → (data.merge row).installId = row.installId) ∧
      (row.ownerInstallUuid ≠ none →
        (data.merge row).ownerInstallUuid = row.ownerInstallUuid) := by
  constructor
  · intro h
    obtain ⟨installId, hid⟩ := Option.ne_none_iff_exists'.mp h
    simp [AgentData.merge, hid]
  · intro h
    obtain ⟨owner, howner⟩ := Option.ne_none_iff_exists'.mp h
    simp [AgentData.merge, howner]

theorem writes_identities {reply : Reply} {t t' : Table} {r : Request} (h : Writes reply t r t') :
    IdentitiesKept t t' := by
  cases h with
  | nothing => exact IdentitiesKept.refl t
  | post _ hr hpost hreply hadd =>
    rw [(agentAdd_eq hadd).2]
    refine identitiesKept_set fun row hrow => ?_
    rw [stored_of_some hrow]
    exact merge_identities _ row
  | operator tenantId agentId update hreply =>
    cases update with
    | trustLevel level fleetId =>
      simp only [OperatorUpdate.apply, Table.agentUpdateTrustLevel]
      split
      · exact IdentitiesKept.refl t
      · next row hrow =>
        refine identitiesKept_set fun row' hrow' => ?_
        obtain rfl : row = row' := Option.some.inj (hrow.symm.trans hrow')
        exact ⟨fun _ => rfl, fun _ => rfl⟩
    | fleet fleetId =>
      simp only [OperatorUpdate.apply, Table.agentUpdateFleet]
      split
      · exact IdentitiesKept.refl t
      · next row hrow =>
        refine identitiesKept_set fun row' hrow' => ?_
        obtain rfl : row = row' := Option.some.inj (hrow.symm.trans hrow')
        exact ⟨fun _ => rfl, fun _ => rfl⟩

end Memclaw.Agents

import Memclaw.Agents.Writes

/-! Registration beside the operator. The create payload always carries a trust level, and
the conflict branch of `agent_add` writes it, with the fleet, over a row that somebody
else has registered and an operator has tuned in between. -/

namespace Memclaw.Agents

open Memclaw.Lib Memclaw.Lib.Interleave Memclaw.Api

def Request.Operates (tenantId agentId : String) : Request → Prop
  | .operator tenant agent _ _ => tenant = tenantId ∧ agent = agentId
  | _ => False

/-- A row stays; its trust level changes by an operator's call on it only, and so does a
fleet that an operator set; install identities never change. -/
def RowLaw (r : Request) (tenantId agentId : String) (row row' : Agent) : Prop :=
  (row'.trustLevel = row.trustLevel ∨ r.Operates tenantId agentId) ∧
  (row.operatorFleet = true → row.fleetId ≠ none →
    row'.fleetId = row.fleetId ∨ r.Operates tenantId agentId) ∧
  (row.installId ≠ none → row'.installId = row.installId) ∧
  (row.ownerInstallUuid ≠ none → row'.ownerInstallUuid = row.ownerInstallUuid)

def TableLaw (r : Request) (t t' : Table) : Prop :=
  ∀ tenantId agentId row, t tenantId agentId = some row →
    ∃ row', t' tenantId agentId = some row' ∧ RowLaw r tenantId agentId row row'

def RegistrationLaw {ι : Type} [DecidableEq ι] (pool : Pool ι Table Request)
    (events : List (ι × Reply)) : Prop :=
  Along (Pool.step turn) (fun p e => TableLaw (p.parties e.1) p.shared (p.step turn e).shared)
    pool events

/-- The row has no operator's fleet other than the one asked for. -/
def GetOrCreateArgs.FleetFree (args : GetOrCreateArgs) (row : Agent) : Prop :=
  ∀ fleet ∈ args.fleetId, row.operatorFleet = false ∨ row.fleetId = none ∨ row.fleetId = some fleet

instance (args : GetOrCreateArgs) (row : Agent) : Decidable (args.FleetFree row) :=
  inferInstanceAs (Decidable (∀ fleet ∈ args.fleetId, _))

def GetOrCreateArgs.Fits (args : GetOrCreateArgs) (row : Agent) : GetOrCreate → Prop
  | .create carried => row.trustLevel = args.initialTrust carried ∧ args.FleetFree row
  | .backfill read => read.fleetId = none → args.FleetFree row
  | _ => True

instance (args : GetOrCreateArgs) (row : Agent) : ∀ state, Decidable (args.Fits row state)
  | .create _ => inferInstanceAs (Decidable (_ ∧ _))
  | .backfill _ => inferInstanceAs (Decidable (_ → _))
  | .get | .legacy | .returned _ | .raised _ => .isTrue trivial

/-- A create finds no row yet, or one with the initial trust level and no other fleet of an operator;
the backfill of a fleet finds no other fleet of an operator. -/
def NoConflict {ι : Type} (pool : Pool ι Table Request) (event : ι × Reply) : Prop :=
  ∀ r ∈ (pool.parties event.1).registering, ∀ row ∈ pool.shared r.1.tenantId r.1.agentId,
    event.2 = .refused ∨ r.1.Fits row r.2

instance {ι : Type} (pool : Pool ι Table Request) (event : ι × Reply) :
    Decidable (NoConflict pool event) :=
  inferInstanceAs (Decidable (∀ r ∈ (pool.parties event.1).registering, _))

theorem RowLaw.refl (r : Request) (tenantId agentId : String) (row : Agent) :
    RowLaw r tenantId agentId row row :=
  ⟨.inl rfl, fun _ _ => .inl rfl, fun _ => rfl, fun _ => rfl⟩

theorem TableLaw.refl (r : Request) (t : Table) : TableLaw r t t :=
  fun _ _ row h => ⟨row, h, RowLaw.refl ..⟩

theorem tableLaw_set {r : Request} {t : Table} {tenantId agentId : String} {new : Agent}
    (h : ∀ row, t tenantId agentId = some row → RowLaw r tenantId agentId row new) :
    TableLaw r t (t.set tenantId agentId new) := by
  intro tenant agent row hrow
  by_cases hkey : tenant = tenantId ∧ agent = agentId
  · obtain ⟨rfl, rfl⟩ := hkey
    exact ⟨new, Table.set_same .., h row hrow⟩
  · exact ⟨row, (Table.set_other t new hkey).trans hrow, RowLaw.refl ..⟩

theorem key_of_posting {args : GetOrCreateArgs} {state : GetOrCreate} {data : AgentData}
    (h : args.posting state = some data) :
    data.tenantId = args.tenantId ∧ data.agentId = args.agentId := by
  cases state with
  | backfill read =>
    obtain rfl := Option.some.inj h
    exact ⟨rfl, rfl⟩
  | create carried =>
    obtain rfl := Option.some.inj h
    exact ⟨rfl, rfl⟩
  | get | legacy | returned | raised => exact nomatch h

theorem rowLaw_merge {r : Request} {data : AgentData} {row : Agent}
    (htrust : ∀ level ∈ data.trustLevel, level = row.trustLevel)
    (hfleet : ∀ fleet ∈ data.fleetId,
      row.operatorFleet = false ∨ row.fleetId = none ∨ row.fleetId = some fleet) :
    RowLaw r data.tenantId data.agentId row (data.merge row) := by
  refine ⟨.inl ?_, fun hset hsome => .inl ?_, merge_identities data row⟩
  · cases hlevel : data.trustLevel with
    | none => simp [AgentData.merge, hlevel]
    | some level => simp [AgentData.merge, hlevel, htrust level hlevel]
  · cases hnew : data.fleetId with
    | none => simp [AgentData.merge, hnew]
    | some fleet =>
      rcases hfleet fleet hnew with hfalse | hnone | hsame
      · simp [hfalse] at hset
      · exact absurd hnone hsome
      · simp [AgentData.merge, hnew, hsame]

/-- A backfill carries no trust level, and a fleet only where the row it read had none. -/
theorem rowLaw_posting {r : Request} {args : GetOrCreateArgs} {state : GetOrCreate}
    {data : AgentData} {row : Agent} (hpost : args.posting state = some data)
    (hfits : args.Fits row state) : RowLaw r data.tenantId data.agentId row (data.merge row) := by
  cases state with
  | backfill read =>
    obtain rfl := Option.some.inj hpost
    refine rowLaw_merge (fun level hlevel => nomatch hlevel) fun fleet hfleet => ?_
    change fleet ∈ (if read.fleetId.isNone then args.fleetId else none) at hfleet
    split at hfleet
    · next hread => exact hfits (Option.isNone_iff_eq_none.mp hread) fleet hfleet
    · exact nomatch hfleet
  | create carried =>
    obtain rfl := Option.some.inj hpost
    exact rowLaw_merge (fun level hlevel => (Option.some.inj hlevel).symm.trans hfits.1.symm)
      hfits.2
  | get | legacy | returned | raised => exact nomatch hpost

theorem operator_tableLaw (t : Table) (tenantId agentId : String) (update : OperatorUpdate) :
    TableLaw (.operator tenantId agentId update .pending) t (update.apply t tenantId agentId) := by
  have hmine : Request.Operates tenantId agentId (.operator tenantId agentId update .pending) :=
    ⟨rfl, rfl⟩
  cases update with
  | trustLevel level fleetId =>
    simp only [OperatorUpdate.apply, Table.agentUpdateTrustLevel]
    split
    · exact TableLaw.refl _ _
    · next row hrow =>
      refine tableLaw_set fun row' hrow' => ?_
      obtain rfl : row = row' := Option.some.inj (hrow.symm.trans hrow')
      exact ⟨.inr hmine, fun _ _ => .inr hmine, fun _ => rfl, fun _ => rfl⟩
  | fleet fleetId =>
    simp only [OperatorUpdate.apply, Table.agentUpdateFleet]
    split
    · exact TableLaw.refl _ _
    · next row hrow =>
      refine tableLaw_set fun row' hrow' => ?_
      obtain rfl : row = row' := Option.some.inj (hrow.symm.trans hrow')
      exact ⟨.inl rfl, fun _ _ => .inr hmine, fun _ => rfl, fun _ => rfl⟩

section Runs

variable {ι : Type} [DecidableEq ι]

theorem step_tableLaw {pool : Pool ι Table Request} {event : ι × Reply}
    (hok : NoConflict pool event) :
    TableLaw (pool.parties event.1) pool.shared (pool.step turn event).shared := by
  have hw : Writes event.2 pool.shared (pool.parties event.1) (pool.step turn event).shared :=
    turn_writes _ _ _
  unfold NoConflict at hok
  revert hw hok
  generalize (pool.step turn event).shared = t'
  generalize pool.parties event.1 = r
  intro hok hw
  cases hw with
  | nothing => exact TableLaw.refl _ _
  | @post _ args state data _ _ hr hpost hreply hadd =>
    obtain ⟨htenant, hagent⟩ : data.tenantId = args.tenantId ∧ data.agentId = args.agentId :=
      key_of_posting hpost
    rw [(agentAdd_eq hadd).2]
    refine tableLaw_set fun row hrow => ?_
    rw [stored_of_some hrow]
    rw [htenant, hagent] at hrow
    exact rowLaw_posting hpost ((hok _ hr row hrow).resolve_left hreply)
  | operator tenantId agentId update hreply => exact operator_tableLaw _ _ _ _

/-- Along every interleaving in which no registration runs into a row tuned meanwhile,
trust levels and operator fleets change by operator calls only. -/
theorem registration_of_noConflict (pool : Pool ι Table Request) (events : List (ι × Reply))
    (h : Along (Pool.step turn) NoConflict pool events) : RegistrationLaw pool events :=
  Along.mono (P := fun _ => True) (fun _ _ _ _ => trivial) (fun _ _ _ hok => step_tableLaw hok)
    trivial h

/-- Without any condition, install identities never change once they are set. -/
theorem identities_never_change (pool : Pool ι Table Request) (events : List (ι × Reply)) :
    Along (Pool.step turn) (fun p e => IdentitiesKept p.shared (p.step turn e).shared)
      pool events :=
  Along.of_forall (fun _ _ => writes_identities (turn_writes _ _ _)) pool events

end Runs

def heartbeatOf : Request := .getOrCreateAgent ⟨"t", "x", some "f", false, none, none, none⟩ .get

def tunedPool : Pool ℕ Table Request where
  shared := fun _ _ => none
  parties := fun i =>
    if i = 2 then .operator "t" "x" (.trustLevel 3 (some "ops")) .pending else heartbeatOf

/-- The second registration comes after the operator and finds the row. -/
theorem registration_of_successive_calls :
    RegistrationLaw tunedPool ([0, 0, 2, 1].map fun i => (i, .ok)) :=
  registration_of_noConflict tunedPool _ (by decide)

def afterLateCreate (steps : ℕ) : Pool ℕ Table Request :=
  run (Pool.step turn) tunedPool (([0, 1, 1, 2, 0].take steps).map fun i => (i, .ok))

/-- Both registrations look the agent up; the first to create is tuned by the operator;
then the second create resets trust level and fleet. -/
theorem late_create_resets_trust :
    ¬ RegistrationLaw tunedPool ([0, 1, 1, 2, 0].map fun i => (i, .ok)) ∧
      ((afterLateCreate 4).shared "t" "x").map (fun row => (row.trustLevel, row.fleetId)) =
        some (3, some "ops") ∧
      ((afterLateCreate 5).shared "t" "x").map (fun row => (row.trustLevel, row.fleetId)) =
        some (1, some "f") := by
  have hbefore : ((afterLateCreate 4).shared "t" "x").map (fun row => (row.trustLevel, row.fleetId)) =
      some (3, some "ops") := by decide
  have hafter : ((afterLateCreate 5).shared "t" "x").map (fun row => (row.trustLevel, row.fleetId)) =
      some (1, some "f") := by decide
  refine ⟨fun hlaw => ?_, hbefore, hafter⟩
  obtain ⟨_, _, _, _, hlast, _⟩ := hlaw
  obtain ⟨row, hrow, heq⟩ := Option.map_eq_some_iff.mp hbefore
  obtain ⟨row', hrow', hrule⟩ := hlast "t" "x" row hrow
  rw [show (afterLateCreate 5).shared "t" "x" = some row' from hrow'] at hafter
  have hkept : row'.trustLevel = row.trustLevel := by
    rcases hrule.1 with hsame | hoperator
    · exact hsame
    · exact absurd hoperator (by intro h; exact h)
  simp only [Option.map_some, Option.some.injEq, Prod.mk.injEq] at heq hafter
  rw [hafter.1, heq.1] at hkept
  simp at hkept

end Memclaw.Agents

import Memclaw.Memories.Privacy

/-! What the read routes show an agent below trust 2 of the team memories of other fleets,
against what the check of a single memory would let it read. -/

namespace Memclaw.Memories

open Memclaw.Lib Memclaw.Lib.Interleave Memclaw.Api
open Memclaw.Agents (Agent)
open Memclaw.Contradiction (Status Visibility)

variable {V : Type}

/-- An agent that is registered in a fleet with a trust that does not reach beyond it. -/
structure FleetBound (agents : Agents.Table) (tenantId agentId fleetId : String) (agent : Agent) :
    Prop where
  registered : agents tenantId agentId = some agent
  fleet : agent.fleetId = some fleetId
  fleet_ne : fleetId ≠ ""
  trust : agent.trustLevel < 2

def Readable (agents : Agents.Table) (agentId : String) (m : Memory V) : Prop :=
  authorizeMemoryAccess agents m.tenantId (some agentId) m false = true

/-- A team memory is of the fleet or of none. -/
def InFleet (fleetId : String) (m : Memory V) : Prop :=
  m.visibility = .scopeTeam → m.fleetId = none ∨ m.fleetId = some fleetId

def WithinReach (agents : Agents.Table) (agentId fleetId : String) (m : Memory V) : Prop :=
  InFleet fleetId m ∧ Readable agents agentId m

/-- Every team memory of an answer is of the agent's fleet or of none, and no memory of it
would be refused by id. -/
def FleetConfined (engine : SearchEngine V) (agents : Agents.Table) (reader : Reader)
    (agentId fleetId : String) (t : Table V) (request : ReadRequest) : Prop :=
  ∀ s items, respond engine agents reader t s request = .ok items → ∀ item ∈ items,
    WithinReach agents agentId fleetId item.memory

/-- The requests that stay in the agent's fleet in a store. A list has to name a fleet, a
search has to name at most one and no other agent, a recall has to name the agent too, and all
of them have to stay in the agent's tenant; otherwise nothing that the filters select may be
out of its reach. -/
def KeepsFleet (engine : SearchEngine V) (agents : Agents.Table) (reader : Reader)
    (tenantId agentId fleetId : String) (t : Table V) : ReadRequest → Prop
  | .list q =>
    (orText q.fleetId none ≠ none ∧ q.tenant reader = .ok tenantId ∧ q.widened reader = []) ∨
    ∀ requested, q.tenant reader = .ok requested →
      q.fleetGate reader agents requested (some agentId) = .ok () →
        ∀ m ∈ t, ¬ WithinReach agents agentId fleetId m →
          q.matchesIn requested (q.widened reader) (some agentId) m = false
  | .search body => (NamesNoOther agentId body ∧ body.fleetIds.length ≤ 1 ∧
      reader.isCrossTenantRead = false) ∨
    ∀ scope, searchScope agents reader body = .ok scope →
      ∀ m ∈ t, ¬ WithinReach agents agentId fleetId m → ¬ scope.Reaches engine t m
  | .recallMemories body => (orText body.filterAgentId none = some agentId ∧
      body.fleetIds.length ≤ 1 ∧ reader.isCrossTenantRead = false) ∨
    ∀ scope, recallScope agents reader body = .ok scope →
      ∀ m ∈ t, ¬ WithinReach agents agentId fleetId m → ¬ scope.Reaches engine t m
  | .get memoryId requested => requested = tenantId ∨
    (reader.enforceReadableTenant requested = .ok () → ∀ m ∈ t.getForTenant memoryId requested,
      Readable agents agentId m → InFleet fleetId m)
  | .contradictions memoryId requested => reader.enforceReadableTenant requested = .ok () →
    ∀ m ∈ t.getForTenant memoryId requested, Readable agents agentId m →
      InFleet fleetId m ∧ (∀ other ∈ supersessors t m, WithinReach agents agentId fleetId other) ∧
        ∀ other ∈ older t m, WithinReach agents agentId fleetId other

section Agent

variable {engine : SearchEngine V} {agents : Agents.Table} {reader : Reader}
  {tenantId agentId fleetId : String} {agent : Agent}

theorem FleetBound.readable_iff (hbound : FleetBound agents tenantId agentId fleetId agent)
    (hne : agentId ≠ "") {m : Memory V} (htenant : m.tenantId = tenantId) :
    Readable agents agentId m ↔ m.foreign agentId = false ∧ InFleet fleetId m := by
  simp only [Readable, htenant, authorizeMemoryAccess, orText_some hne, memoryAccessAllowedForAgent,
    hbound.registered, hbound.fleet, Memory.foreign, InFleet]
  have htrust : ¬ (2 : Int) ≤ agent.trustLevel := Int.not_le.mpr hbound.trust
  cases m.visibility with
  | scopeAgent => simp
  | scopeTeam => simp [htrust]
  | scopeOrg => simp

theorem FleetBound.withinReach_of_readable (hbound : FleetBound agents tenantId agentId fleetId agent)
    (hne : agentId ≠ "") {m : Memory V} (htenant : m.tenantId = tenantId)
    (hreadable : Readable agents agentId m) : WithinReach agents agentId fleetId m :=
  ⟨((hbound.readable_iff hne htenant).mp hreadable).2, hreadable⟩

theorem AgentCredential.readableTenantIds (h : AgentCredential reader.auth tenantId agentId)
    (hnarrow : reader.isCrossTenantRead = false) : reader.readableTenantIds = [tenantId] := by
  have hlength : reader.readableTenantIds.length ≤ 1 := by
    rw [Reader.isCrossTenantRead, decide_eq_false_iff_not, Nat.not_lt] at hnarrow
    exact hnarrow
  have hmem : tenantId ∈ reader.readableTenantIds := by
    rw [Reader.readableTenantIds, h.tenant, orText_some h.tenant_ne]
    dsimp only
    split
    · next hlisted => exact List.contains_iff_mem.mp hlisted
    · exact List.mem_cons_self
  obtain ⟨front, back, hsplit⟩ := List.append_of_mem hmem
  rw [hsplit] at hlength ⊢
  rw [List.length_append, List.length_cons] at hlength
  rw [List.length_eq_zero_iff.mp (show front.length = 0 by omega),
    List.length_eq_zero_iff.mp (show back.length = 0 by omega), List.nil_append]

theorem AgentCredential.readable_tenant (h : AgentCredential reader.auth tenantId agentId)
    (hnarrow : reader.isCrossTenantRead = false) {requested : String}
    (hok : reader.enforceReadableTenant requested = .ok ()) : requested = tenantId := by
  rw [Reader.enforceReadableTenant, h.notAdmin, h.readableTenantIds hnarrow, if_neg (by simp)] at hok
  split at hok
  · next hlisted => exact List.mem_singleton.mp (List.contains_iff_mem.mp hlisted)
  · exact nomatch hok

theorem FleetBound.fleet_of_read (hbound : FleetBound agents tenantId agentId fleetId agent)
    {requested : String}
    (hok : enforceFleetRead agents tenantId agentId (some requested) = .ok ()) :
    requested = fleetId := by
  simp only [enforceFleetRead, hbound.registered, hbound.fleet, Option.isNone_some,
    Option.some.injEq] at hok
  split at hok
  · next hown => exact hown.resolve_left nofun
  · split at hok
    · exact nomatch hok
    · next htrust => exact absurd hbound.trust htrust

theorem FleetBound.registerReader (hbound : FleetBound agents tenantId agentId fleetId agent)
    (hint : Option String) :
    Memories.registerReader agents tenantId agentId hint = .ok (agent, agents) := by
  have hlooked : Agents.getOrCreateTurn ⟨tenantId, agentId, hint, false, none, none, none⟩ .ok
      agents .get = (.returned agent, agents) := by
    simp [Agents.getOrCreateTurn, hbound.registered, Agents.GetOrCreateArgs.backfill,
      Agents.AgentData.isEmpty, hbound.fleet]
  simp only [Memories.registerReader, hlooked]
  rfl

theorem FleetBound.scopedFleets (hbound : FleetBound agents tenantId agentId fleetId agent)
    {fleetIds : List String} (hfew : fleetIds.length ≤ 1) :
    ∃ requested, Memories.scopedFleets fleetIds agent = [requested] := by
  match fleetIds, hfew with
  | [], _ =>
    refine ⟨fleetId, ?_⟩
    simp only [Memories.scopedFleets, hbound.fleet, orText_some hbound.fleet_ne,
      if_pos hbound.trust]
  | [requested], _ => exact ⟨requested, rfl⟩

theorem FleetBound.fleetScope (hbound : FleetBound agents tenantId agentId fleetId agent)
    (h : AgentCredential reader.auth tenantId agentId) {body : SearchRequest}
    (htenant : body.tenantId = tenantId) (hfew : body.fleetIds.length ≤ 1)
    {caller : Option String} (hcaller : orText caller none = some agentId) {fleetIds : List String}
    (hok : Memories.fleetScope agents reader.auth body caller = .ok fleetIds) :
    fleetIds = [fleetId] := by
  simp only [Memories.fleetScope, h.tenant, orText_some h.tenant_ne, hcaller, htenant,
    hbound.registerReader] at hok
  obtain ⟨registered, hregistered, hok⟩ := ok_of_bind hok
  obtain rfl := Except.ok.inj hregistered
  obtain ⟨requested, hfleets⟩ := hbound.scopedFleets hfew
  simp only [hfleets] at hok
  obtain ⟨_, hread, hok⟩ := ok_of_bind hok
  obtain rfl := Except.ok.inj hok
  rw [hbound.fleet_of_read hread]

theorem FleetBound.withinReach_of_reaches
    (hbound : FleetBound agents tenantId agentId fleetId agent)
    (h : AgentCredential reader.auth tenantId agentId) {body : SearchRequest}
    (hfew : body.fleetIds.length ≤ 1) (hnarrow : reader.isCrossTenantRead = false)
    {caller : Option String} (hcaller : orText caller none = some agentId) {scope : SearchScope}
    (hscope : scopeFor agents reader body caller = .ok scope) {t : Table V} {m : Memory V}
    (hreaches : scope.Reaches engine t m) : WithinReach agents agentId fleetId m := by
  -- A search as the agent itself with at most one fleet, by a credential for one tenant, reaches
  -- readable memories only.
  obtain ⟨hgate, hfleets, hsame, hwidened, -⟩ := scopeFor_eq_ok hscope
  have hhome : body.tenantId = tenantId := h.readable_tenant hnarrow hgate
  have hown := hbound.fleetScope h hhome hfew hcaller hfleets
  have htenant : m.tenantId = tenantId := by
    rw [hreaches.tenant, hsame, hhome]
    rw [hwidened, Reader.widenedTenantIds, hnarrow]
    rfl
  refine hbound.withinReach_of_readable h.agent_ne htenant
    ((hbound.readable_iff h.agent_ne htenant).mpr ⟨?_, fun hteam => ?_⟩)
  · exact not_foreign_of_visible (.inr hcaller) (visible_of_reaches hscope hreaches)
  · have hadmits := hreaches.admits.2
    simp only [SearchScope.admits, Bool.and_eq_true] at hadmits
    have hfleet := hadmits.1.1.1.2
    rw [inFleets, hown, hteam] at hfleet
    cases hrow : m.fleetId with
    | none => exact .inl rfl
    | some other =>
      rw [hrow] at hfleet
      refine .inr (congrArg some ?_)
      simpa using hfleet

theorem search_within_iff {store : Store V} {Safe : Prop} {Ok : Memory V → Prop}
    {scope : Except HTTPException SearchScope}
    (hsafe : Safe → ∀ sc, scope = .ok sc → ∀ m, sc.Reaches engine store.rows m → Ok m) :
    (∀ s items, (searchIn engine store.rows s scope).map (·.map Shown.memoryOut) = .ok items →
      ∀ item ∈ items, Ok item.memory) ↔
      (Safe ∨ ∀ sc, scope = .ok sc → ∀ m ∈ store.rows, ¬ Ok m →
        ¬ sc.Reaches engine store.rows m) := by
  refine memoryOut_forall_iff.trans (searchIn_forall_iff.trans ?_)
  constructor
  · intro h
    exact .inr fun sc hsc m _ hnot hreaches => hnot (h sc hsc m hreaches)
  · rintro (hholds | hnone) sc hsc m hreaches
    · exact hsafe hholds sc hsc m hreaches
    · by_contra hnot
      exact hnone sc hsc m hreaches.admits.1 hnot hreaches

theorem given_of_orText {filter : Option String} {named : String}
    (hnamed : orText filter none = some named) (p : String → Bool) : given filter p = p named := by
  cases filter with
  | none => simp [orText] at hnamed
  | some s =>
    have hs : s ≠ "" := by
      rintro rfl
      simp [orText] at hnamed
    rw [orText_some hs] at hnamed
    obtain rfl := Option.some.inj hnamed
    simp [given, hs]

theorem FleetBound.withinReach_of_list (hbound : FleetBound agents tenantId agentId fleetId agent)
    (h : AgentCredential reader.auth tenantId agentId) {q : ListQuery}
    (hfleet : orText q.fleetId none ≠ none)
    (hgate : q.fleetGate reader agents tenantId (some agentId) = .ok ()) {m : Memory V}
    (hmatches : q.matchesIn tenantId [] (some agentId) m = true) :
    WithinReach agents agentId fleetId m := by
  obtain ⟨named, hnamed⟩ := Option.ne_none_iff_exists'.mp hfleet
  have hown : named = fleetId := by
    simp only [ListQuery.fleetGate, h.tenant, orText_some h.tenant_ne, orText_some h.agent_ne,
      hnamed] at hgate
    exact hbound.fleet_of_read hgate
  have htenant := ListQuery.tenant_of_matchesIn hmatches
  refine hbound.withinReach_of_readable h.agent_ne htenant
    ((hbound.readable_iff h.agent_ne htenant).mpr ⟨?_, fun _ => .inr ?_⟩)
  · exact not_foreign_of_visible (.inr (orText_some h.agent_ne none))
      (ListQuery.visible_of_matchesIn hmatches)
  · have hrow := ListQuery.fleet_of_matchesIn hmatches
    rw [given_of_orText hnamed, decide_eq_true_eq, hown] at hrow
    exact hrow

theorem tenant_of_getForTenant {t : Table V} {memoryId : ℕ} {requested : String} {m : Memory V}
    (h : m ∈ t.getForTenant memoryId requested) : m.tenantId = requested := by
  obtain ⟨-, hlive⟩ := Option.filter_eq_some_iff.mp h
  exact of_decide_eq_true (Bool.and_eq_true_iff.mp hlive).1

theorem fleet_confined_iff (h : AgentCredential reader.auth tenantId agentId)
    (hbound : FleetBound agents tenantId agentId fleetId agent) (store : Store V)
    (request : ReadRequest) :
    FleetConfined engine agents reader agentId fleetId store.rows request ↔
      KeepsFleet engine agents reader tenantId agentId fleetId store.rows request := by
  cases request with
  | list q =>
    refine memoryOut_forall_iff.trans (listMemories_forall_iff.trans ?_)
    rw [h.caller]
    constructor
    · refine fun hall => .inr fun requested htenant hgate m hm hnot => Bool.eq_false_iff.mpr ?_
      exact fun hmatches => hnot (hall requested htenant hgate m hm hmatches)
    · rintro (⟨hfleet, hhome, hnarrow⟩ | hnone) requested htenant hgate m hm hmatches
      · obtain rfl := Except.ok.inj (hhome.symm.trans htenant)
        rw [hnarrow] at hmatches
        exact hbound.withinReach_of_list h hfleet hgate hmatches
      · by_contra hnot
        rw [hnone requested htenant hgate m hm hnot] at hmatches
        exact nomatch hmatches
  | search body =>
    refine search_within_iff ?_
    rintro ⟨hnames, hfew, hnarrow⟩ sc hsc m hreaches
    exact hbound.withinReach_of_reaches h hfew hnarrow (h.searchCaller hnames) hsc hreaches
  | recallMemories body =>
    refine search_within_iff ?_
    rintro ⟨hself, hfew, hnarrow⟩ sc hsc m hreaches
    exact hbound.withinReach_of_reaches h hfew hnarrow hself hsc hreaches
  | get memoryId requested =>
    refine (get_forall_iff h).trans ⟨fun hall => .inr fun hgate m hm hreadable => ?_, ?_⟩
    · rw [Readable, tenant_of_getForTenant hm] at hreadable
      exact (hall hgate m hm hreadable).1
    · rintro hkeeps hgate m hm hallowed
      have hreadable : Readable agents agentId m := by
        rwa [Readable, tenant_of_getForTenant hm]
      rcases hkeeps with rfl | hfleet
      · exact hbound.withinReach_of_readable h.agent_ne (tenant_of_getForTenant hm) hreadable
      · exact ⟨hfleet hgate m hm hreadable, hreadable⟩
  | contradictions memoryId requested =>
    refine (contradictions_forall_iff h).trans ?_
    refine forall_congr' fun _ => forall₂_congr fun m hm => ?_
    rw [← tenant_of_getForTenant hm]
    refine forall_congr' fun hreadable => and_congr_left' ?_
    exact and_iff_left hreadable

end Agent

theorem sampleAgents_bound :
    FleetBound sampleAgents "t" "b" "f" ⟨some "f", none, none, none, 1, none, false⟩ :=
  ⟨rfl, rfl, by decide, by decide⟩

def otherFleetStore : Store ℕ where
  rows := run step [] [.memoryAdd { sampleMemory with fleetId := some "g" } 1]
  unique := by decide

theorem fleet_confined_sample :
    FleetConfined sampleEngine sampleAgents sampleReader "b" "f" otherFleetStore.rows
      (.search (sampleSearch [] none)) :=
  (fleet_confined_iff sampleCredential_agent sampleAgents_bound otherFleetStore _).mpr
    (.inl ⟨.inl rfl, by decide, by decide⟩)

def sampleList (fleetId : Option String) : ListQuery :=
  ⟨none, fleetId, none, none, [], none, none, none, none, false⟩

/-- A list without a fleet, a search over two fleets and a recall without a filter show it. -/
theorem reads_leave_fleet :
    ¬ FleetConfined sampleEngine sampleAgents sampleReader "b" "f" otherFleetStore.rows
        (.list (sampleList none)) ∧
      ¬ FleetConfined sampleEngine sampleAgents sampleReader "b" "f" otherFleetStore.rows
        (.search (sampleSearch ["f", "g"] none)) ∧
      ¬ FleetConfined sampleEngine sampleAgents sampleReader "b" "f" otherFleetStore.rows
        (.recallMemories (sampleSearch [] none)) := by
  refine ⟨fun h => ?_, fun h => ?_, fun h => ?_⟩
  · exact absurd ((h Surroundings.all _ rfl _ List.mem_cons_self).1 rfl) (by decide)
  · exact absurd ((h Surroundings.all _ rfl _ List.mem_cons_self).1 rfl) (by decide)
  · exact absurd ((h Surroundings.all _ rfl _ List.mem_cons_self).1 rfl) (by decide)

end Memclaw.Memories

import Memclaw.Agents.Writes

/-! The ownership boundary of broker writes. The re-check after the registration sees the
stored row on the create path, but the caller's own copy on the backfill path, so the
boundary holds along a run in which no backfill of an owner comes second. -/

namespace Memclaw.Agents

open Memclaw.Lib Memclaw.Lib.Interleave Memclaw.Api

def Request.attributed : Request → Option (String × String × String)
  | .resolveWriteAgent args (.returned _ agentId) =>
    if args.isInstallCredential then args.installUuid.map fun install =>
      (args.tenantId, install, agentId)
    else none
  | _ => none

/-- Two installs of a tenant never get the same id, and none gets another's label. -/
def OwnershipLaw {ι : Type} (pool : Pool ι Table Request) : Prop :=
  ∀ i j tenantId install install' agentId agentId',
    (pool.parties i).attributed = some (tenantId, install, agentId) →
    (pool.parties j).attributed = some (tenantId, install', agentId') → install ≠ install' →
      agentId ≠ agentId' ∧ agentId ≠ brokerLabel (some install')

def GetOrCreateArgs.backfilling (args : GetOrCreateArgs) : GetOrCreate → Option AgentData
  | .backfill read => some (args.backfill read)
  | _ => none

def Request.backfilling (r : Request) : Option AgentData :=
  r.registering.bind fun state => state.1.backfilling state.2

/-- A backfill of an owner finds its row still without an owner, or with this one. -/
def FirstTouch {ι : Type} (pool : Pool ι Table Request) (event : ι × Reply) : Prop :=
  ∀ data ∈ (pool.parties event.1).backfilling, ∀ owner ∈ data.ownerInstallUuid,
    ∀ row ∈ pool.shared data.tenantId data.agentId,
      event.2 = .refused ∨ row.ownerInstallUuid = none ∨ row.ownerInstallUuid = some owner

instance {ι : Type} (pool : Pool ι Table Request) (event : ι × Reply) :
    Decidable (FirstTouch pool event) :=
  inferInstanceAs (Decidable (∀ data ∈ (pool.parties event.1).backfilling, _))

theorem brokerLabel_eq {install : String} (h : install ≠ "") :
    brokerLabel (some install) = brokerLabelStart ++ install := by
  simp [brokerLabel, h]

theorem brokerLabel_injective {install install' : String} (h : install ≠ "") (h' : install' ≠ "")
    (heq : brokerLabel (some install) = brokerLabel (some install')) : install = install' := by
  rw [brokerLabel_eq h, brokerLabel_eq h'] at heq
  exact String.append_right_inj _ |>.mp heq

theorem reserved_brokerLabel (installUuid : Option String) :
    reserved (brokerLabel installUuid) = true := by
  simp [reserved, brokerLabel, String.toList_append]

def OwnerIs (t : Table) (tenantId agentId : String) (owner : Option String) : Prop :=
  ∃ row, t tenantId agentId = some row ∧ row.ownerInstallUuid = owner

theorem OwnerIs.mono {t t' : Table} (h : IdentitiesKept t t') {tenantId agentId : String}
    {owner : Option String} (hne : owner ≠ none) (ho : OwnerIs t tenantId agentId owner) :
    OwnerIs t' tenantId agentId owner := by
  obtain ⟨row, hrow, rfl⟩ := ho
  obtain ⟨row', hrow', _, howner⟩ := h tenantId agentId row hrow
  exact ⟨row', hrow', howner hne⟩

def Registering (t : Table) (tenantId agentId : String) : GetOrCreate → Prop
  | .backfill read =>
    read.ownerInstallUuid ≠ none → OwnerIs t tenantId agentId read.ownerInstallUuid
  | .returned agent =>
    agent.ownerInstallUuid ≠ none ∧ OwnerIs t tenantId agentId agent.ownerInstallUuid
  | _ => True

/-- What a broker write knows: it registers an id that is its own label or no label, and
what it returned is its own label or an agent that it owns. -/
def Brokering (t : Table) (tenantId install : String) : Resolve → Prop
  | .first agentId state =>
    (agentId = brokerLabel (some install) ∨ reserved agentId = false) ∧
      Registering t tenantId agentId state
  | .returned _ agentId =>
    agentId = brokerLabel (some install) ∨
      (reserved agentId = false ∧ OwnerIs t tenantId agentId (some install))
  | _ => True

def Request.Knows (t : Table) : Request → Prop
  | .resolveWriteAgent args state =>
    args.isInstallCredential = true → ∀ install, args.installUuid = some install →
      Brokering t args.tenantId install state
  | _ => True

theorem Registering.mono {t t' : Table} (h : IdentitiesKept t t') {tenantId agentId : String}
    {state : GetOrCreate} (hs : Registering t tenantId agentId state) :
    Registering t' tenantId agentId state := by
  cases state with
  | backfill read => exact fun hne => (hs hne).mono h hne
  | returned agent => exact ⟨hs.1, hs.2.mono h hs.1⟩
  | get | legacy | create | raised => exact hs

theorem Request.Knows.mono {t t' : Table} (h : IdentitiesKept t t') {r : Request}
    (hr : r.Knows t) : r.Knows t' := by
  cases r with
  | resolveWriteAgent args state =>
    intro hcred install hinstall
    have hb := hr hcred install hinstall
    cases state with
    | first agentId state => exact ⟨hb.1, hb.2.mono h⟩
    | returned agent agentId =>
      rcases hb with hlabel | ⟨hfree, howner⟩
      · exact .inl hlabel
      · exact .inr ⟨hfree, howner.mono h (by simp)⟩
    | gate | second | raised => trivial
  | getOrCreateAgent args state => trivial
  | operator tenantId agentId update state => trivial

theorem ownerIs_agentAdd {t t' : Table} {data : AgentData} {row : Agent} {install : String}
    (hadd : t.agentAdd data = some (t', row)) (hdata : data.ownerInstallUuid = some install) :
    row.ownerInstallUuid ≠ none ∧ OwnerIs t' data.tenantId data.agentId row.ownerInstallUuid := by
  obtain ⟨rfl, rfl⟩ := agentAdd_eq hadd
  refine ⟨?_, _, Table.set_same .., rfl⟩
  unfold AgentData.stored
  split
  · simp [AgentData.row, hdata]
  · simp [AgentData.merge, hdata]

theorem registering_get {args : GetOrCreateArgs} {reply : Reply} {t : Table} {install : String}
    (hargs : args.ownerInstallUuid = some install) :
    Registering t args.tenantId args.agentId (getOrCreateTurn args reply t .get).1 := by
  simp only [getOrCreateTurn]
  split
  · next agent hrow =>
    split_ifs with hempty
    · -- a row without an owner would be given the install
      refine ⟨fun hnone => ?_, agent, hrow, rfl⟩
      simp [AgentData.isEmpty, GetOrCreateArgs.backfill, hnone, hargs] at hempty
    · exact fun _ => ⟨agent, hrow, rfl⟩
  · split_ifs <;> trivial
  · trivial

theorem registering_turn {args : GetOrCreateArgs} {reply : Reply} {t : Table} {install : String}
    {state : GetOrCreate} (hargs : args.ownerInstallUuid = some install)
    (hs : Registering t args.tenantId args.agentId state)
    (hfirst : ∀ data ∈ args.backfilling state, ∀ owner ∈ data.ownerInstallUuid,
      ∀ row ∈ t data.tenantId data.agentId,
        reply = .refused ∨ row.ownerInstallUuid = none ∨ row.ownerInstallUuid = some owner) :
    Registering (getOrCreateTurn args reply t state).2 args.tenantId args.agentId
      (getOrCreateTurn args reply t state).1 := by
  cases state with
  | get =>
    have hsame : (getOrCreateTurn args reply t .get).2 = t := by
      rcases getOrCreateTurn_writes args reply t .get with h | ⟨data, row, hpost, _⟩
      · exact h
      · simp [GetOrCreateArgs.posting] at hpost
    rw [hsame]
    exact registering_get hargs
  | backfill read =>
    simp only [getOrCreateTurn]
    split
    · next hadd =>
      cases howner : read.ownerInstallUuid with
      | none =>
        -- the owner goes in: the row had none, or this one already
        have hdata : (args.backfill read).ownerInstallUuid = some install := by
          simp [GetOrCreateArgs.backfill, howner, hargs]
        have hcopy : ((args.backfill read).updateCopy read).ownerInstallUuid = some install := by
          simp [AgentData.updateCopy, hdata]
        rw [Registering, hcopy]
        refine ⟨by simp, ?_⟩
        obtain ⟨-, rfl⟩ := agentAdd_eq hadd
        refine ⟨_, Table.set_same .., ?_⟩
        unfold AgentData.stored
        split
        · exact hdata
        · next row hrow =>
          rcases hfirst _ rfl install hdata row hrow with hreply | hnone | hsame
          · simp at hreply
          · simp [AgentData.merge, hnone, hdata]
          · simp [AgentData.merge, hsame]
      | some owner =>
        have hdata : (args.backfill read).ownerInstallUuid = none := by
          simp [GetOrCreateArgs.backfill, howner]
        have hcopy : ((args.backfill read).updateCopy read).ownerInstallUuid = some owner := by
          simp [AgentData.updateCopy, hdata, howner]
        have hkept : IdentitiesKept t _ := writes_identities
          (.post (.getOrCreateAgent args (.backfill read)) rfl rfl (by decide : Reply.ok ≠ .refused)
            hadd)
        have hstored : OwnerIs t args.tenantId args.agentId (some owner) :=
          howner ▸ hs (by simp [howner])
        rw [Registering, hcopy]
        exact ⟨by simp, hstored.mono hkept (by simp)⟩
    · trivial
    · trivial
  | legacy =>
    simp only [getOrCreateTurn]
    split <;> trivial
  | create carried =>
    simp only [getOrCreateTurn]
    split
    · next hadd => exact ownerIs_agentAdd hadd hargs
    · trivial
    · trivial
  | returned agent => exact hs
  | raised e => trivial

theorem brokering_gate {args : ResolveArgs} {reply : Reply} {t : Table} {install : String}
    (hcred : args.isInstallCredential = true) (hinstall : args.installUuid = some install) :
    Brokering t args.tenantId install (resolveTurn args reply t .gate).1 := by
  simp only [resolveTurn, hcred, if_true]
  split
  · next agentId hgate =>
    refine ⟨?_, trivial⟩
    simp only [brokerOwnedAgentId, hinstall, Option.isNone_some, Bool.false_eq_true, if_false] at hgate
    split at hgate
    · next hlabel => exact .inl (Option.some.inj hgate ▸ hlabel)
    · split at hgate
      · exact .inl (Option.some.inj hgate).symm
      · next hfree =>
        have hfree : reserved args.chosenAgentId = false := by simpa using hfree
        split at hgate
        · split at hgate
          · exact .inr (Option.some.inj hgate ▸ hfree)
          · split at hgate
            · exact .inl (Option.some.inj hgate).symm
            · exact .inr (Option.some.inj hgate ▸ hfree)
        · simp at hgate
  · trivial

theorem brokering_afterFirst {args : ResolveArgs} {t : Table} {install agentId : String}
    (hcred : args.isInstallCredential = true) (hinstall : args.installUuid = some install)
    (hne : install ≠ "") (hid : agentId = brokerLabel (some install) ∨ reserved agentId = false)
    {state : GetOrCreate} (hs : Registering t args.tenantId agentId state) :
    Brokering t args.tenantId install (args.afterFirst agentId state) := by
  cases state with
  | returned agent =>
    simp only [ResolveArgs.afterFirst]
    split
    · trivial
    · next hcheck =>
      have hmine : agent.ownerInstallUuid = some install := by
        have hsome := Option.isSome_iff_ne_none.mpr hs.1
        simpa [hcred, hinstall, hne, ownedByOtherInstall, hsome] using hcheck
      rcases hid with hlabel | hfree
      · exact .inl hlabel
      · exact .inr ⟨hfree, hmine ▸ hs.2⟩
  | raised e => trivial
  | get | backfill | legacy | create => exact ⟨hid, hs⟩

theorem knows_turn {reply : Reply} {t : Table} {r : Request} (hr : r.Knows t)
    (hne : ∀ args state, r = .resolveWriteAgent args state → args.installUuid ≠ some "")
    (hfirst : ∀ data ∈ r.backfilling, ∀ owner ∈ data.ownerInstallUuid,
      ∀ row ∈ t data.tenantId data.agentId,
        reply = .refused ∨ row.ownerInstallUuid = none ∨ row.ownerInstallUuid = some owner) :
    (turn reply r t).1.Knows (turn reply r t).2 := by
  cases r with
  | resolveWriteAgent args state =>
    intro hcred install hinstall
    change args.installUuid = some install at hinstall
    change args.isInstallCredential = true at hcred
    have hnonempty : install ≠ "" := by
      rintro rfl
      exact hne args state rfl hinstall
    have hb := hr hcred install hinstall
    cases state with
    | gate =>
      have hsame : (resolveTurn args reply t .gate).2 = t := by
        simp only [resolveTurn, hcred, if_true]
        split <;> rfl
      change Brokering (resolveTurn args reply t .gate).2 args.tenantId install _
      rw [hsame]
      exact brokering_gate hcred hinstall
    | first agentId state =>
      have hargs : (args.register agentId).ownerInstallUuid = some install := by
        simp [ResolveArgs.register, hcred, hinstall]
      exact brokering_afterFirst hcred hinstall hnonempty hb.1 (registering_turn hargs hb.2 hfirst)
    | second state =>
      change Brokering _ args.tenantId install (args.afterSecond _)
      unfold ResolveArgs.afterSecond
      split
      · exact .inl (by rw [hinstall])
      · trivial
      · trivial
    | returned agent agentId => exact hb
    | raised e => trivial
  | getOrCreateAgent args state => trivial
  | operator tenantId agentId update state => trivial

section Runs

variable {ι : Type} [DecidableEq ι]

def Request.Identified : Request → Prop
  | .resolveWriteAgent args _ => args.installUuid ≠ some ""
  | _ => True

def OwnershipInv (pool : Pool ι Table Request) : Prop :=
  pool.Holds (fun _ => True) (fun _ r t => r.Identified ∧ r.Knows t) fun _ _ => True

theorem identified_turn {reply : Reply} {t : Table} {r : Request} (h : r.Identified) :
    (turn reply r t).1.Identified := by
  cases r with
  | resolveWriteAgent args state => exact h
  | getOrCreateAgent args state => trivial
  | operator tenantId agentId update state => trivial

theorem step_ownershipInv (pool : Pool ι Table Request) (event : ι × Reply) (h : OwnershipInv pool)
    (hok : FirstTouch pool event) : OwnershipInv (pool.step turn event) := by
  obtain ⟨hident, hknows⟩ := h.own event.1
  refine Pool.Holds.step h event _ rfl trivial ⟨identified_turn hident, ?_⟩ (fun j _ => ?_)
    fun _ _ => ⟨trivial, trivial⟩
  · refine knows_turn hknows (fun args state hr => ?_) hok
    rw [hr] at hident
    exact hident
  · exact ⟨(h.own j).1, (h.own j).2.mono (writes_identities (turn_writes _ _ _))⟩

theorem attributed_cases {t : Table} {r : Request} {tenantId install agentId : String}
    (hident : r.Identified) (hknows : r.Knows t)
    (h : r.attributed = some (tenantId, install, agentId)) :
    install ≠ "" ∧ (agentId = brokerLabel (some install) ∨
      (reserved agentId = false ∧ OwnerIs t tenantId agentId (some install))) := by
  unfold Request.attributed at h
  split at h
  · next args agent agentId' =>
    split_ifs at h with hcred
    obtain ⟨install', hinstall, heq⟩ := Option.map_eq_some_iff.mp h
    simp only [Prod.mk.injEq] at heq
    obtain ⟨rfl, rfl, rfl⟩ := heq
    refine ⟨?_, hknows hcred install' hinstall⟩
    rintro rfl
    exact hident hinstall
  · simp at h

/-- From any agents table, in every interleaving whose owner backfills are first touches,
no two installs of a tenant get the same agent id. -/
theorem ownership_of_first_touch (pool : Pool ι Table Request)
    (hfresh : ∀ i, (pool.parties i).fresh = true) (hident : ∀ i, (pool.parties i).Identified)
    (events : List (ι × Reply)) (h : Along (Pool.step turn) FirstTouch pool events) :
    OwnershipLaw (run (Pool.step turn) pool events) := by
  have hstart : OwnershipInv pool := by
    refine ⟨trivial, fun i => ⟨hident i, ?_⟩, fun _ _ _ => trivial⟩
    have hfresh := hfresh i
    generalize pool.parties i = r at hfresh
    unfold Request.fresh at hfresh
    split at hfresh
    · exact fun _ _ _ => trivial
    · trivial
    · trivial
    · simp at hfresh
  have hinv := Along.invariant step_ownershipInv hstart h
  intro i j tenantId install install' agentId agentId' hi hj hne
  obtain ⟨hnonempty, hmine⟩ := attributed_cases (hinv.own i).1 (hinv.own i).2 hi
  obtain ⟨hnonempty', htheirs⟩ := attributed_cases (hinv.own j).1 (hinv.own j).2 hj
  have hlabel : agentId ≠ brokerLabel (some install') := by
    rintro rfl
    rcases hmine with heq | ⟨hfree, _⟩
    · exact hne (brokerLabel_injective hnonempty hnonempty' heq.symm)
    · simp [reserved_brokerLabel] at hfree
  refine ⟨?_, hlabel⟩
  rintro rfl
  rcases htheirs with heq | ⟨hfree, row', hrow', howner'⟩
  · exact hlabel heq
  · rcases hmine with rfl | ⟨_, row, hrow, howner⟩
    · simp [reserved_brokerLabel] at hfree
    · obtain rfl : row = row' := Option.some.inj (hrow.symm.trans hrow')
      exact hne (Option.some.inj (howner.symm.trans howner'))

end Runs

def unowned : Agent := ⟨none, none, none, none, 1, none, false⟩

def writeAs (install : String) : Request :=
  .resolveWriteAgent ⟨"x", "t", none, true, some install, false⟩ .gate

def racingPool : Pool Bool Table Request where
  shared := fun tenantId agentId => if tenantId = "t" ∧ agentId = "x" then some unowned else none
  parties := fun second => writeAs (if second then "J" else "I")

theorem racingPool_fresh (second : Bool) :
    (racingPool.parties second).fresh = true ∧ (racingPool.parties second).Identified := by
  cases second with
  | false => exact ⟨rfl, show some "I" ≠ some "" by decide⟩
  | true => exact ⟨rfl, show some "J" ≠ some "" by decide⟩

/-- One write after the other: the second is degraded to its own label. -/
theorem ownership_of_successive_writes :
    OwnershipLaw (run (Pool.step turn) racingPool
      ([false, false, false, true, true, true, true].map fun i => (i, .ok))) :=
  ownership_of_first_touch racingPool (fun i => (racingPool_fresh i).1)
    (fun i => (racingPool_fresh i).2) _ (by decide)

def afterRace : Pool Bool Table Request :=
  run (Pool.step turn) racingPool ([false, true, false, true, false, true].map fun i => (i, .ok))

/-- Both installs read the row without an owner, both backfill it, and both get its id. -/
theorem racing_installs_share_agent :
    (∀ i, (racingPool.parties i).fresh = true ∧ (racingPool.parties i).Identified) ∧
      ¬ OwnershipLaw afterRace := by
  refine ⟨racingPool_fresh, fun hlaw => ?_⟩
  have hI : (afterRace.parties false).attributed = some ("t", "I", "x") := by decide
  have hJ : (afterRace.parties true).attributed = some ("t", "J", "x") := by decide
  exact (hlaw false true "t" "I" "J" "x" "x" hI hJ (by decide)).1 rfl

end Memclaw.Agents

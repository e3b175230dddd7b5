import Memclaw.Memories.Authority
import Memclaw.Memories.Reads

/-! What the read routes show an agent of the private memories of others. -/

namespace Memclaw.Memories

open Memclaw.Lib Memclaw.Lib.Interleave Memclaw.Api
open Memclaw.Contradiction (Status Visibility)

variable {V : Type}

def Memory.foreign (agentId : String) (m : Memory V) : Bool :=
  m.visibility = .scopeAgent && m.agentId ≠ agentId

def NamesNoOther (agentId : String) (body : SearchRequest) : Prop :=
  orText body.filterAgentId none = none ∨ orText body.filterAgentId none = some agentId

theorem orText_none_right (a b : Option String) :
    orText a b = (orText a none).or b := by
  cases a with
  | none => rfl
  | some s =>
    simp only [orText]
    split
    · rfl
    · rfl

theorem not_foreign_of_visible {agentId : String} {caller : Option String}
    (hcaller : orText caller none = none ∨ orText caller none = some agentId) {m : Memory V}
    (h : visibleTo caller m = true) : m.foreign agentId = false := by
  simp only [visibleTo, Bool.or_eq_true, decide_eq_true_eq] at h
  rw [← Bool.not_eq_true, Memory.foreign, Bool.and_eq_true, decide_eq_true_eq, decide_eq_true_eq]
  rintro ⟨hscope, hagent⟩
  rcases h with hother | hown
  · exact hother hscope
  · rcases hcaller with hnone | hself
    · rw [hnone] at hown
      exact nomatch hown
    · rw [hself] at hown
      exact hagent (of_decide_eq_true hown)

section Agent

variable {engine : SearchEngine V} {agents : Agents.Table} {reader : Reader}
  {auth : AuthContext} {tenantId agentId : String}

theorem AgentCredential.caller (h : AgentCredential auth tenantId agentId) (other : Option String) :
    orText auth.agentId other = some agentId := by
  rw [h.agent, orText_some h.agent_ne]

theorem AgentCredential.searchCaller (h : AgentCredential auth tenantId agentId)
    {body : SearchRequest} (hnames : NamesNoOther agentId body) :
    orText (orText body.filterAgentId auth.agentId) none = some agentId := by
  rw [orText_none_right body.filterAgentId, h.agent]
  rcases hnames with hnone | hself
  · rw [hnone, Option.none_or, orText_some h.agent_ne]
  · rw [hself, Option.some_or, orText_some h.agent_ne]

theorem scopeFor_eq_ok {body : SearchRequest} {caller : Option String} {scope : SearchScope}
    (h : scopeFor agents reader body caller = .ok scope) :
    reader.enforceReadableTenant body.tenantId = .ok () ∧
      fleetScope agents reader.auth body caller = .ok scope.fleetIds ∧
      scope.tenantId = body.tenantId ∧ scope.readableTenantIds = reader.widenedTenantIds ∧
      scope.callerAgentId = caller := by
  obtain ⟨_, htenant, h⟩ := ok_of_bind h
  obtain ⟨fleetIds, hfleets, h⟩ := ok_of_bind h
  obtain rfl := Except.ok.inj h
  exact ⟨htenant, hfleets, rfl, rfl, rfl⟩

theorem visible_of_reaches {body : SearchRequest} {caller : Option String} {scope : SearchScope}
    (hscope : scopeFor agents reader body caller = .ok scope) {t : Table V} {m : Memory V}
    (h : scope.Reaches engine t m) : visibleTo caller m = true := by
  have hadmits := h.admits.2
  simp only [SearchScope.admits, Bool.and_eq_true] at hadmits
  rw [← (scopeFor_eq_ok hscope).2.2.2.2]
  exact hadmits.1.1.2

theorem Store.get_eq_some {store : Store V} {id : ℕ} {m : Memory V} :
    store.rows.get id = some m ↔ m ∈ store.rows ∧ m.id = id := by
  constructor
  · intro h
    have hid := List.find?_some h
    exact ⟨List.mem_of_find?_eq_some h, of_decide_eq_true hid⟩
  · rintro ⟨hm, rfl⟩
    cases hget : store.rows.get m.id with
    | none => exact absurd (decide_eq_true rfl) (List.find?_eq_none.mp hget m hm)
    | some other =>
      have hid := List.find?_some hget
      exact congrArg some
        (Store.eq_of_id (List.mem_of_find?_eq_some hget) hm (of_decide_eq_true hid))

/-- Stores that differ in private memories of others only. -/
def SameButForeign (agentId : String) (t t' : Table V) : Prop :=
  t.filter (fun m => !m.foreign agentId) = t'.filter (fun m => !m.foreign agentId)

theorem SameButForeign.filter {t t' : Table V} (hsame : SameButForeign agentId t t')
    {p : Memory V → Bool} (h : ∀ m ∈ t, p m = true → m.foreign agentId = false)
    (h' : ∀ m ∈ t', p m = true → m.foreign agentId = false) : t.filter p = t'.filter p := by
  refine Rows.filter_eq_of_agree hsame (fun m hm hp => ?_) (fun m hm hp => ?_)
  · rw [h m hm hp]
    rfl
  · rw [h' m hm hp]
    rfl

theorem SameButForeign.get {store store' : Store V}
    (hsame : SameButForeign agentId store.rows store'.rows) {id : ℕ} {p : Memory V → Bool}
    (h : ∀ m ∈ store.rows.get id, p m = true → m.foreign agentId = false)
    (h' : ∀ m ∈ store'.rows.get id, p m = true → m.foreign agentId = false) :
    (store.rows.get id).filter p = (store'.rows.get id).filter p := by
  -- A lookup by id that keeps no private memory of another finds the same in both.
  have hrows := hsame.filter (p := fun m => p m && m.id = id)
    (fun m hm hp => ?_) (fun m hm hp => ?_)
  · ext m
    simp only [Option.filter_eq_some_iff, Store.get_eq_some]
    have hmem : m ∈ store.rows.filter (fun m => p m && m.id = id) ↔
        m ∈ store'.rows.filter (fun m => p m && m.id = id) := by rw [hrows]
    simp only [List.mem_filter, Bool.and_eq_true, decide_eq_true_eq] at hmem
    tauto
  · obtain ⟨hpm, hid⟩ := Bool.and_eq_true_iff.mp hp
    exact h m (Store.get_eq_some.mpr ⟨hm, of_decide_eq_true hid⟩) hpm
  · obtain ⟨hpm, hid⟩ := Bool.and_eq_true_iff.mp hp
    exact h' m (Store.get_eq_some.mpr ⟨hm, of_decide_eq_true hid⟩) hpm

end Agent

def sampleStore : Store ℕ where
  rows := run step [] [.memoryAdd { sampleMemory with agentId := "b" } 1,
    .memoryAdd { sampleMemory with visibility := .scopeAgent } 2, .setSupersedes 1 "t" 0]
  unique := by decide

def sampleEngine : SearchEngine ℕ := ⟨fun _ => true, id, none⟩

def sampleReader : Reader := ⟨sampleCredential, []⟩

def sampleSearch (fleetIds : List String) (filterAgentId : Option String) : SearchRequest :=
  ⟨"t", fleetIds, filterAgentId, none, none, none⟩

end Memclaw.Memories

import Memclaw.Memories.ReadDefs

/-! The rows that a list or a search can return, over every ranking and paging. -/

namespace Memclaw.Memories

open Memclaw.Lib Memclaw.Api

variable {V : Type}

theorem Store.eq_of_id {store : Store V} {m m' : Memory V} (hm : m ∈ store.rows)
    (hm' : m' ∈ store.rows) (hid : m.id = m'.id) : m = m' :=
  List.inj_on_of_nodup_map store.unique hm hm' hid

namespace SearchScope

/-- A candidate of the search, or a successor of a superseded candidate. -/
def Reaches (scope : SearchScope) (engine : SearchEngine V) (t : Table V) (m : Memory V) : Prop :=
  m ∈ scope.direct engine t ∨
    ∃ old ∈ scope.direct engine t, old.superseded = true ∧ m ∈ t ∧ scope.succeeds [old.id] m = true

theorem mem_direct {scope : SearchScope} {engine : SearchEngine V} {t : Table V} {m : Memory V}
    (hm : m ∈ scope.direct engine t) :
    m ∈ t ∧ scope.inTenants m = true ∧ scope.admits m = true := by
  have hscored : m ∈ t.filter (scope.scored engine) →
      m ∈ t ∧ scope.inTenants m = true ∧ scope.admits m = true := by
    intro h
    obtain ⟨hmem, hp⟩ := List.mem_filter.mp h
    simp only [scored, Bool.and_eq_true] at hp
    exact ⟨hmem, hp.1.1.1⟩
  unfold direct at hm
  split at hm
  · exact hscored hm
  · next ids _ =>
    split at hm
    · exact hscored hm
    · obtain ⟨hmem, hp⟩ := List.mem_filter.mp hm
      simp only [loaded, Bool.and_eq_true] at hp
      exact ⟨hmem, hp.1.1.1⟩

theorem admits_of_succeeds {scope : SearchScope} {ids : List ℕ} {m : Memory V}
    (h : scope.succeeds ids m = true) : m.tenantId = scope.tenantId ∧ scope.admits m = true := by
  simp only [succeeds, Bool.and_eq_true, decide_eq_true_eq] at h
  exact h.1.1.1

theorem Reaches.admits {scope : SearchScope} {engine : SearchEngine V} {t : Table V}
    {m : Memory V} (h : scope.Reaches engine t m) : m ∈ t ∧ scope.admits m = true := by
  rcases h with hdirect | ⟨_, _, _, hm, hsucceeds⟩
  · exact ⟨(mem_direct hdirect).1, (mem_direct hdirect).2.2⟩
  · exact ⟨hm, (admits_of_succeeds hsucceeds).2⟩

theorem Reaches.tenant {scope : SearchScope} (hnarrow : scope.readableTenantIds = [])
    {engine : SearchEngine V} {t : Table V} {m : Memory V} (h : scope.Reaches engine t m) :
    m.tenantId = scope.tenantId := by
  rcases h with hdirect | ⟨_, _, _, _, hsucceeds⟩
  · have htenant := (mem_direct hdirect).2.1
    rwa [inTenants, if_pos hnarrow, decide_eq_true_eq] at htenant
  · exact (admits_of_succeeds hsucceeds).1

theorem succeeds_one {scope : SearchScope} {ids : List ℕ} {m : Memory V}
    (h : scope.succeeds ids m = true) : ∃ id ∈ ids, scope.succeeds [id] m = true := by
  simp only [succeeds, Bool.and_eq_true] at h
  obtain ⟨⟨⟨hadmits, hids⟩, hstatus⟩, hvalid⟩ := h
  obtain ⟨id, hid, hcontains⟩ := (Option.any_eq_true ..).mp hids
  refine ⟨id, List.contains_iff_mem.mp hcontains, ?_⟩
  simp only [succeeds, hadmits, hstatus, hvalid, hid, Option.any_some, Bool.and_true,
    List.contains_cons, List.contains_nil, Bool.or_false, beq_self_eq_true]

theorem succeeds_of_mem {scope : SearchScope} {id : ℕ} {ids : List ℕ} {m : Memory V}
    (h : scope.succeeds [id] m = true) (hid : id ∈ ids) : scope.succeeds ids m = true := by
  simp only [succeeds, Bool.and_eq_true] at h ⊢
  obtain ⟨⟨⟨hadmits, hany⟩, hstatus⟩, hvalid⟩ := h
  refine ⟨⟨⟨hadmits, ?_⟩, hstatus⟩, hvalid⟩
  obtain ⟨other, hother, hcontains⟩ := (Option.any_eq_true ..).mp hany
  have heq : other = id := List.mem_singleton.mp (List.contains_iff_mem.mp hcontains)
  exact (Option.any_eq_true ..).mpr ⟨id, heq ▸ hother, List.contains_iff_mem.mpr hid⟩

theorem not_superseded_of_succeeds {scope : SearchScope} {ids : List ℕ} {m : Memory V}
    (h : scope.succeeds ids m = true) : m.superseded = false := by
  simp only [succeeds, Bool.and_eq_true, Bool.or_eq_true, decide_eq_true_eq] at h
  rcases h.1.2 with hactive | hconfirmed
  · simp [Memory.superseded, hactive]
  · simp [Memory.superseded, hconfirmed]

end SearchScope

theorem mem_searchMemories {engine : SearchEngine V} {t : Table V} {s : Surroundings V}
    {scope : SearchScope} {m : Memory V} (hm : m ∈ searchMemories engine t s scope) :
    scope.Reaches engine t m := by
  simp only [searchMemories, List.mem_append] at hm
  rcases hm with hrow | hsuccessor
  · exact .inl (s.keep_subset _ hrow)
  · obtain ⟨hmem, -⟩ := List.mem_filter.mp hsuccessor
    split at hmem
    · exact absurd hmem List.not_mem_nil
    · obtain ⟨hm, hsucceeds⟩ := List.mem_filter.mp hmem
      obtain ⟨id, hid, hone⟩ := SearchScope.succeeds_one hsucceeds
      obtain ⟨old, hold, rfl⟩ := List.mem_map.mp (List.mem_of_mem_take hid)
      obtain ⟨hkept, hsuperseded⟩ := List.mem_filter.mp hold
      exact .inr ⟨old, s.keep_subset _ hkept, hsuperseded, hm, hone⟩

def Surroundings.only (id : ℕ) : Surroundings V where
  keep rows := rows.filter fun m => m.id = id
  keep_subset _ := List.filter_subset_self _
  successorsFail := false
  refusal := none

theorem Surroundings.only_outdated {rows : Table V} {old : Memory V} (hold : old ∈ rows)
    (hsuperseded : old.superseded = true) :
    old.id ∈ (((((Surroundings.only old.id : Surroundings V).keep rows).filter
      (·.superseded)).map (·.id)).take maxSuccessorLookups) := by
  -- The superseded row is among those whose successors are looked up.
  have hkept : old ∈ ((Surroundings.only old.id : Surroundings V).keep rows).filter
      (·.superseded) :=
    List.mem_filter.mpr ⟨List.mem_filter.mpr ⟨hold, decide_eq_true rfl⟩, hsuperseded⟩
  -- all rows that are kept have its id, so the first is enough
  cases hrows : ((Surroundings.only old.id : Surroundings V).keep rows).filter (·.superseded) with
  | nil =>
    rw [hrows] at hkept
    exact absurd hkept List.not_mem_nil
  | cons first rest =>
    have hfirst : first ∈ ((Surroundings.only old.id : Surroundings V).keep rows).filter
        (·.superseded) := hrows ▸ List.mem_cons_self
    have hid : first.id = old.id :=
      of_decide_eq_true (List.mem_filter.mp (List.mem_filter.mp hfirst).1).2
    rw [List.map_cons, maxSuccessorLookups, List.take_succ_cons, hid]
    exact List.mem_cons_self

theorem searchMemories_of_reaches {engine : SearchEngine V} {store : Store V}
    {scope : SearchScope} {m : Memory V} (h : scope.Reaches engine store.rows m) :
    ∃ s : Surroundings V, s.refusal = none ∧ m ∈ searchMemories engine store.rows s scope := by
  rcases h with hdirect | ⟨old, hold, hsuperseded, hm, hsucceeds⟩
  · refine ⟨Surroundings.all, rfl, ?_⟩
    exact List.mem_append_left _ hdirect
  · refine ⟨Surroundings.only old.id, rfl, ?_⟩
    simp only [searchMemories, List.mem_append]
    refine .inr (List.mem_filter.mpr ⟨List.mem_filter.mpr ⟨hm, ?_⟩, ?_⟩)
    · exact SearchScope.succeeds_of_mem hsucceeds (Surroundings.only_outdated hold hsuperseded)
    · -- the only rows kept are those of the superseded one
      have hne : m.id ≠ old.id := by
        intro hid
        have heq := Store.eq_of_id hm (SearchScope.mem_direct hold).1 hid
        have hnot := SearchScope.not_superseded_of_succeeds hsucceeds
        rw [heq, hsuperseded] at hnot
        exact nomatch hnot
      rw [Bool.not_eq_true', ← Bool.not_eq_true, List.contains_iff_mem, List.mem_map]
      rintro ⟨row, hrow, hid⟩
      have hkept := of_decide_eq_true (List.mem_filter.mp hrow).2
      exact hne (hid.symm.trans hkept)

theorem searchIn_forall_iff {engine : SearchEngine V} {store : Store V}
    {scope : Except HTTPException SearchScope} {Ok : Memory V → Prop} :
    (∀ s rows, searchIn engine store.rows s scope = .ok rows → ∀ m ∈ rows, Ok m) ↔
      ∀ sc, scope = .ok sc → ∀ m, sc.Reaches engine store.rows m → Ok m := by
  constructor
  · rintro h sc rfl m hm
    obtain ⟨s, hs, hmem⟩ := searchMemories_of_reaches hm
    refine h s _ ?_ m hmem
    simp only [searchIn, Surroundings.proceed, hs]
    rfl
  · intro h s rows hrows m hm
    obtain ⟨sc, hscope, hrows⟩ := ok_of_bind hrows
    obtain ⟨_, -, hrows⟩ := ok_of_bind hrows
    obtain rfl := Except.ok.inj hrows
    exact h sc hscope m (mem_searchMemories hm)

namespace ListQuery

variable {q : ListQuery} {requested : String} {readable : List String} {caller : Option String}
  {m : Memory V}

theorem matches_of_matchesIn (h : q.matchesIn requested readable caller m = true) :
    q.matches m.tenantId caller m = true := by
  unfold ListQuery.matchesIn at h
  split at h
  · have htenant := h
    simp only [ListQuery.matches, Bool.and_eq_true, decide_eq_true_eq] at htenant
    rwa [htenant.1.1.1.1.1.1.1.1.1.1]
  · exact (Bool.and_eq_true_iff.mp h).2

theorem tenant_of_matchesIn (h : q.matchesIn requested [] caller m = true) :
    m.tenantId = requested := by
  rw [ListQuery.matchesIn, if_pos rfl] at h
  simp only [ListQuery.matches, Bool.and_eq_true, decide_eq_true_eq] at h
  exact h.1.1.1.1.1.1.1.1.1.1

theorem visible_of_matchesIn (h : q.matchesIn requested readable caller m = true) :
    visibleTo caller m = true := by
  have hmatches := matches_of_matchesIn h
  simp only [ListQuery.matches, Bool.and_eq_true] at hmatches
  exact hmatches.1.1.1.1.1.1.1.1.1.2

theorem fleet_of_matchesIn (h : q.matchesIn requested readable caller m = true) :
    given q.fleetId (m.fleetId = some ·) = true := by
  have hmatches := matches_of_matchesIn h
  simp only [ListQuery.matches, Bool.and_eq_true] at hmatches
  exact hmatches.1.1.1.1.1.1.1.1.2

end ListQuery

theorem listMemories_forall_iff {agents : Agents.Table} {reader : Reader} {t : Table V}
    {q : ListQuery} {Ok : Memory V → Prop} :
    (∀ s rows, listMemories agents reader t s q = .ok rows → ∀ m ∈ rows, Ok m) ↔
      ∀ tenantId, q.tenant reader = .ok tenantId →
        q.fleetGate reader agents tenantId (orText reader.auth.agentId q.agentId) = .ok () →
          ∀ m ∈ t, q.matchesIn tenantId (q.widened reader)
            (orText reader.auth.agentId q.agentId) m = true → Ok m := by
  constructor
  · intro h tenantId htenant hgate m hm hmatches
    refine h Surroundings.all _ ?_ m (List.mem_filter.mpr ⟨hm, hmatches⟩)
    simp only [listMemories, htenant, bind, Except.bind, hgate]
    rfl
  · intro h s rows hrows m hm
    obtain ⟨tenantId, htenant, hrows⟩ := ok_of_bind hrows
    obtain ⟨_, hgate, hrows⟩ := ok_of_bind hrows
    obtain ⟨_, -, hrows⟩ := ok_of_bind hrows
    obtain rfl := Except.ok.inj hrows
    obtain ⟨hmem, hmatches⟩ := List.mem_filter.mp (s.keep_subset _ hm)
    exact h tenantId htenant hgate m hmem hmatches

theorem memoryOut_forall_iff {answer : Surroundings V → Except HTTPException (List (Memory V))}
    {P : Shown V → Prop} :
    (∀ s items, (answer s).map (·.map .memoryOut) = .ok items → ∀ item ∈ items, P item) ↔
      ∀ s rows, answer s = .ok rows → ∀ m ∈ rows, P (.memoryOut m) := by
  constructor
  · intro h s rows hrows m hm
    exact h s _ (by rw [hrows]; rfl) _ (List.mem_map_of_mem hm)
  · intro h s items hitems item hitem
    cases hrows : answer s with
    | error e =>
      rw [hrows] at hitems
      exact nomatch hitems
    | ok rows =>
      rw [hrows] at hitems
      obtain rfl := Except.ok.inj hitems
      obtain ⟨m, hm, rfl⟩ := List.mem_map.mp hitem
      exact h s rows hrows m hm

section Agent

variable {engine : SearchEngine V} {agents : Agents.Table} {reader : Reader}
  {tenantId agentId : String}

theorem getMemory_eq_ok (h : AgentCredential reader.auth tenantId agentId) {t : Table V}
    {memoryId : ℕ} {requested : String} {m : Memory V} :
    getMemory agents reader t memoryId requested = .ok m ↔
      reader.enforceReadableTenant requested = .ok () ∧ m ∈ t.getForTenant memoryId requested ∧
        authorizeMemoryAccess agents requested (some agentId) m false = true := by
  unfold getMemory
  rw [h.agent]
  cases hgate : reader.enforceReadableTenant requested with
  | error e => exact ⟨nofun, fun h => nomatch h.1⟩
  | ok u =>
    simp only [bind, Except.bind, true_and]
    cases hget : t.getForTenant memoryId requested with
    | none => exact ⟨nofun, fun h => nomatch h.1⟩
    | some row =>
      simp only [Option.mem_some_iff]
      split
      · next hallowed =>
        constructor
        · rintro heq
          obtain rfl := Except.ok.inj heq
          exact ⟨rfl, hallowed⟩
        · rintro ⟨rfl, -⟩
          rfl
      · next hnot =>
        constructor
        · exact nofun
        · rintro ⟨rfl, hallowed⟩
          exact absurd hallowed hnot

theorem get_forall_iff (h : AgentCredential reader.auth tenantId agentId) {t : Table V}
    {memoryId : ℕ} {requested : String} {P : Shown V → Prop} :
    (∀ s items, respond engine agents reader t s (.get memoryId requested) = .ok items →
      ∀ item ∈ items, P item) ↔
      (reader.enforceReadableTenant requested = .ok () → ∀ m ∈ t.getForTenant memoryId requested,
        authorizeMemoryAccess agents requested (some agentId) m false = true →
          P (.memoryOut m)) := by
  constructor
  · intro hall hgate m hm hallowed
    have hget : getMemory agents reader t memoryId requested = .ok m :=
      (getMemory_eq_ok h).mpr ⟨hgate, hm, hallowed⟩
    exact hall Surroundings.all [.memoryOut m] (by rw [respond, hget]; rfl) _ List.mem_cons_self
  · intro hkeeps s items hitems item hitem
    cases hget : getMemory agents reader t memoryId requested with
    | error e =>
      rw [respond, hget] at hitems
      exact nomatch hitems
    | ok m =>
      rw [respond, hget] at hitems
      obtain rfl := Except.ok.inj hitems
      obtain rfl := List.mem_singleton.mp hitem
      obtain ⟨hgate, hm, hallowed⟩ := (getMemory_eq_ok h).mp hget
      exact hkeeps hgate m hm hallowed

theorem contradictions_forall_iff (h : AgentCredential reader.auth tenantId agentId) {t : Table V}
    {memoryId : ℕ} {requested : String} {P : Shown V → Prop} :
    (∀ s items, respond engine agents reader t s (.contradictions memoryId requested) = .ok items →
      ∀ item ∈ items, P item) ↔
      (reader.enforceReadableTenant requested = .ok () → ∀ m ∈ t.getForTenant memoryId requested,
        authorizeMemoryAccess agents requested (some agentId) m false = true →
          P (.finding m) ∧ (∀ other ∈ supersessors t m, P (.finding other)) ∧
            ∀ other ∈ older t m, P (.finding other)) := by
  constructor
  · intro hall hgate m hm hallowed
    have hget : getMemory agents reader t memoryId requested = .ok m :=
      (getMemory_eq_ok h).mpr ⟨hgate, hm, hallowed⟩
    have hitems :
        respond engine agents reader t Surroundings.all (.contradictions memoryId requested) =
          .ok ((m :: (supersessors t m ++ (older t m).toList)).map .finding) := by
      simp only [respond, getContradictions, hget]
      rfl
    have hshown : ∀ other ∈ m :: (supersessors t m ++ (older t m).toList), P (.finding other) :=
      fun other hother => hall _ _ hitems _ (List.mem_map_of_mem hother)
    refine ⟨hshown m List.mem_cons_self, fun other hother => hshown other ?_,
      fun other hother => hshown other ?_⟩
    · exact List.mem_cons_of_mem _ (List.mem_append_left _ hother)
    · exact List.mem_cons_of_mem _ (List.mem_append_right _ (Option.mem_toList.mpr hother))
  · intro hkeeps s items hitems item hitem
    obtain ⟨target, htarget, hitems⟩ := ok_of_bind hitems
    obtain rfl := Except.ok.inj hitems
    obtain ⟨m, hm, rfl⟩ := List.mem_map.mp hitem
    obtain ⟨hgate, hget, hallowed⟩ := (getMemory_eq_ok h).mp htarget
    obtain ⟨hself, hnewer, holder⟩ := hkeeps hgate target hget hallowed
    rcases List.mem_cons.mp hm with rfl | hother
    · exact hself
    · rcases List.mem_append.mp hother with hsup | hold
      · exact hnewer m hsup
      · exact holder m (Option.mem_toList.mp hold)

end Agent

end Memclaw.Memories

import Memclaw.Audit.Append

/-! Whole batches: the grouping by tenant, what each group of a batch leaves alone,
and the chain of one tenant along any sequence of batches. -/

namespace Memclaw.Audit

open Memclaw.Lib Memclaw.Lib.Sha256
open Memclaw.Lib.HashChain (walk)

variable {chars : CharData} {columns : Columns} {env : Env}

theorem groupByTenant_append (events : List Event) (ev : Event) :
    groupByTenant (events ++ [ev]) = appendToGroup ev (groupByTenant events) := by
  simp only [groupByTenant, List.foldl_append, List.foldl_cons, List.foldl_nil]

theorem appendToGroup_keys (ev : Event) (groups : List (String × List Event)) :
    (appendToGroup ev groups).map Prod.fst =
      if ev.tenantId ∈ groups.map Prod.fst then groups.map Prod.fst
      else groups.map Prod.fst ++ [ev.tenantId] := by
  induction groups with
  | nil => rfl
  | cons group groups ih =>
    obtain ⟨tenant, events⟩ := group
    by_cases htenant : tenant = ev.tenantId
    · simp [appendToGroup, htenant]
    · have hne : ev.tenantId ≠ tenant := fun h => htenant h.symm
      simp only [appendToGroup, if_neg htenant, List.map_cons, ih, List.mem_cons, hne, false_or]
      split_ifs <;> rfl

theorem mem_appendToGroup {ev : Event} {groups : List (String × List Event)}
    (hnodup : (groups.map Prod.fst).Nodup) {tenant : String} {events : List Event}
    (hmem : (tenant, events) ∈ appendToGroup ev groups) :
    (tenant ≠ ev.tenantId ∧ (tenant, events) ∈ groups) ∨
      (tenant = ev.tenantId ∧ ∃ before, events = before ++ [ev] ∧
        ((tenant, before) ∈ groups ∨ (tenant ∉ groups.map Prod.fst ∧ before = []))) := by
  -- Under distinct keys, only the group of the event's tenant changes.
  induction groups with
  | nil =>
    obtain ⟨rfl, rfl⟩ : tenant = ev.tenantId ∧ events = [ev] := by simpa [appendToGroup] using hmem
    exact .inr ⟨rfl, [], rfl, .inr ⟨by simp, rfl⟩⟩
  | cons group groups ih =>
    obtain ⟨t, evs⟩ := group
    obtain ⟨hfresh, hnodup'⟩ := List.nodup_cons.mp hnodup
    unfold appendToGroup at hmem
    split_ifs at hmem with ht
    · rcases List.mem_cons.mp hmem with heq | hmem
      · obtain ⟨rfl, rfl⟩ := Prod.mk.inj heq
        exact .inr ⟨ht, evs, rfl, .inl (List.mem_cons_self ..)⟩
      · refine .inl ⟨?_, List.mem_cons_of_mem _ hmem⟩
        rintro rfl
        exact hfresh (List.mem_map.mpr ⟨_, hmem, ht.symm⟩)
    · rcases List.mem_cons.mp hmem with heq | hmem
      · obtain ⟨rfl, rfl⟩ := Prod.mk.inj heq
        exact .inl ⟨ht, List.mem_cons_self ..⟩
      · rcases ih hnodup' hmem with ⟨hne, h⟩ | ⟨heq, before, hbefore, h⟩
        · exact .inl ⟨hne, List.mem_cons_of_mem _ h⟩
        · refine .inr ⟨heq, before, hbefore, h.imp (List.mem_cons_of_mem _) ?_⟩
          rintro ⟨hnot, hnil⟩
          refine ⟨?_, hnil⟩
          rw [List.map_cons, List.mem_cons, not_or]
          exact ⟨fun h => ht (h.symm.trans heq), hnot⟩

theorem groupByTenant_spec (events : List Event) :
    ((groupByTenant events).map Prod.fst).Nodup ∧
      (∀ tenant, tenant ∈ (groupByTenant events).map Prod.fst ↔ ∃ ev ∈ events, ev.tenantId = tenant) ∧
      ∀ group ∈ groupByTenant events, group.2 = events.filter (·.tenantId = group.1) := by
  induction events using List.reverseRecOn with
  | nil => simp [groupByTenant]
  | append_singleton events ev ih =>
    obtain ⟨hnodup, hkeys, hgroups⟩ := ih
    rw [groupByTenant_append, appendToGroup_keys]
    refine ⟨?_, fun tenant => ?_, ?_⟩
    · split_ifs with hmem
      · exact hnodup
      · refine List.nodup_append.mpr ⟨hnodup, by simp, ?_⟩
        rintro t ht t' ht' rfl
        exact hmem (List.mem_singleton.mp ht' ▸ ht)
    · have hlast : (∃ e ∈ events ++ [ev], e.tenantId = tenant) ↔
          (∃ e ∈ events, e.tenantId = tenant) ∨ tenant = ev.tenantId := by
        simp [or_and_right, exists_or, eq_comm]
      rw [hlast, ← hkeys]
      split_ifs with hmem
      · exact ⟨.inl, fun h => h.elim id fun heq => heq ▸ hmem⟩
      · rw [List.mem_append, List.mem_singleton]
    · rintro ⟨tenant, evs⟩ hgroup
      rw [List.filter_append]
      rcases mem_appendToGroup hnodup hgroup with ⟨hne, hold⟩ | ⟨rfl, before, rfl, hold⟩
      · rw [hgroups _ hold]
        have hnot : ¬ ev.tenantId = tenant := fun h => hne h.symm
        simp [hnot]
      · have hbefore : before = events.filter (·.tenantId = ev.tenantId) := by
          rcases hold with hold | ⟨hnot, rfl⟩
          · exact hgroups _ hold
          · rw [hkeys] at hnot
            symm
            refine List.filter_eq_nil_iff.mpr fun e he => ?_
            simpa using fun heq => hnot ⟨e, he, heq⟩
        simp [hbefore]

theorem runGroups_frame {groups : List (String × List Event)} (tables : Tables) {t : String}
    (ht : t ∉ groups.map Prod.fst) :
    (runGroups chars columns env groups tables).1.rowsOf t = tables.rowsOf t ∧
      (runGroups chars columns env groups tables).1.chainHead t = tables.chainHead t := by
  induction groups generalizing tables with
  | nil => exact ⟨rfl, rfl⟩
  | cons group groups ih =>
    obtain ⟨tenant, events⟩ := group
    rw [List.map_cons, List.mem_cons, not_or] at ht
    unfold runGroups
    split
    · rename_i tables' hok
      obtain ⟨hrows, hhead⟩ := auditChainOneTenant_frame hok ht.1
      obtain ⟨hrows', hhead'⟩ := ih tables' ht.2
      exact ⟨hrows'.trans hrows, hhead'.trans hhead⟩
    · exact ⟨rfl, rfl⟩

theorem runGroups_raised_mem {groups : List (String × List Event)} {tables : Tables} {t : String}
    {e : AuditError} (hraise : (runGroups chars columns env groups tables).2 = some (t, e)) :
    t ∈ groups.map Prod.fst := by
  induction groups generalizing tables with
  | nil => cases hraise
  | cons group groups ih =>
    obtain ⟨tenant, events⟩ := group
    unfold runGroups at hraise
    split at hraise
    · exact List.mem_cons_of_mem _ (ih hraise)
    · obtain ⟨rfl, -⟩ := Prod.mk.inj (Option.some.inj hraise)
      exact List.mem_cons_self ..

theorem runGroups_raised {groups : List (String × List Event)} {tables : Tables}
    (hnodup : (groups.map Prod.fst).Nodup) {t : String} {e : AuditError}
    (hraise : (runGroups chars columns env groups tables).2 = some (t, e)) :
    (runGroups chars columns env groups tables).1.rowsOf t = tables.rowsOf t ∧
      (runGroups chars columns env groups tables).1.chainHead t = tables.chainHead t := by
  induction groups generalizing tables with
  | nil => cases hraise
  | cons group groups ih =>
    obtain ⟨tenant, events⟩ := group
    obtain ⟨hfresh, hnodup⟩ := List.nodup_cons.mp hnodup
    unfold runGroups at hraise ⊢
    split at hraise
    · rename_i tables' hok
      have ht : t ≠ tenant := fun heq => hfresh (heq ▸ runGroups_raised_mem hraise)
      obtain ⟨hrows, hhead⟩ := auditChainOneTenant_frame hok ht
      obtain ⟨hrows', hhead'⟩ := ih hnodup hraise
      exact ⟨hrows'.trans hrows, hhead'.trans hhead⟩
    · exact ⟨rfl, rfl⟩

def acceptedIds (chars : CharData) (columns : Columns) (env : Env) :
    List (String × List Event) → Tables → List (String × String)
  | [], _ => []
  | (tenant, events) :: groups, tables =>
    match auditChainOneTenant chars columns env tenant events tables with
    | .ok tables' =>
      (eventIds events).map (tenant, ·) ++ acceptedIds chars columns env groups tables'
    | .error _ => []

/-- Every group keeps the chain of every tenant, and a group that commits has each of its
ids in the chain. -/
theorem runGroups_chain (hdoc : columns.Documented chars) {tenant : String}
    {groups : List (String × List Event)} {tables : Tables}
    (hexact : ∀ group ∈ groups, group.1 = tenant → ∀ ev ∈ group.2, JsonbExact ev.detail)
    (hinv : ChainInvariant chars tables tenant) :
    ChainInvariant chars (runGroups chars columns env groups tables).1 tenant ∧
      ∀ id, id ∈ rowIds (tables.rowsOf tenant) ∨
          (tenant, id) ∈ acceptedIds chars columns env groups tables →
        id ∈ rowIds ((runGroups chars columns env groups tables).1.rowsOf tenant) := by
  induction groups generalizing tables with
  | nil =>
    refine ⟨hinv, ?_⟩
    rintro id (hold | hnew)
    · exact hold
    · cases hnew
  | cons group groups ih =>
    obtain ⟨t, events⟩ := group
    have hexact' : ∀ group ∈ groups, group.1 = tenant → ∀ ev ∈ group.2, JsonbExact ev.detail :=
      fun group hgroup => hexact group (List.mem_cons_of_mem _ hgroup)
    cases hok : auditChainOneTenant chars columns env t events tables with
    | error e =>
      simp only [runGroups, acceptedIds, hok]
      exact ⟨hinv, fun id hid => hid.elim (fun hold => hold) fun hnew => nomatch hnew⟩
    | ok tables' =>
      simp only [runGroups, acceptedIds, hok]
      -- the step keeps the tenant's chain, whether or not the group is the tenant's own
      have hstep : ChainInvariant chars tables' tenant ∧
          ∀ id, id ∈ rowIds (tables.rowsOf tenant) ∨ (t = tenant ∧ id ∈ eventIds events) →
            id ∈ rowIds (tables'.rowsOf tenant) := by
        by_cases ht : t = tenant
        · subst ht
          obtain ⟨hinv', hids⟩ := auditChainOneTenant_chain hdoc
            (hexact _ (List.mem_cons_self ..) rfl) hok hinv
          exact ⟨hinv', fun id hid => hids id (hid.imp_right And.right)⟩
        · obtain ⟨hrows, hhead⟩ := auditChainOneTenant_frame hok (t := tenant) fun h => ht h.symm
          have hhead' : tables'.headOf tenant = tables.headOf tenant := by
            rw [Tables.headOf, Tables.headOf, hhead]
          obtain ⟨hlinked, hnodup⟩ := hinv
          rw [← hrows, ← hhead'] at hlinked
          rw [← hrows] at hnodup
          refine ⟨⟨hlinked, hnodup⟩, ?_⟩
          rintro id (hold | ⟨heq, -⟩)
          · rwa [hrows]
          · exact absurd heq ht
      obtain ⟨hinv', hids⟩ := ih hexact' hstep.1
      refine ⟨hinv', fun id hid => hids id ?_⟩
      rcases hid with hold | hnew
      · exact .inl (hstep.2 id (.inl hold))
      · rcases List.mem_append.mp hnew with hnew | hnew
        · obtain ⟨i, hi, heq⟩ := List.mem_map.mp hnew
          obtain ⟨rfl, rfl⟩ := Prod.mk.inj heq
          exact .inl (hstep.2 i (.inr ⟨rfl, hi⟩))
        · exact .inr hnew

end Memclaw.Audit

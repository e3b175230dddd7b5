import Memclaw.Audit.Verify

/-! One tenant's transaction of the chained batch insert: which events it chains,
when it raises, and that it extends the tenant's chain and touches no other. -/

namespace Memclaw.Audit

open Memclaw.Lib Memclaw.Lib.Sha256
open Memclaw.Lib.HashChain (walk)

variable (chars : CharData) (columns : Columns) (env : Env)

def fresh : List String → List Event → List Event
  | _, [] => []
  | known, ev :: events =>
    if ev.duplicate known then fresh known events
    else ev :: fresh (ev.clientEventId.toList ++ known) events

def linkRows (tenant : String) : List Event → Int → Bytes → List AuditLog
  | [], _, _ => []
  | ev :: events, seq, prevHash =>
    ev.toRow chars env tenant (seq + 1) prevHash ::
      linkRows tenant events (seq + 1) (ev.hash chars env tenant (seq + 1) prevHash)

def linkHead (tenant : String) : List Event → Int → Bytes → AuditChainHead
  | [], seq, prevHash => ⟨seq, prevHash⟩
  | ev :: events, seq, prevHash =>
    linkHead tenant events (seq + 1) (ev.hash chars env tenant (seq + 1) prevHash)

theorem chainEvents_eq (tenant : String) (events : List Event) (seq : ℤ) (prevHash : Bytes)
    (known : List String) :
    chainEvents chars env tenant events seq prevHash known =
      if (fresh known events).all (assertPiiSafe chars ·.detail) then
        .ok (linkRows chars env tenant (fresh known events) seq prevHash,
          linkHead chars env tenant (fresh known events) seq prevHash)
      else .error .piiInAudit := by
  induction events generalizing seq prevHash known with
  | nil => rfl
  | cons ev events ih =>
    by_cases hdup : ev.duplicate known
    · simp only [chainEvents, fresh, hdup, if_true, ih]
    · by_cases hsafe : assertPiiSafe chars ev.detail
      · simp only [chainEvents, fresh, hdup, hsafe, if_false, Bool.not_true, Bool.false_eq_true,
          ih, List.all_cons, Bool.true_and]
        cases (fresh (ev.clientEventId.toList ++ known) events).all (assertPiiSafe chars ·.detail)
        · rfl
        · rfl
      · simp [chainEvents, fresh, hdup, hsafe]

def eventIds (events : List Event) : List String := events.filterMap (·.clientEventId)

def rowIds (rows : List AuditLog) : List String := rows.filterMap (·.clientEventId)

theorem eventIds_cons (ev : Event) (events : List Event) :
    eventIds (ev :: events) = ev.clientEventId.toList ++ eventIds events := by
  cases h : ev.clientEventId <;> simp [eventIds, h]

theorem duplicate_iff {ev : Event} {known : List String} :
    ev.duplicate known = true ↔ ∃ id ∈ known, ev.clientEventId = some id := by
  cases h : ev.clientEventId <;> simp [Event.duplicate, h]

theorem fresh_subset (known : List String) (events : List Event) :
    ∀ ev ∈ fresh known events, ev ∈ events := by
  induction events generalizing known with
  | nil => simp [fresh]
  | cons ev events ih =>
    intro e he
    unfold fresh at he
    split_ifs at he
    · exact List.mem_cons_of_mem _ (ih _ e he)
    · rcases List.mem_cons.mp he with rfl | he
      · exact List.mem_cons_self ..
      · exact List.mem_cons_of_mem _ (ih _ e he)

theorem fresh_ids (known : List String) (events : List Event) :
    (eventIds (fresh known events)).Nodup ∧ ∀ id ∈ eventIds (fresh known events), id ∉ known := by
  induction events generalizing known with
  | nil => simp [fresh, eventIds]
  | cons ev events ih =>
    unfold fresh
    split_ifs with hdup
    · exact ih known
    · obtain ⟨hnodup, hnew⟩ := ih (ev.clientEventId.toList ++ known)
      rw [duplicate_iff] at hdup
      rw [eventIds_cons]
      cases hid : ev.clientEventId with
      | none =>
        simp only [hid, Option.toList_none, List.nil_append] at hnodup hnew ⊢
        exact ⟨hnodup, hnew⟩
      | some id =>
        simp only [hid, Option.toList_some, List.singleton_append, List.mem_cons,
          not_or] at hnodup hnew ⊢
        refine ⟨List.nodup_cons.mpr ⟨fun hmem => (hnew id hmem).1 rfl, hnodup⟩, ?_⟩
        rintro i (rfl | hi)
        · exact fun hknown => hdup ⟨i, hknown, hid⟩
        · exact (hnew i hi).2

theorem eventIds_covered (known : List String) (events : List Event) :
    ∀ id ∈ eventIds events, id ∈ known ∨ id ∈ eventIds (fresh known events) := by
  induction events generalizing known with
  | nil => simp [eventIds]
  | cons ev events ih =>
    intro id hid
    rw [eventIds_cons, List.mem_append] at hid
    unfold fresh
    split_ifs with hdup
    · rcases hid with hid | hid
      · obtain ⟨i, hi, hev⟩ := duplicate_iff.mp hdup
        simp only [hev, Option.toList_some, List.mem_singleton] at hid
        exact .inl (hid ▸ hi)
      · exact ih known id hid
    · rw [eventIds_cons, List.mem_append]
      rcases hid with hid | hid
      · exact .inr (.inl hid)
      · rcases ih (ev.clientEventId.toList ++ known) id hid with h | h
        · rcases List.mem_append.mp h with h | h
          · exact .inr (.inl h)
          · exact .inl h
        · exact .inr (.inr h)

variable {chars columns env}

theorem insertAll_eq_some {log log' rows : List AuditLog}
    (h : insertAll columns log rows = some log') :
    ∃ stored, log' = log ++ stored ∧
      List.Forall₂ (fun row s => columns.store row = some s) rows stored := by
  induction rows generalizing log with
  | nil => exact ⟨[], by simpa [insertAll, eq_comm] using h, .nil⟩
  | cons row rows ih =>
    unfold insertAll at h
    split at h
    · rename_i s hs
      split_ifs at h
      obtain ⟨stored, rfl, hrows⟩ := ih h
      exact ⟨s :: stored, by rw [List.append_assoc]; rfl, .cons hs hrows⟩
    · cases h

theorem Columns.store_fields {row stored : AuditLog} (h : columns.store row = some stored) :
    stored.tenantId = row.tenantId ∧ stored.seq = row.seq ∧ stored.prevHash = row.prevHash ∧
      stored.eventHash = row.eventHash ∧ stored.clientEventId = row.clientEventId := by
  obtain ⟨-, r, d, -, -, rfl⟩ := store_eq_some h
  exact ⟨rfl, rfl, rfl, rfl, rfl⟩

theorem walk_stored (hdoc : columns.Documented chars) {tenant : String} {events : List Event}
    (hexact : ∀ ev ∈ events, JsonbExact ev.detail) {stored : List AuditLog} {n : ℕ} {h : Bytes}
    (hstored : List.Forall₂ (fun row s => columns.store row = some s)
      (linkRows chars env tenant events n h) stored) :
    ∃ k, walk (rowCheck chars) n h stored = some (n + stored.length, k) ∧
      linkHead chars env tenant events n h = ⟨(n + stored.length : ℕ), k⟩ := by
  -- The stored rows extend a chain that ends in row `n` with hash `h`.
  induction events generalizing n h stored with
  | nil =>
    cases hstored
    exact ⟨h, rfl, rfl⟩
  | cons ev events ih =>
    rcases hstored with _ | ⟨hrow, hrest⟩
    rename_i s stored
    obtain ⟨htenant, hseq, hprev, hhash, -⟩ := Columns.store_fields hrow
    have hcheck : rowCheck chars (n + 1) h s = some (ev.hash chars env tenant (n + 1) h) := by
      rw [rowCheck_eq_some_iff]
      refine ⟨hseq, hprev, hhash, ?_⟩
      rw [hdoc.canonicalEvent hrow (hexact ev (List.mem_cons_self ..))]
      rfl
    obtain ⟨k, hwalk, hhead⟩ := ih (n := n + 1)
      (fun e he => hexact e (List.mem_cons_of_mem _ he)) hrest
    refine ⟨k, ?_, ?_⟩
    · rw [HashChain.walk_cons_of_check hcheck, hwalk, List.length_cons]
      congr 2
      omega
    · rw [linkHead, List.length_cons, show n + (stored.length + 1) = n + 1 + stored.length by omega,
        ← hhead]
      rfl

theorem stored_fields {tenant : String} {events : List Event} {stored : List AuditLog} {seq : ℤ}
    {h : Bytes} (hstored : List.Forall₂ (fun row s => columns.store row = some s)
      (linkRows chars env tenant events seq h) stored) :
    (∀ row ∈ stored, row.tenantId = tenant) ∧ rowIds stored = eventIds events := by
  induction events generalizing seq h stored with
  | nil =>
    cases hstored
    exact ⟨by simp, rfl⟩
  | cons ev events ih =>
    rcases hstored with _ | ⟨hrow, hrest⟩
    rename_i s stored
    obtain ⟨htenant, -, -, -, hid⟩ := Columns.store_fields hrow
    have htenant : s.tenantId = tenant := htenant
    have hid : s.clientEventId = ev.clientEventId := hid
    obtain ⟨htenants, hids⟩ := ih hrest
    refine ⟨List.forall_mem_cons.mpr ⟨htenant, htenants⟩, ?_⟩
    simp only [rowIds, eventIds, List.filterMap_cons, hid] at hids ⊢
    rw [hids]

def freshOf (tables : Tables) (tenant : String) (events : List Event) : List Event :=
  fresh (alreadyChained tables tenant events) events

theorem auditChainOneTenant_eq_ok {tenant : String} {events : List Event} {tables tables' : Tables}
    (h : auditChainOneTenant chars columns env tenant events tables = .ok tables') :
    ∃ stored, List.Forall₂ (fun row s => columns.store row = some s)
        (linkRows chars env tenant (freshOf tables tenant events) (tables.headOf tenant).lastSeq
          (tables.headOf tenant).lastHash) stored ∧
      tables' = { tables with auditLog := tables.auditLog ++ stored }.setHead tenant
        (linkHead chars env tenant (freshOf tables tenant events) (tables.headOf tenant).lastSeq
          (tables.headOf tenant).lastHash) := by
  unfold auditChainOneTenant at h
  simp only [chainEvents_eq] at h
  split_ifs at h with htext hsafe
  simp only at h
  split at h
  · cases h
  · rename_i log hinsert
    obtain ⟨stored, rfl, hstored⟩ := insertAll_eq_some hinsert
    exact ⟨stored, hstored, (Except.ok.inj h).symm⟩

theorem rowsOf_append (tables : Tables) {stored : List AuditLog} {tenant : String}
    (htenant : ∀ row ∈ stored, row.tenantId = tenant) (t : String) :
    Tables.rowsOf { tables with auditLog := tables.auditLog ++ stored } t =
      tables.rowsOf t ++ if t = tenant then stored else [] := by
  simp only [Tables.rowsOf, List.filter_append]
  congr 1
  split_ifs with ht
  · subst ht
    exact List.filter_eq_self.mpr fun row hrow => by simpa using htenant row hrow
  · refine List.filter_eq_nil_iff.mpr fun row hrow => ?_
    simpa [htenant row hrow] using fun heq : tenant = t => ht heq.symm

@[simp] theorem rowsOf_setHead (tables : Tables) (tenant t : String) (head : AuditChainHead) :
    (tables.setHead tenant head).rowsOf t = tables.rowsOf t := rfl

@[simp] theorem headOf_setHead (tables : Tables) (tenant : String) (head : AuditChainHead) :
    (tables.setHead tenant head).headOf tenant = head := by
  simp [Tables.setHead, Tables.headOf]

theorem auditChainOneTenant_frame {tenant : String} {events : List Event} {tables tables' : Tables}
    (h : auditChainOneTenant chars columns env tenant events tables = .ok tables') {t : String}
    (ht : t ≠ tenant) :
    tables'.rowsOf t = tables.rowsOf t ∧ tables'.chainHead t = tables.chainHead t := by
  obtain ⟨stored, hstored, rfl⟩ := auditChainOneTenant_eq_ok h
  have hrows := rowsOf_append tables (stored_fields hstored).1 t
  rw [if_neg ht, List.append_nil] at hrows
  exact ⟨hrows, if_neg ht⟩

theorem mem_alreadyChained {tables : Tables} {tenant : String} {events : List Event} {id : String} :
    id ∈ alreadyChained tables tenant events ↔
      id ∈ rowIds (tables.rowsOf tenant) ∧ id ∈ eventIds events := by
  simp only [alreadyChained, List.mem_filter, List.contains_iff_mem]
  rfl

theorem freshOf_nodup {tables : Tables} {tenant : String} (events : List Event)
    (hnodup : (rowIds (tables.rowsOf tenant)).Nodup) :
    (rowIds (tables.rowsOf tenant) ++ eventIds (freshOf tables tenant events)).Nodup := by
  obtain ⟨hfresh, hnew⟩ := fresh_ids (alreadyChained tables tenant events) events
  refine List.nodup_append.mpr ⟨hnodup, hfresh, ?_⟩
  rintro id hid id' hid' rfl
  obtain ⟨ev, hev, hevid⟩ := List.mem_filterMap.mp hid'
  have hbatch : id ∈ eventIds events :=
    List.mem_filterMap.mpr ⟨ev, fresh_subset _ events ev hev, hevid⟩
  exact hnew id hid' (mem_alreadyChained.mpr ⟨hid, hbatch⟩)

theorem freshOf_covers {tables : Tables} {tenant : String} {events : List Event} {id : String}
    (hid : id ∈ eventIds events) :
    id ∈ rowIds (tables.rowsOf tenant) ++ eventIds (freshOf tables tenant events) := by
  rcases eventIds_covered (alreadyChained tables tenant events) events id hid with hold | hnew
  · exact List.mem_append_left _ (mem_alreadyChained.mp hold).1
  · exact List.mem_append_right _ hnew

/-- A tenant's rows form a chain that ends in its head, and no client event id is
chained twice. -/
structure ChainInvariant (chars : CharData) (tables : Tables) (tenant : String) : Prop where
  linked : ∃ k, walk (rowCheck chars) 0 genesisPrevHash (tables.rowsOf tenant) =
      some ((tables.rowsOf tenant).length, k) ∧
    tables.headOf tenant = ⟨(tables.rowsOf tenant).length, k⟩
  nodup : (rowIds (tables.rowsOf tenant)).Nodup

/-- A committed transaction extends the chain, keeps its client event ids, and has each
id of the batch chained. -/
theorem auditChainOneTenant_chain (hdoc : columns.Documented chars) {tenant : String}
    {events : List Event} {tables tables' : Tables}
    (hexact : ∀ ev ∈ events, JsonbExact ev.detail)
    (h : auditChainOneTenant chars columns env tenant events tables = .ok tables')
    (hinv : ChainInvariant chars tables tenant) :
    ChainInvariant chars tables' tenant ∧
      ∀ id, id ∈ rowIds (tables.rowsOf tenant) ∨ id ∈ eventIds events →
        id ∈ rowIds (tables'.rowsOf tenant) := by
  obtain ⟨stored, hstored, rfl⟩ := auditChainOneTenant_eq_ok h
  obtain ⟨htenants, hids⟩ := stored_fields hstored
  obtain ⟨k, hwalk, hhead⟩ := hinv.linked
  rw [hhead] at hstored ⊢
  have hexact' : ∀ ev ∈ freshOf tables tenant events, JsonbExact ev.detail := fun ev hev =>
    hexact ev (fresh_subset _ events ev hev)
  obtain ⟨k', hwalk', hhead'⟩ := walk_stored hdoc hexact' hstored
  have hrows := rowsOf_append tables htenants tenant
  rw [if_pos rfl] at hrows
  have hrowIds : rowIds (tables.rowsOf tenant ++ stored) =
      rowIds (tables.rowsOf tenant) ++ eventIds (freshOf tables tenant events) := by
    rw [← hids, rowIds, rowIds, rowIds, List.filterMap_append]
  refine ⟨⟨⟨k', ?_, ?_⟩, ?_⟩, ?_⟩
  · rw [rowsOf_setHead, hrows, HashChain.walk_append hwalk, hwalk', List.length_append]
  · rw [rowsOf_setHead, headOf_setHead, hrows, List.length_append]
    exact hhead'
  · rw [rowsOf_setHead, hrows, hrowIds]
    exact freshOf_nodup events hinv.nodup
  · rw [rowsOf_setHead, hrows, hrowIds]
    rintro id (hold | hbatch)
    · exact List.mem_append_left _ hold
    · exact freshOf_covers hbatch

end Memclaw.Audit

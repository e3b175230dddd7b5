import Memclaw.Audit.Runs

/-! Tenant isolation inside one batch. A group's outcome depends on its own tenant
only, but a group that raises keeps all later groups of the batch from running. -/

namespace Memclaw.Audit

open Memclaw.Lib Memclaw.Lib.Sha256

variable {chars : CharData} {columns : Columns} {env : Env}

def Event.storable (columns : Columns) (ev : Event) : Bool :=
  ev.agentId.all columns.text && columns.text ev.action && columns.text ev.resourceType &&
    ev.clientEventId.all columns.text && (columns.storeResourceId ev.resourceId).isSome &&
    (columns.jsonb ev.detail).isSome

def SeqsFree (tenant : String) (log : List AuditLog) (seq : ℤ) (count : ℕ) : Prop :=
  ∀ s : ℤ, seq < s → s ≤ seq + count →
    bigintRange s = true ∧ ∀ row ∈ log, row.tenantId = tenant → row.seq ≠ some s

/-- Nothing makes the tenant's transaction raise: no refused value, no raw PII in an event
that is to be chained, and no number that the table already has. -/
structure GroupPasses (chars : CharData) (columns : Columns) (tenant : String)
    (events : List Event) (tables : Tables) : Prop where
  texts : columns.text tenant = true ∧ (eventIds events).all columns.text = true
  safe : ∀ ev ∈ freshOf tables tenant events, assertPiiSafe chars ev.detail = true
  storable : ∀ ev ∈ freshOf tables tenant events, ev.storable columns = true
  seqs : SeqsFree tenant (tables.rowsOf tenant) (tables.headOf tenant).lastSeq
    (freshOf tables tenant events).length

theorem store_toRow_isSome {ev : Event} {tenant : String} {seq : ℤ} {h : Bytes} :
    (∃ s, columns.store (ev.toRow chars env tenant seq h) = some s) ↔
      columns.text tenant = true ∧ ev.storable columns = true ∧ bigintRange seq = true := by
  unfold Columns.store Columns.storesTexts Event.storable Event.toRow
  simp only [Option.all_some, Bool.and_eq_true]
  cases columns.storeResourceId ev.resourceId with
  | none => simp
  | some r =>
    cases columns.jsonb ev.detail with
    | none => simp
    | some d =>
      simp only [Option.isSome_some, and_true]
      constructor
      · rintro ⟨s, hs⟩
        split_ifs at hs with htexts
        obtain ⟨⟨⟨⟨⟨h1, h2⟩, h3⟩, h4⟩, h5⟩, h6⟩ := htexts
        exact ⟨h1, ⟨⟨⟨h2, h3⟩, h4⟩, h5⟩, h6⟩
      · rintro ⟨h1, ⟨⟨⟨h2, h3⟩, h4⟩, h5⟩, h6⟩
        exact ⟨_, if_pos ⟨⟨⟨⟨⟨h1, h2⟩, h3⟩, h4⟩, h5⟩, h6⟩⟩

theorem any_collides_iff {log : List AuditLog} {ev : Event} {tenant : String} {seq : ℤ} {h : Bytes}
    {stored : AuditLog} (hstore : columns.store (ev.toRow chars env tenant seq h) = some stored)
    (hid : ∀ id ∈ ev.clientEventId, ∀ row ∈ log, row.tenantId = tenant →
      row.clientEventId ≠ some id) :
    log.any (collides stored) = false ↔
      ∀ row ∈ log, row.tenantId = tenant → row.seq ≠ some seq := by
  obtain ⟨htenant, hseq, -, -, hcid⟩ := Columns.store_fields hstore
  have htenant : stored.tenantId = tenant := htenant
  have hseq : stored.seq = some seq := hseq
  have hcid : stored.clientEventId = ev.clientEventId := hcid
  rw [List.any_eq_false]
  refine forall₂_congr fun row hrow => ?_
  unfold collides
  rw [htenant, hseq, hcid]
  by_cases ht : tenant = row.tenantId
  · have hnot : ¬ (ev.clientEventId.isSome = true ∧ ev.clientEventId = row.clientEventId) := by
      rintro ⟨hsome, heq⟩
      obtain ⟨id, hidSome⟩ := Option.isSome_iff_exists.mp hsome
      exact hid id hidSome row hrow ht.symm (heq.symm.trans hidSome)
    simp only [ht, Option.isSome_some, decide_true, Bool.true_and, Bool.or_eq_true,
      decide_eq_true_eq, Bool.and_eq_true, hnot, or_false, forall_const, ne_eq]
    exact not_congr eq_comm
  · have ht' : ¬ row.tenantId = tenant := fun h => ht h.symm
    simp [ht, ht']

theorem insertAll_cons_isSome {log rows : List AuditLog} {row : AuditLog} :
    (∃ log', insertAll columns log (row :: rows) = some log') ↔
      ∃ stored, columns.store row = some stored ∧ log.any (collides stored) = false ∧
        ∃ log', insertAll columns (log ++ [stored]) rows = some log' := by
  rw [insertAll]
  cases hstore : columns.store row with
  | none => simp
  | some stored =>
    constructor
    · rintro ⟨log', hlog⟩
      simp only at hlog
      split_ifs at hlog with hany
      exact ⟨stored, rfl, by rwa [Bool.not_eq_true] at hany, log', hlog⟩
    · rintro ⟨s, hs, hany, log', hlog⟩
      cases hs
      exact ⟨log', by simpa only [hany, Bool.false_eq_true, if_false] using hlog⟩

theorem seqsFree_succ {tenant : String} {log : List AuditLog} {seq : ℤ} {count : ℕ}
    {stored : AuditLog} (hseq : stored.seq = some (seq + 1)) :
    SeqsFree tenant log seq (count + 1) ↔
      bigintRange (seq + 1) = true ∧
        (∀ row ∈ log, row.tenantId = tenant → row.seq ≠ some (seq + 1)) ∧
        SeqsFree tenant (log ++ [stored]) (seq + 1) count := by
  constructor
  · intro hfree
    obtain ⟨hrange, hnext⟩ := hfree (seq + 1) (by omega) (by omega)
    refine ⟨hrange, hnext, fun s hlo hhi => ?_⟩
    obtain ⟨hrange', hlog⟩ := hfree s (by omega) (by omega)
    refine ⟨hrange', fun row hrow htenant => ?_⟩
    rcases List.mem_append.mp hrow with hrow | hrow
    · exact hlog row hrow htenant
    · rw [List.mem_singleton.mp hrow, hseq]
      intro heq
      have := Option.some.inj heq
      omega
  · rintro ⟨hrange, hnext, hfree⟩ s hlo hhi
    by_cases hs : s = seq + 1
    · exact hs ▸ ⟨hrange, hnext⟩
    · obtain ⟨hrange', hlog⟩ := hfree s (by omega) (by push_cast at hhi; omega)
      exact ⟨hrange', fun row hrow => hlog row (List.mem_append_left _ hrow)⟩

theorem insertAll_linkRows_isSome {tenant : String} (htext : columns.text tenant = true)
    {events : List Event} {log : List AuditLog} {seq : ℤ} {h : Bytes}
    (hnodup : (eventIds events).Nodup)
    (hids : ∀ id ∈ eventIds events, ∀ row ∈ log, row.tenantId = tenant →
      row.clientEventId ≠ some id) :
    (∃ log', insertAll columns log (linkRows chars env tenant events seq h) = some log') ↔
      (∀ ev ∈ events, ev.storable columns = true) ∧ SeqsFree tenant log seq events.length := by
  induction events generalizing log seq h with
  | nil =>
    refine ⟨fun _ => ⟨by simp, fun s hlo hhi => ?_⟩, fun _ => ⟨log, rfl⟩⟩
    simp only [List.length_nil, Nat.cast_zero] at hhi
    omega
  | cons ev events ih =>
    rw [eventIds_cons] at hnodup hids
    have hid : ∀ id ∈ ev.clientEventId, ∀ row ∈ log, row.tenantId = tenant →
        row.clientEventId ≠ some id := fun id hmem =>
      hids id (List.mem_append_left _ (Option.mem_toList.mpr hmem))
    -- the stored row's id differs from all later ones
    have hrest : ∀ stored, columns.store (ev.toRow chars env tenant (seq + 1) h) = some stored →
        ((∃ log', insertAll columns (log ++ [stored]) (linkRows chars env tenant events (seq + 1)
            (ev.hash chars env tenant (seq + 1) h)) = some log') ↔
          (∀ ev ∈ events, ev.storable columns = true) ∧
            SeqsFree tenant (log ++ [stored]) (seq + 1) events.length) := by
      intro stored hstore
      refine ih (List.nodup_append.mp hnodup).2.1 fun id hmem row hrow htenant => ?_
      rcases List.mem_append.mp hrow with hrow | hrow
      · exact hids id (List.mem_append_right _ hmem) row hrow htenant
      · rw [List.mem_singleton.mp hrow, (Columns.store_fields hstore).2.2.2.2]
        intro heq
        exact (List.nodup_append.mp hnodup).2.2 id (Option.mem_toList.mpr heq) id hmem rfl
    rw [linkRows, insertAll_cons_isSome, List.forall_mem_cons, List.length_cons]
    constructor
    · rintro ⟨stored, hstore, hany, hlater⟩
      obtain ⟨-, hstorable, hrange⟩ := store_toRow_isSome.mp ⟨stored, hstore⟩
      obtain ⟨hstorables, hfree⟩ := (hrest stored hstore).mp hlater
      exact ⟨⟨hstorable, hstorables⟩, (seqsFree_succ (Columns.store_fields hstore).2.1).mpr
        ⟨hrange, (any_collides_iff hstore hid).mp hany, hfree⟩⟩
    · rintro ⟨⟨hstorable, hstorables⟩, hfree⟩
      have hrange := (hfree (seq + 1) (by omega) (by push_cast; omega)).1
      obtain ⟨stored, hstore⟩ := store_toRow_isSome.mpr ⟨htext, hstorable, hrange⟩
      obtain ⟨-, hnext, hfree⟩ := (seqsFree_succ (Columns.store_fields hstore).2.1).mp hfree
      exact ⟨stored, hstore, (any_collides_iff hstore hid).mpr hnext,
        (hrest stored hstore).mpr ⟨hstorables, hfree⟩⟩

theorem mem_rowsOf {tables : Tables} {tenant : String} {row : AuditLog} :
    row ∈ tables.rowsOf tenant ↔ row ∈ tables.auditLog ∧ row.tenantId = tenant := by
  simp [Tables.rowsOf]

theorem seqsFree_rowsOf {tables : Tables} {tenant : String} {seq : ℤ} {count : ℕ} :
    SeqsFree tenant (tables.rowsOf tenant) seq count ↔
      SeqsFree tenant tables.auditLog seq count := by
  refine forall₃_congr fun s _ _ => and_congr_right fun _ => ⟨fun h row hrow ht => ?_, fun h row hrow => ?_⟩
  · exact h row (mem_rowsOf.mpr ⟨hrow, ht⟩) ht
  · exact h row (mem_rowsOf.mp hrow).1

theorem freshOf_ids_new {tables : Tables} {tenant : String} {events : List Event} :
    ∀ id ∈ eventIds (freshOf tables tenant events), ∀ row ∈ tables.auditLog,
      row.tenantId = tenant → row.clientEventId ≠ some id := by
  intro id hid row hrow htenant heq
  obtain ⟨ev, hev, hevid⟩ := List.mem_filterMap.mp hid
  have hbatch : id ∈ eventIds events :=
    List.mem_filterMap.mpr ⟨ev, fresh_subset _ events ev hev, hevid⟩
  have hold : id ∈ rowIds (tables.rowsOf tenant) :=
    List.mem_filterMap.mpr ⟨row, mem_rowsOf.mpr ⟨hrow, htenant⟩, heq⟩
  exact (fresh_ids _ events).2 id hid (mem_alreadyChained.mpr ⟨hold, hbatch⟩)

theorem auditChainOneTenant_isOk_iff {tenant : String} {events : List Event} {tables : Tables} :
    (∃ tables', auditChainOneTenant chars columns env tenant events tables = .ok tables') ↔
      GroupPasses chars columns tenant events tables := by
  have hnodup : (eventIds (freshOf tables tenant events)).Nodup := (fresh_ids _ events).1
  unfold auditChainOneTenant
  simp only [chainEvents_eq]
  constructor
  · rintro ⟨tables', hok⟩
    split_ifs at hok with htexts hsafe
    simp only at hok
    split at hok
    · cases hok
    · rename_i log hinsert
      simp only [Bool.not_eq_true', Bool.not_eq_false, Bool.and_eq_true] at htexts
      obtain ⟨hstorable, hfree⟩ :=
        (insertAll_linkRows_isSome htexts.1 hnodup freshOf_ids_new).mp ⟨log, hinsert⟩
      exact ⟨htexts, List.all_eq_true.mp hsafe, hstorable, seqsFree_rowsOf.mpr hfree⟩
  · intro hpass
    have htexts : (columns.text tenant &&
        (events.filterMap (·.clientEventId)).all columns.text) = true :=
      Bool.and_eq_true_iff.mpr hpass.texts
    have hsafe : (freshOf tables tenant events).all (assertPiiSafe chars ·.detail) = true :=
      List.all_eq_true.mpr hpass.safe
    have hinsert : ∃ log, insertAll columns tables.auditLog (linkRows chars env tenant
        (freshOf tables tenant events) (tables.headOf tenant).lastSeq
        (tables.headOf tenant).lastHash) = some log :=
      (insertAll_linkRows_isSome hpass.texts.1 hnodup freshOf_ids_new).mpr
        ⟨hpass.storable, seqsFree_rowsOf.mp hpass.seqs⟩
    obtain ⟨log, hinsert⟩ := hinsert
    unfold freshOf at hsafe hinsert
    simp only [htexts, hsafe, hinsert, Bool.not_true, Bool.false_eq_true, if_false, if_true]
    exact ⟨_, rfl⟩

theorem freshOf_congr {tables tables' : Tables} {tenant : String}
    (hrows : tables'.rowsOf tenant = tables.rowsOf tenant) (events : List Event) :
    freshOf tables' tenant events = freshOf tables tenant events := by
  rw [freshOf, freshOf, alreadyChained, alreadyChained, hrows]

theorem groupPasses_congr {tables tables' : Tables} {tenant : String} {events : List Event}
    (hrows : tables'.rowsOf tenant = tables.rowsOf tenant)
    (hhead : tables'.chainHead tenant = tables.chainHead tenant) :
    GroupPasses chars columns tenant events tables' ↔
      GroupPasses chars columns tenant events tables := by
  have hfresh := freshOf_congr hrows events
  have hheadOf : tables'.headOf tenant = tables.headOf tenant := by
    rw [Tables.headOf, Tables.headOf, hhead]
  constructor
  · rintro ⟨htexts, hsafe, hstorable, hseqs⟩
    rw [hfresh] at hsafe hstorable
    rw [hrows, hheadOf, hfresh] at hseqs
    exact ⟨htexts, hsafe, hstorable, hseqs⟩
  · rintro ⟨htexts, hsafe, hstorable, hseqs⟩
    rw [← hfresh] at hsafe hstorable
    rw [← hrows, ← hheadOf, ← hfresh] at hseqs
    exact ⟨htexts, hsafe, hstorable, hseqs⟩

theorem forall₂_store_eq {rows stored : List AuditLog}
    (h : List.Forall₂ (fun row s => columns.store row = some s) rows stored) :
    stored = rows.filterMap columns.store := by
  induction h with
  | nil => rfl
  | cons hrow _ ih => rw [List.filterMap_cons, hrow, ← ih]

def addedRows (chars : CharData) (columns : Columns) (env : Env) (tenant : String)
    (events : List Event) (tables : Tables) : List AuditLog :=
  (linkRows chars env tenant (freshOf tables tenant events) (tables.headOf tenant).lastSeq
    (tables.headOf tenant).lastHash).filterMap columns.store

theorem linkRows_length {tenant : String} {events : List Event} {seq : ℤ} {h : Bytes} :
    (linkRows chars env tenant events seq h).length = events.length := by
  induction events generalizing seq h with
  | nil => rfl
  | cons ev events ih => rw [linkRows, List.length_cons, ih, List.length_cons]

theorem auditChainOneTenant_rows {tenant : String} {events : List Event} {tables tables' : Tables}
    (h : auditChainOneTenant chars columns env tenant events tables = .ok tables') :
    tables'.rowsOf tenant =
        tables.rowsOf tenant ++ addedRows chars columns env tenant events tables ∧
      (addedRows chars columns env tenant events tables).length =
        (freshOf tables tenant events).length := by
  obtain ⟨stored, hstored, rfl⟩ := auditChainOneTenant_eq_ok h
  have hadded : stored = addedRows chars columns env tenant events tables :=
    forall₂_store_eq hstored
  have hrows := rowsOf_append tables (stored_fields hstored).1 tenant
  rw [if_pos rfl] at hrows
  rw [← hadded, rowsOf_setHead, hrows, ← hstored.length_eq, linkRows_length]
  exact ⟨rfl, rfl⟩

theorem addedRows_congr {tables tables' : Tables} {tenant : String} (events : List Event)
    (hrows : tables'.rowsOf tenant = tables.rowsOf tenant)
    (hhead : tables'.chainHead tenant = tables.chainHead tenant) :
    addedRows chars columns env tenant events tables' =
      addedRows chars columns env tenant events tables := by
  rw [addedRows, addedRows, freshOf_congr hrows, Tables.headOf, Tables.headOf, hhead]

open Classical in
theorem runGroups_head_rows {tenant : String} {events : List Event}
    {groups : List (String × List Event)} (tables : Tables)
    (hgroups : tenant ∉ groups.map Prod.fst) :
    (runGroups chars columns env ((tenant, events) :: groups) tables).1.rowsOf tenant =
      tables.rowsOf tenant ++ if GroupPasses chars columns tenant events tables then
        addedRows chars columns env tenant events tables else [] := by
  -- The rows of a tenant after its group comes up, with all groups before it passed.
  rw [runGroups]
  split
  · rename_i tables' hok
    rw [(runGroups_frame tables' hgroups).1, (auditChainOneTenant_rows hok).1,
      if_pos (auditChainOneTenant_isOk_iff.mp ⟨tables', hok⟩)]
  · rename_i e herror
    have hnot : ¬ GroupPasses chars columns tenant events tables := by
      intro hpass
      obtain ⟨tables', hok⟩ := auditChainOneTenant_isOk_iff.mpr hpass
      rw [herror] at hok
      cases hok
    rw [if_neg hnot, List.append_nil]

open Classical in
theorem runGroups_rows {tenant : String} {events : List Event}
    {before after : List (String × List Event)} (tables : Tables)
    (hnodup : ((before ++ (tenant, events) :: after).map Prod.fst).Nodup) :
    (runGroups chars columns env (before ++ (tenant, events) :: after) tables).1.rowsOf tenant =
      tables.rowsOf tenant ++
        if (∀ group ∈ before, GroupPasses chars columns group.1 group.2 tables) ∧
            GroupPasses chars columns tenant events tables then
          addedRows chars columns env tenant events tables
        else [] := by
  induction before generalizing tables with
  | nil =>
    rw [List.nil_append, List.map_cons, List.nodup_cons] at hnodup
    rw [List.nil_append, runGroups_head_rows tables hnodup.1]
    simp only [List.not_mem_nil, false_implies, implies_true, true_and]
  | cons group before ih =>
    obtain ⟨t, evs⟩ := group
    rw [List.cons_append, List.map_cons, List.nodup_cons] at hnodup
    obtain ⟨hfresh, hnodup⟩ := hnodup
    have hne : ∀ t', t' ∈ (before ++ (tenant, events) :: after).map Prod.fst → t' ≠ t :=
      fun t' ht' heq => hfresh (heq ▸ ht')
    have htenant : tenant ≠ t := hne tenant (by simp)
    rw [List.cons_append, runGroups]
    split
    · rename_i tables' hok
      have hframe := fun {t'} (ht' : t' ≠ t) => auditChainOneTenant_frame hok ht'
      obtain ⟨hrows, hhead⟩ := hframe htenant
      have hbefore : (∀ group ∈ (t, evs) :: before,
          GroupPasses chars columns group.1 group.2 tables) ↔
            ∀ group ∈ before, GroupPasses chars columns group.1 group.2 tables' := by
        rw [List.forall_mem_cons, and_iff_right (auditChainOneTenant_isOk_iff.mp ⟨tables', hok⟩)]
        refine forall₂_congr fun group hgroup => ?_
        have hgroup' := hframe (hne group.1 (by simpa using .inl ⟨group.2, hgroup⟩))
        exact (groupPasses_congr hgroup'.1 hgroup'.2).symm
      simp only [ih tables' hnodup, hbefore, groupPasses_congr hrows hhead,
        addedRows_congr events hrows hhead, hrows]
    · rename_i e herror
      rw [if_neg, List.append_nil]
      rintro ⟨hbefore, -⟩
      obtain ⟨tables', hok⟩ := auditChainOneTenant_isOk_iff.mpr (hbefore _ (List.mem_cons_self ..))
      rw [herror] at hok
      cases hok

def groupsBefore (tenant : String) (events : List Event) : List (String × List Event) :=
  (groupByTenant events).takeWhile (·.1 ≠ tenant)

theorem groupByTenant_split {tenant : String} {events : List Event}
    (hmem : ∃ ev ∈ events, ev.tenantId = tenant) :
    ∃ after, groupByTenant events =
      groupsBefore tenant events ++ (tenant, events.filter (·.tenantId = tenant)) :: after := by
  obtain ⟨hnodup, hkeys, hgroups⟩ := groupByTenant_spec events
  obtain ⟨group, hgroup, rfl⟩ := List.mem_map.mp ((hkeys tenant).mpr hmem)
  obtain ⟨before, after, hsplit⟩ := List.append_of_mem hgroup
  rw [hsplit, List.map_append, List.map_cons, List.nodup_append] at hnodup
  have hother : ∀ g ∈ before, g.1 ≠ group.1 := fun g hg =>
    hnodup.2.2 g.1 (List.mem_map_of_mem hg) group.1 (List.mem_cons_self ..)
  have hbefore : groupsBefore group.1 events = before := by
    rw [groupsBefore, hsplit, List.takeWhile_append_of_pos (by simpa using hother),
      List.takeWhile_cons_of_neg (by simp), List.append_nil]
  refine ⟨after, ?_⟩
  rw [hbefore, ← hgroups group hgroup, hsplit]

theorem groupByTenant_filter {tenant : String} {events : List Event}
    (hmem : ∃ ev ∈ events, ev.tenantId = tenant) :
    groupByTenant (events.filter (·.tenantId = tenant)) =
      [(tenant, events.filter (·.tenantId = tenant))] := by
  obtain ⟨hnodup, hkeys, hgroups⟩ := groupByTenant_spec (events.filter (·.tenantId = tenant))
  have hown : ∀ t ∈ (groupByTenant (events.filter (·.tenantId = tenant))).map Prod.fst,
      t = tenant := by
    intro t ht
    obtain ⟨e, he, rfl⟩ := (hkeys t).mp ht
    simpa using (List.mem_filter.mp he).2
  obtain ⟨ev, hev, hevt⟩ := hmem
  have hsome := (hkeys tenant).mpr ⟨ev, List.mem_filter.mpr ⟨hev, by simpa using hevt⟩, hevt⟩
  rcases hgroup : groupByTenant (events.filter (·.tenantId = tenant)) with _ | ⟨group, rest⟩
  · rw [hgroup] at hsome
    cases hsome
  · rw [hgroup] at hnodup hown hgroups
    have hfst : group.1 = tenant := hown _ (List.mem_cons_self ..)
    have hrest : rest = [] := by
      refine List.eq_nil_iff_forall_not_mem.mpr fun g hg => ?_
      have hg' := List.mem_map_of_mem (f := Prod.fst) hg
      refine (List.nodup_cons.mp hnodup).1 ?_
      rwa [hfst, ← hown g.1 (List.mem_cons_of_mem _ hg')]
    have hsnd := hgroups group (List.mem_cons_self ..)
    rw [hfst, List.filter_filter] at hsnd
    rw [hrest, ← hfst]
    simp only [Bool.and_self] at hsnd
    rw [hfst, ← hsnd, ← hfst]

/-- A tenant's rows after a mixed batch are those after a batch of its own events alone
exactly when no group before its own raises, or its own group adds nothing anyway. -/
theorem batch_isolates_tenant_iff {tenant : String} {events : List Event}
    {tables tables₀ : Tables} (hrows : tables₀.rowsOf tenant = tables.rowsOf tenant)
    (hhead : tables₀.chainHead tenant = tables.chainHead tenant) :
    (auditAddBatchChained chars columns env events tables).1.rowsOf tenant =
        (auditAddBatchChained chars columns env (events.filter (·.tenantId = tenant))
          tables₀).1.rowsOf tenant ↔
      (∀ group ∈ groupsBefore tenant events, GroupPasses chars columns group.1 group.2 tables) ∨
        ¬ GroupPasses chars columns tenant (events.filter (·.tenantId = tenant)) tables ∨
        freshOf tables tenant (events.filter (·.tenantId = tenant)) = [] := by
  classical
  by_cases hmem : ∃ ev ∈ events, ev.tenantId = tenant
  · obtain ⟨after, hsplit⟩ := groupByTenant_split hmem
    have hnodup := (groupByTenant_spec events).1
    rw [hsplit] at hnodup
    rw [auditAddBatchChained, auditAddBatchChained, groupByTenant_filter hmem, hsplit,
      runGroups_rows tables hnodup, runGroups_head_rows tables₀ (by simp), hrows,
      List.append_right_inj]
    simp only [groupPasses_congr hrows hhead, addedRows_congr _ hrows hhead]
    by_cases hpass : GroupPasses chars columns tenant (events.filter (·.tenantId = tenant)) tables
    · have hok : ∃ tables', auditChainOneTenant chars columns env tenant
          (events.filter (·.tenantId = tenant)) tables = .ok tables' :=
        auditChainOneTenant_isOk_iff.mpr hpass
      obtain ⟨tables', hok⟩ := hok
      have hlen := (auditChainOneTenant_rows hok).2
      by_cases hbefore : ∀ group ∈ groupsBefore tenant events,
          GroupPasses chars columns group.1 group.2 tables
      · rw [if_pos ⟨hbefore, hpass⟩, if_pos hpass]
        simp only [true_iff]
        exact .inl hbefore
      · rw [if_neg fun h => hbefore h.1, if_pos hpass, or_iff_right hbefore,
          or_iff_right fun h => h hpass, ← List.length_eq_zero_iff, ← hlen, eq_comm,
          List.length_eq_zero_iff]
    · rw [if_neg fun h => hpass h.2, if_neg hpass]
      simp only [true_iff]
      exact .inr (.inl hpass)
  · have hfilter : events.filter (·.tenantId = tenant) = [] := by
      refine List.filter_eq_nil_iff.mpr fun ev hev => ?_
      simpa using fun heq => hmem ⟨ev, hev, heq⟩
    have hkeys : tenant ∉ (groupByTenant events).map Prod.fst := fun h =>
      hmem (((groupByTenant_spec events).2.1 tenant).mp h)
    rw [hfilter, auditAddBatchChained, (runGroups_frame tables hkeys).1]
    refine iff_of_true hrows.symm (.inr (.inr rfl))

def rawEvent (tenant : String) : Event := plainEvent tenant (.obj [("note", .str "123-45-6789")])

/-- The raising group of `a` comes first, and the valid event of `b` is not chained. -/
theorem raising_tenant_stops_batch :
    (auditAddBatchChained .ascii postgresColumns fixedEnv
        [rawEvent "a", plainEvent "b" .null] .empty).1.rowsOf "b" ≠
      (auditAddBatchChained .ascii postgresColumns fixedEnv
        ([rawEvent "a", plainEvent "b" .null].filter (·.tenantId = "b")) .empty).1.rowsOf "b" := by
  intro heq
  exact absurd (congrArg List.length heq) (by decide)

theorem batch_isolates_first_tenant :
    (auditAddBatchChained .ascii postgresColumns fixedEnv
        [plainEvent "b" .null, rawEvent "a"] .empty).1.rowsOf "b" =
      (auditAddBatchChained .ascii postgresColumns fixedEnv
        ([plainEvent "b" .null, rawEvent "a"].filter (·.tenantId = "b")) .empty).1.rowsOf "b" := by
  have hbefore : groupsBefore "b" [plainEvent "b" .null, rawEvent "a"] = [] := rfl
  refine (batch_isolates_tenant_iff rfl rfl).mpr (.inl ?_)
  rw [hbefore]
  exact fun group hgroup => nomatch hgroup

end Memclaw.Audit

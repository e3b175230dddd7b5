import Memclaw.Governance.PatternDefs
import Memclaw.Lib.Interleave
import Memclaw.Write.Dedup

/-! The content gate over the write paths. Single and bulk writes scan what they are sent
before they hash and store it; a content update stores it as it is. -/

namespace Memclaw.Governance

open Memclaw.Lib Memclaw.Lib.Interleave Memclaw.Write

inductive Action
  | mask
  | drop
  | flag
deriving DecidableEq

structure GovPII where
  enabled : Bool
  action : Action
  enabledCategories : Option (List PIICategory)

/-- `GovernanceScanContent`, and the same gate in the loop of a bulk write. What a flag adds
is in the metadata. -/
def governanceScanContent (env : ScanEnv) (gov : GovPII) (content : String) : Write.Governance :=
  if !gov.enabled then .pass
  else
    let findings := scan env gov.enabledCategories content.toList
    if findings.isEmpty then .pass
    else match gov.action with
      | .drop => .drop
      | .mask => .mask (String.ofList (Governance.mask content.toList findings))
      | .flag => .pass

structure GateEnv where
  scanEnv : ScanEnv
  order : List Row → List Row
  order_perm : ∀ rows, (order rows).Perm rows

def GateEnv.writeEnv (env : GateEnv) (policies : String → GovPII) : WriteEnv where
  isSpace := env.scanEnv.chars.space
  govern tenantId content := governanceScanContent env.scanEnv (policies tenantId) content
  order := env.order
  order_perm := env.order_perm

def Passed (env : ScanEnv) (gov : GovPII) (sent stored : String) : Prop :=
  match gov.action with
  | .drop => scan env gov.enabledCategories stored.toList = []
  | .mask => stored.toList = Governance.mask sent.toList (scan env gov.enabledCategories sent.toList)
  | .flag => True

theorem passed_of_kept {env : GateEnv} {policies : String → GovPII} {tenantId sent stored : String}
    (henabled : (policies tenantId).enabled = true)
    (hkept : screen (env.writeEnv policies) tenantId sent = .kept stored) :
    Passed env.scanEnv (policies tenantId) sent stored := by
  set gov := policies tenantId with hgov
  set findings := scan env.scanEnv gov.enabledCategories sent.toList with hfindings
  have hgovern : (env.writeEnv policies).govern tenantId sent =
      governanceScanContent env.scanEnv gov sent := rfl
  rw [screen] at hkept
  split_ifs at hkept
  rw [hgovern, governanceScanContent, henabled, ← hfindings] at hkept
  simp only [Bool.not_true, Bool.false_eq_true, if_false] at hkept
  by_cases hempty : findings.isEmpty
  · -- A clean content is kept as it is, by every action.
    have hnone : findings = [] := List.isEmpty_iff.mp hempty
    rw [if_pos hempty] at hkept
    cases hkept
    rw [Passed]
    split
    · exact hfindings.symm.trans hnone
    · rw [← hfindings, hnone]
      rfl
    · trivial
  · rw [if_neg hempty] at hkept
    rw [Passed]
    cases haction : gov.action with
    | drop => simp [haction] at hkept
    | mask =>
      simp only [haction, Screened.kept.injEq] at hkept
      rw [← hkept, String.toList_ofList, hfindings]
    | flag => trivial

structure Event where
  policies : String → GovPII
  request : Request

/-- The table, and for each row the content that its caller sent. A fact that a model cut
out of a content has no caller. -/
structure Ledger where
  table : Table
  sent : ℕ → Option String

def Ledger.empty : Ledger := ⟨Table.empty, fun _ => none⟩

def itemSent (req : BulkRequest) (bulkAttemptId : String) (r : Row) : Option String :=
  (req.items.zipIdx.find? fun item =>
    r.clientRequestId = some (itemRequestId bulkAttemptId item.2)).map (·.1)

def sentFor (t : Table) (r : Row) : Request → Option String
  | .create req => if r.id = t.nextId then some req.content else none
  | .bulk req bulkAttemptId => some ((itemSent req bulkAttemptId r).getD "")
  | .fanOut _ _ _ _ => none
  | .update _ _ content _ => some content
  | .delete _ => none

def Unwritten (t : Table) (r : Row) : Prop :=
  ∃ m ∈ t.rows, m.id = r.id ∧ m.tenantId = r.tenantId ∧ m.content = r.content

instance (t : Table) (r : Row) : Decidable (Unwritten t r) :=
  inferInstanceAs (Decidable (∃ m ∈ t.rows, _ ∧ _ ∧ _))

def Ledger.step (env : GateEnv) (l : Ledger) (e : Event) : Ledger :=
  let served := e.request.serve (env.writeEnv e.policies) l.table
  { table := served
    sent := fun id => (served.rows.find? (·.id = id)).bind fun r =>
      if Unwritten l.table r then l.sent id else sentFor l.table r e.request }

def GateHolds (env : ScanEnv) (gov : GovPII) (tenantId : String) (l : Ledger) : Prop :=
  ∀ r ∈ l.table.rows, r.tenantId = tenantId → ∀ sent, l.sent r.id = some sent →
    Passed env gov sent r.content

def Stores (t : Table) (id : ℕ) (tenantId content : String) (nearDuplicate : Bool) : Prop :=
  ∃ mem ∈ t.live, mem.id = id ∧ mem.tenantId = tenantId ∧ mem.content ≠ content ∧
    t.findDuplicateHash tenantId (contentHash tenantId mem.fleetId content) none (some id) none =
      .none ∧ nearDuplicate = false

instance (t : Table) (id : ℕ) (tenantId content : String) (nearDuplicate : Bool) :
    Decidable (Stores t id tenantId content nearDuplicate) :=
  inferInstanceAs (Decidable (∃ mem ∈ t.live, _ ∧ _ ∧ _ ∧ _ ∧ _))

/-- The request is no update of the tenant that stores a content which the gate would have
refused or changed. -/
def Gated (env : ScanEnv) (gov : GovPII) (tenantId : String) (t : Table) : Request → Prop
  | .update id tenant content nearDuplicate =>
    tenant = tenantId → Stores t id tenant content nearDuplicate → Passed env gov content content
  | _ => True

section Rows

variable {env : WriteEnv} {t : Table} {r : Row}

theorem mem_insert {t' : Table} {n : NewRow} (h : t.insert n = some t') (hr : r ∈ t'.rows) :
    r ∈ t.rows ∨ r = ⟨n, t.nextId, false⟩ := by
  rw [(Table.insert_eq_some h).2.1] at hr
  simpa using hr

theorem mem_memoryAddAll {items : List NewRow} {added : Table × List StorageResult}
    (h : t.memoryAddAll items = some added) (hr : r ∈ added.1.rows) :
    r ∈ t.rows ∨ r.toNewRow ∈ items ∧ ∀ m ∈ t.rows, m.id ≠ r.id := by
  have htable : added.1 = (t.insertAll items).1 := by
    unfold Table.memoryAddAll at h
    split at h
    · rw [← Option.some.inj h]
      rfl
    · split_ifs at h
      rw [← Option.some.inj h]
  obtain ⟨rows, hrows⟩ := exists_inserted t items
  rw [htable, hrows.rows] at hr
  rcases List.mem_append.mp hr with hold | hnew
  · exact Or.inl hold
  · refine Or.inr ⟨hrows.sublist.subset (List.mem_map_of_mem hnew), ?_⟩
    have hnodup := (t.insertAll items).1.nodup
    rw [hrows.rows, List.map_append, List.nodup_append] at hnodup
    exact fun m hm => hnodup.2.2 _ (List.mem_map_of_mem hm) _ (List.mem_map_of_mem hnew)

theorem mem_persist {mode : WriteMode} {req : WriteRequest} {content : String}
    (hr : r ∈ (persist mode t req content).1.rows) :
    r ∈ t.rows ∨ r = ⟨req.row content, t.nextId, false⟩ := by
  rw [persist] at hr
  split at hr
  · exact Or.inl hr
  · exact Or.inl hr
  · split_ifs at hr
    · exact Or.inl hr
    · rw [Table.memoryAdd] at hr
      split at hr
      · rename_i hinsert
        exact mem_insert hinsert hr
      · exact Or.inl hr

theorem mem_handleAutoChunk {req : WriteRequest} {content : String}
    (hr : r ∈ (handleAutoChunk t req content).1.rows) :
    r ∈ t.rows ∨ r = ⟨req.row content, t.nextId, false⟩ ∨ r.id ≠ t.nextId := by
  rw [handleAutoChunk] at hr
  split_ifs at hr
  · split at hr
    · exact Or.inl hr
    · rename_i t' hinsert
      split at hr
      · exact (mem_insert hinsert hr).imp_right Or.inl
      · rename_i added hadd
        rcases mem_memoryAddAll hadd hr with hold | ⟨_, hnew⟩
        · exact (mem_insert hinsert hold).imp_right Or.inl
        · right
          right
          have hparent := hnew ⟨req.row content, t.nextId, false⟩ (by
            rw [(Table.insert_eq_some hinsert).2.1]
            simp)
          exact hparent.symm
  · exact (mem_persist hr).imp_right Or.inl

theorem createMemory_row {req : WriteRequest} (hr : r ∈ (createMemory env t req).1.rows) :
    r ∈ t.rows ∨ (r.id = t.nextId → r.tenantId = req.tenantId ∧
      screen env req.tenantId req.content = .kept r.content) := by
  rw [createMemory] at hr
  split at hr
  · exact Or.inl hr
  · exact Or.inl hr
  · rename_i content hscreen
    have hrow : r ∈ t.rows ∨ r = ⟨req.row content, t.nextId, false⟩ ∨ r.id ≠ t.nextId := by
      split_ifs at hr
      · exact mem_handleAutoChunk hr
      · exact Or.inl hr
      · exact (mem_persist hr).imp_right Or.inl
    rcases hrow with hold | rfl | hother
    · exact Or.inl hold
    · exact Or.inr fun _ => ⟨rfl, hscreen⟩
    · exact Or.inr fun h => absurd h hother

theorem bulk_row {req : BulkRequest} {bulkAttemptId : String}
    (hr : r ∈ ((Request.bulk req bulkAttemptId).serve env t).rows) :
    r ∈ t.rows ∨ ∃ i sent, req.items[i]? = some sent ∧ r.tenantId = req.tenantId ∧
      screen env req.tenantId sent = .kept r.content ∧
      r.clientRequestId = some (itemRequestId bulkAttemptId i) := by
  rw [Request.serve, createMemoriesBulk, bulkCommit_eq] at hr
  obtain ⟨added, hadded⟩ :=
    exists_inserted t (pendingRows env req bulkAttemptId (bulkLookup env t req))
  simp only [Option.map_some, Option.getD_some, hadded.rows] at hr
  rcases List.mem_append.mp hr with hold | hnew
  · exact Or.inl hold
  · have hpending := hadded.sublist.subset (List.mem_map_of_mem hnew)
    obtain ⟨i, content, hitem, hrow, _⟩ := mem_pendingRows hpending
    rw [List.getElem?_map] at hitem
    obtain ⟨sent, hsent, hscreen⟩ := Option.map_eq_some_iff.mp hitem
    have hcontent : r.content = content := congrArg NewRow.content hrow
    refine Or.inr ⟨i, sent, hsent, congrArg NewRow.tenantId hrow, ?_, congrArg _ hrow⟩
    rw [hcontent]
    exact hscreen

theorem updateMemory_table (id : ℕ) (tenantId content : String) (nearDuplicate : Bool) :
    ((updateMemory t id tenantId content nearDuplicate).1 = t ∧
        ¬ Stores t id tenantId content nearDuplicate) ∨
      (Stores t id tenantId content nearDuplicate ∧ ∃ hash,
        (updateMemory t id tenantId content nearDuplicate).1 =
          t.setContent id tenantId content hash) := by
  -- Two live rows with the id would be one, so the branch taken decides.
  have hsame : ∀ mem ∈ t.live, mem.id = id → ∀ m ∈ t.live, m.id = id → m = mem :=
    fun mem hmem hid m hm hmid => Table.eq_of_id_eq hm hmem (hmid.trans hid.symm)
  rw [updateMemory]
  split
  · rename_i hfind
    left
    refine ⟨rfl, ?_⟩
    rintro ⟨mem, hmem, hid, htenant, _⟩
    have hmiss := List.find?_eq_none.mp hfind mem hmem
    simp [hid, htenant] at hmiss
  · rename_i mem hfind
    have hmem := List.mem_of_find?_eq_some hfind
    obtain ⟨hid, htenant⟩ : mem.id = id ∧ mem.tenantId = tenantId := by
      simpa using List.find?_some hfind
    by_cases hcontent : content = mem.content
    · rw [if_pos hcontent]
      left
      refine ⟨rfl, ?_⟩
      rintro ⟨m, hm, hmid, _, hdiff, _⟩
      rw [hsame mem hmem hid m hm hmid] at hdiff
      exact hdiff hcontent.symm
    · rw [if_neg hcontent]
      simp only []
      split
      · rename_i hlookup
        left
        refine ⟨rfl, ?_⟩
        rintro ⟨m, hm, hmid, _, _, hnone, _⟩
        rw [hsame mem hmem hid m hm hmid, hlookup] at hnone
        cases hnone
      · rename_i found hlookup
        left
        refine ⟨rfl, ?_⟩
        rintro ⟨m, hm, hmid, _, _, hnone, _⟩
        rw [hsame mem hmem hid m hm hmid, hlookup] at hnone
        cases hnone
      · rename_i hlookup
        by_cases hnear : nearDuplicate = true
        · rw [if_pos hnear]
          left
          refine ⟨rfl, ?_⟩
          rintro ⟨_, _, _, _, _, _, hfar⟩
          rw [hnear] at hfar
          cases hfar
        · rw [if_neg hnear]
          right
          exact ⟨⟨mem, hmem, hid, htenant, fun h => hcontent h.symm, hlookup, by simpa using hnear⟩,
            _, rfl⟩

theorem itemSent_eq {req : BulkRequest} {bulkAttemptId sent : String} {i : ℕ}
    (hitem : req.items[i]? = some sent)
    (hr : r.clientRequestId = some (itemRequestId bulkAttemptId i)) :
    itemSent req bulkAttemptId r = some sent := by
  have hmem : (sent, i) ∈ req.items.zipIdx := List.mk_mem_zipIdx_iff_getElem?.mpr hitem
  have hsome : (req.items.zipIdx.find? fun item =>
      r.clientRequestId = some (itemRequestId bulkAttemptId item.2)).isSome :=
    List.find?_isSome.mpr ⟨(sent, i), hmem, decide_eq_true hr⟩
  obtain ⟨found, hfound⟩ := Option.isSome_iff_exists.mp hsome
  have hrequest : r.clientRequestId = some (itemRequestId bulkAttemptId found.2) := by
    simpa using List.find?_some hfound
  have hindex : found.2 = i := by
    rw [hr] at hrequest
    exact (itemRequestId_injective (Option.some.inj hrequest)).2.symm
  have hget := List.mk_mem_zipIdx_iff_getElem?.mp (List.mem_of_find?_eq_some hfound)
  rw [hindex, hitem] at hget
  rw [itemSent, hfound, Option.map_some, Option.some.inj hget]

theorem find?_row (hr : r ∈ t.rows) : t.rows.find? (·.id = r.id) = some r := by
  have hsome : (t.rows.find? (·.id = r.id)).isSome := List.find?_isSome.mpr ⟨r, hr, by simp⟩
  obtain ⟨m, hm⟩ := Option.isSome_iff_exists.mp hsome
  have hid : m.id = r.id := by simpa using List.find?_some hm
  rw [hm, List.inj_on_of_nodup_map t.nodup (List.mem_of_find?_eq_some hm) hr hid]

theorem step_sent {genv : GateEnv} {l : Ledger} {e : Event}
    (hr : r ∈ (l.step genv e).table.rows) :
    (l.step genv e).sent r.id =
      if Unwritten l.table r then l.sent r.id else sentFor l.table r e.request := by
  have hfind := find?_row hr
  simp only [Ledger.step] at hfind ⊢
  rw [hfind, Option.bind_some]

end Rows

section Runs

variable {env : GateEnv} {gov : GovPII} {tenantId : String} {l : Ledger} {e : Event}

theorem passed_of_written (hgov : e.policies tenantId = gov) (henabled : gov.enabled = true)
    (hgated : Gated env.scanEnv gov tenantId l.table e.request) {r : Row}
    (hr : r ∈ (l.step env e).table.rows) (htenant : r.tenantId = tenantId)
    (hnew : ¬ Unwritten l.table r) {sent : String}
    (hsent : sentFor l.table r e.request = some sent) : Passed env.scanEnv gov sent r.content := by
  -- A row that a request wrote for a caller passed the gate, or an update stored it.
  have hfresh : r ∉ l.table.rows := fun hold => hnew ⟨r, hold, rfl, rfl, rfl⟩
  have hkept : ∀ c, screen (env.writeEnv e.policies) tenantId c = .kept r.content →
      Passed env.scanEnv gov c r.content := by
    intro c hscreen
    subst hgov
    exact passed_of_kept henabled hscreen
  obtain ⟨policies, request⟩ := e
  cases request with
  | create req =>
    simp only [sentFor] at hsent
    split_ifs at hsent with hid
    cases hsent
    rcases createMemory_row hr with hold | hrow
    · exact absurd hold hfresh
    · obtain ⟨hreq, hscreen⟩ := hrow hid
      rw [← hreq, htenant] at hscreen
      exact hkept _ hscreen
  | bulk req bulkAttemptId =>
    rcases bulk_row hr with hold | ⟨i, c, hitem, hreq, hscreen, hrequest⟩
    · exact absurd hold hfresh
    · simp only [sentFor, itemSent_eq hitem hrequest, Option.getD_some, Option.some.injEq] at hsent
      rw [← hreq, htenant, hsent] at hscreen
      exact hkept _ hscreen
  | fanOut _ _ _ _ => cases hsent
  | update id tenant content nearDuplicate =>
    simp only [sentFor, Option.some.injEq] at hsent
    subst hsent
    have hrows : r ∈ (updateMemory l.table id tenant content nearDuplicate).1.rows := hr
    rcases updateMemory_table (t := l.table) id tenant content nearDuplicate with
      ⟨hsame, _⟩ | ⟨hstores, hash, htable⟩
    · rw [hsame] at hrows
      exact absurd hrows hfresh
    · rw [htable] at hrows
      obtain ⟨m, hm, rfl⟩ := List.mem_map.mp hrows
      unfold Row.setContent at hfresh htenant ⊢
      split_ifs at hfresh htenant ⊢ with hchange
      · exact hgated (hchange.2.1.symm.trans htenant) hstores
      · exact absurd hm hfresh
  | delete id => cases hsent

theorem exists_updated (env : GateEnv) {policies : String → GovPII} {id : ℕ} {tenant content : String}
    {nearDuplicate : Bool} (hstores : Stores l.table id tenant content nearDuplicate) :
    ∃ r ∈ (l.step env ⟨policies, .update id tenant content nearDuplicate⟩).table.rows,
      r.tenantId = tenant ∧ r.content = content ∧
        (l.step env ⟨policies, .update id tenant content nearDuplicate⟩).sent r.id =
          some content := by
  obtain ⟨hash, htable⟩ : ∃ hash, (updateMemory l.table id tenant content nearDuplicate).1 =
      l.table.setContent id tenant content hash := by
    rcases updateMemory_table (t := l.table) id tenant content nearDuplicate with h | h
    · exact absurd hstores h.2
    · exact h.2
  obtain ⟨mem, hmem, hid, htenant, hdiff, _⟩ := hstores
  obtain ⟨hrow, hlive⟩ := Table.mem_live.mp hmem
  have hset : mem.setContent id tenant content hash =
      { mem with content := content, contentHash := hash } :=
    if_pos ⟨hid, htenant, hlive⟩
  have hr : mem.setContent id tenant content hash ∈
      (l.step env ⟨policies, .update id tenant content nearDuplicate⟩).table.rows := by
    show _ ∈ (updateMemory l.table id tenant content nearDuplicate).1.rows
    rw [htable]
    exact List.mem_map_of_mem hrow
  have hwritten : ¬ Unwritten l.table (mem.setContent id tenant content hash) := by
    rw [hset]
    rintro ⟨m, hm, hmid, _, hcontent⟩
    rw [List.inj_on_of_nodup_map l.table.nodup hm hrow hmid] at hcontent
    exact hdiff hcontent
  refine ⟨_, hr, ?_, ?_, ?_⟩
  · rw [hset]
    exact htenant
  · rw [hset]
  · rw [step_sent hr, if_neg hwritten]
    rfl

/-- A request keeps the gate's promise exactly when it is gated. -/
theorem gateHolds_step_iff (hgov : e.policies tenantId = gov) (henabled : gov.enabled = true)
    (hl : GateHolds env.scanEnv gov tenantId l) :
    GateHolds env.scanEnv gov tenantId (l.step env e) ↔
      Gated env.scanEnv gov tenantId l.table e.request := by
  constructor
  · intro hafter
    obtain ⟨policies, request⟩ := e
    cases request with
    | update id tenant content nearDuplicate =>
      rintro rfl hstores
      obtain ⟨r, hr, htenant, hcontent, hsent⟩ := exists_updated env hstores
      have hpassed := hafter r hr htenant content hsent
      rwa [hcontent] at hpassed
    | create req => trivial
    | bulk req bulkAttemptId => trivial
    | fanOut _ _ _ _ => trivial
    | delete id => trivial
  · intro hgated r hr htenant sent hsent
    rw [step_sent hr] at hsent
    split_ifs at hsent with hold
    · obtain ⟨m, hm, hid, hmtenant, hcontent⟩ := hold
      rw [← hcontent]
      exact hl m hm (hmtenant.trans htenant) sent (hid ▸ hsent)
    · exact passed_of_written hgov henabled hgated hr htenant hold hsent

theorem gateHolds_empty : GateHolds env.scanEnv gov tenantId Ledger.empty :=
  fun _ hr => absurd hr List.not_mem_nil

end Runs

structure Governed (gov : GovPII) (tenantId : String) (events : List Event) : Prop where
  enabled : gov.enabled = true
  action : gov.action = .mask ∨ gov.action = .drop
  policies : ∀ e ∈ events, e.policies tenantId = gov

/-- In every state of a run under a policy that masks or drops, what callers sent for the
tenant's memories passed the gate, exactly when no content update stored what the gate would
have refused or changed. -/
theorem gateHolds_along_iff (env : GateEnv) (gov : GovPII) (tenantId : String)
    (events : List Event) (hgov : Governed gov tenantId events) :
    Along (Ledger.step env) (fun l e => GateHolds env.scanEnv gov tenantId (l.step env e))
        Ledger.empty events ↔
      Along (Ledger.step env) (fun l e => Gated env.scanEnv gov tenantId l.table e.request)
        Ledger.empty events := by
  apply Along.iff_kept
  · intro l e he hl
    exact gateHolds_step_iff (hgov.policies e he) hgov.enabled hl
  · exact gateHolds_empty

def gateEnv : GateEnv := ⟨asciiEnv, fun rows => rows, fun _ => .rfl⟩

def dropAll : GovPII := ⟨true, .drop, none⟩

def maskAll : GovPII := ⟨true, .mask, none⟩

def underPolicy (gov : GovPII) (requests : List Request) : List Event :=
  requests.map fun request => ⟨fun _ => gov, request⟩

def numberByUpdate : List Request :=
  [.create (fleetWrite "the build is green"), .update 0 "t" "call (212) 555-1234 now" false]

/-- The update is stored, although the policy drops such contents and a create of it would
be refused. -/
theorem update_stores_number :
    Governed dropAll "t" (underPolicy dropAll numberByUpdate) ∧
      ((run (Ledger.step gateEnv) Ledger.empty (underPolicy dropAll numberByUpdate)).table.rows.map
        fun r => r.content) = ["call (212) 555-1234 now"] ∧
      ¬ Along (Ledger.step gateEnv) (fun l e => GateHolds asciiEnv dropAll "t" (l.step gateEnv e))
        Ledger.empty (underPolicy dropAll numberByUpdate) := by
  -- Two evaluations of moderate size: the table after the run with the update on the way, the scan.
  obtain ⟨hstores, hleft⟩ :
      Stores (Ledger.empty.step gateEnv
          ⟨fun _ => dropAll, .create (fleetWrite "the build is green")⟩).table
          0 "t" "call (212) 555-1234 now" false ∧
        ((run (Ledger.step gateEnv) Ledger.empty (underPolicy dropAll numberByUpdate)).table.rows.map
          fun r => r.content) = ["call (212) 555-1234 now"] := by
    decide +kernel
  have hfound : scan asciiEnv none "call (212) 555-1234 now".toList ≠ [] := by
    decide +kernel
  refine ⟨⟨rfl, Or.inr rfl, by simp [underPolicy, numberByUpdate]⟩, hleft, ?_⟩
  rintro ⟨hfirst, hsecond, _⟩
  have hgated : Gated gateEnv.scanEnv dropAll "t"
      (Ledger.empty.step gateEnv
        ⟨fun _ => dropAll, .create (fleetWrite "the build is green")⟩).table
      (.update 0 "t" "call (212) 555-1234 now" false) :=
    (gateHolds_step_iff rfl rfl hfirst).mp hsecond
  exact hfound (hgated rfl hstores)

/-- A create with a number in it, masked, and an update to a clean content. -/
theorem gateHolds_of_clean_update :
    Along (Ledger.step gateEnv) (fun l e => GateHolds asciiEnv maskAll "t" (l.step gateEnv e))
      Ledger.empty (underPolicy maskAll [.create (fleetWrite "call (212) 555-1234 now"),
        .update 0 "t" "the build is green" false]) := by
  refine (gateHolds_along_iff gateEnv maskAll "t" _
    ⟨rfl, Or.inl rfl, by simp [underPolicy]⟩).mpr ⟨trivial, ?_, trivial⟩
  intro _ _
  have hkept : "the build is green".toList = Governance.mask "the build is green".toList
      (scan asciiEnv none "the build is green".toList) := by
    decide +kernel
  exact hkept

end Memclaw.Governance

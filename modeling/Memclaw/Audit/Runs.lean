import Memclaw.Audit.Batch

/-! The audit chain of one tenant along whole runs: any sequence of batches, and
any interleaving of batches with purges of tenants. -/

namespace Memclaw.Audit

open Memclaw.Lib Memclaw.Lib.Sha256
open Memclaw.Lib.HashChain (walk)

variable {chars : CharData} {columns : Columns}

/-- Rows numbered from 1 without a gap, the head at the last of them, every accepted
client event id chained once, and a valid report of the verifier. -/
structure ChainIntact (chars : CharData) (tables : Tables) (accepted : List (String × String))
    (tenant : String) : Prop where
  seqs : (tables.rowsOf tenant).map (·.seq) =
    (List.range (tables.rowsOf tenant).length).map fun i => some ((i + 1 : ℕ) : ℤ)
  head : (tables.rowsOf tenant = [] ∧ tables.headOf tenant = .genesis) ∨
    ∃ last hash, (tables.rowsOf tenant).getLast? = some last ∧ last.eventHash = some hash ∧
      tables.chainHead tenant = some ⟨(tables.rowsOf tenant).length, hash⟩
  once : ∀ id, (tenant, id) ∈ accepted →
    (tables.rowsOf tenant).countP (·.clientEventId = some id) = 1
  verifies : ∀ limit, (tables.rowsOf tenant).length < limit →
    (verifyAuditChainRows chars tenant (tables.rowsOf tenant) (tables.chainHead tenant)
      limit).isValid = true

theorem walk_seqs {rows : List AuditLog} {n m : ℕ} {h k : Bytes}
    (hw : walk (rowCheck chars) n h rows = some (m, k)) :
    rows.map (·.seq) = (List.range rows.length).map fun i => some ((n + i + 1 : ℕ) : ℤ) := by
  induction rows generalizing n h with
  | nil => rfl
  | cons row rows ih =>
    obtain ⟨k', hcheck, hrest⟩ := HashChain.walk_cons_eq_some hw
    rw [List.map_cons, List.length_cons, List.range_succ_eq_map, List.map_cons, List.map_map,
      ih hrest, (rowCheck_eq_some_iff.mp hcheck).1]
    congr 1
    refine List.map_congr_left fun i _ => ?_
    simp only [Function.comp_apply]
    congr 2
    omega

theorem countP_clientEventId (rows : List AuditLog) (id : String) :
    rows.countP (·.clientEventId = some id) = (rowIds rows).count id := by
  induction rows with
  | nil => rfl
  | cons row rows ih =>
    rw [List.countP_cons, ih]
    cases hid : row.clientEventId with
    | none => simp [rowIds, hid]
    | some i =>
      have hcons : rowIds (row :: rows) = i :: rowIds rows := by simp [rowIds, hid]
      rw [hcons, List.count_cons]
      simp

theorem ChainInvariant.intact {tables : Tables} {accepted : List (String × String)}
    {tenant : String} (hinv : ChainInvariant chars tables tenant)
    (haccepted : ∀ id, (tenant, id) ∈ accepted → id ∈ rowIds (tables.rowsOf tenant)) :
    ChainIntact chars tables accepted tenant := by
  obtain ⟨⟨k, hwalk, hhead⟩, hnodup⟩ := hinv
  refine ⟨?_, ?_, fun id hid => ?_, fun limit hlimit => ?_⟩
  · simpa only [zero_add] using walk_seqs hwalk
  · rcases HashChain.walk_last hwalk with ⟨hnil, -, rfl⟩ | ⟨last, h', hlast, hcheck⟩
    · refine .inl ⟨hnil, ?_⟩
      rw [hhead, hnil]
      rfl
    · obtain ⟨-, -, hhash, -⟩ := rowCheck_eq_some_iff.mp hcheck
      refine .inr ⟨last, k, hlast, hhash, ?_⟩
      have hpos : 0 < (tables.rowsOf tenant).length := by
        apply List.length_pos_of_ne_nil
        rintro hnil
        rw [hnil] at hlast
        cases hlast
      -- a head with a positive number cannot be the default one
      cases hrow : tables.chainHead tenant with
      | none =>
        rw [Tables.headOf, hrow] at hhead
        have hzero := congrArg AuditChainHead.lastSeq hhead
        simp only [Option.getD_none, AuditChainHead.genesis] at hzero
        omega
      | some head =>
        rw [Tables.headOf, hrow, Option.getD_some] at hhead
        rw [hhead]
  · rw [countP_clientEventId]
    exact List.count_eq_one_of_mem hnodup (haccepted id hid)
  · exact (isValid_iff_walk hlimit).mpr ⟨k, hwalk, hhead⟩

structure Call where
  env : Env
  events : List Event

def runCall (chars : CharData) (columns : Columns) (state : Tables × List (String × String))
    (call : Call) : Tables × List (String × String) :=
  ((auditAddBatchChained chars columns call.env call.events state.1).1,
    state.2 ++ acceptedIds chars columns call.env (groupByTenant call.events) state.1)

def runCalls (chars : CharData) (columns : Columns) (calls : List Call) :
    Tables × List (String × String) :=
  calls.foldl (runCall chars columns) (.empty, [])

theorem chainInvariant_empty (chars : CharData) (tenant : String) :
    ChainInvariant chars .empty tenant :=
  ⟨⟨genesisPrevHash, rfl, rfl⟩, List.nodup_nil⟩

theorem auditAddBatchChained_chain (hdoc : columns.Documented chars) (env : Env) {tenant : String}
    {events : List Event} {tables : Tables}
    (hexact : ∀ ev ∈ events, ev.tenantId = tenant → JsonbExact ev.detail)
    (hinv : ChainInvariant chars tables tenant) :
    ChainInvariant chars (auditAddBatchChained chars columns env events tables).1 tenant ∧
      ∀ id, id ∈ rowIds (tables.rowsOf tenant) ∨
          (tenant, id) ∈ acceptedIds chars columns env (groupByTenant events) tables →
        id ∈ rowIds ((auditAddBatchChained chars columns env events tables).1.rowsOf tenant) := by
  apply runGroups_chain hdoc _ hinv
  rintro group hgroup rfl ev hev
  rw [(groupByTenant_spec events).2.2 group hgroup, List.mem_filter] at hev
  exact hexact ev hev.1 (by simpa using hev.2)

theorem runCalls_invariant (hdoc : columns.Documented chars) {tenant : String} {calls : List Call}
    (hexact : ∀ call ∈ calls, ∀ ev ∈ call.events, ev.tenantId = tenant → JsonbExact ev.detail) :
    ChainInvariant chars (runCalls chars columns calls).1 tenant ∧
      ∀ id, (tenant, id) ∈ (runCalls chars columns calls).2 →
        id ∈ rowIds ((runCalls chars columns calls).1.rowsOf tenant) := by
  induction calls using List.reverseRecOn with
  | nil => exact ⟨chainInvariant_empty chars tenant, fun id hid => nomatch hid⟩
  | append_singleton calls call ih =>
    obtain ⟨hinv, hids⟩ := ih fun c hc => hexact c (by simp [hc])
    obtain ⟨hinv', hids'⟩ := auditAddBatchChained_chain hdoc call.env
      (hexact call (by simp)) hinv
    simp only [runCalls, List.foldl_append, List.foldl_cons, List.foldl_nil] at hinv' hids' ⊢
    refine ⟨hinv', fun id hid => hids' id ?_⟩
    rcases List.mem_append.mp hid with hold | hnew
    · exact .inl (hids id hold)
    · exact .inr hnew

/-- After any sequence of batches whose floats are printed exactly, every tenant's chain
is intact; and whichever group of the next batch raises leaves its tenant's rows and head
as they are. -/
theorem runCalls_chain_intact (hdoc : columns.Documented chars) {tenant : String}
    {calls : List Call}
    (hexact : ∀ call ∈ calls, ∀ ev ∈ call.events, ev.tenantId = tenant → JsonbExact ev.detail) :
    ChainIntact chars (runCalls chars columns calls).1 (runCalls chars columns calls).2 tenant ∧
      ∀ (call : Call) (e : AuditError),
        (auditAddBatchChained chars columns call.env call.events
          (runCalls chars columns calls).1).2 = some (tenant, e) →
        (auditAddBatchChained chars columns call.env call.events
            (runCalls chars columns calls).1).1.rowsOf tenant =
          (runCalls chars columns calls).1.rowsOf tenant ∧
        (auditAddBatchChained chars columns call.env call.events
            (runCalls chars columns calls).1).1.chainHead tenant =
          (runCalls chars columns calls).1.chainHead tenant := by
  obtain ⟨hinv, hids⟩ := runCalls_invariant hdoc hexact
  refine ⟨hinv.intact hids, fun call e hraise => ?_⟩
  exact runGroups_raised (groupByTenant_spec call.events).1 hraise

def isFinite : PyFloat → Bool
  | .finite _ => true
  | _ => false

def noNul (s : String) : Bool := s.toList.all (·.toNat ≠ 0)

/-- The columns of a PostgreSQL database: text without NUL, a UUID by any of its texts, a
JSONB document without NaN or infinities. -/
def postgresColumns : Columns where
  text := noNul
  uuid s := Uuid.ofText .ascii s.toList
  jsonb j := if j.floatLeaves.all isFinite && (strLeaves j).all noNul then some j.jsonbNumbers
    else none

theorem postgresColumns_documented : postgresColumns.Documented .ascii := by
  constructor
  · intro s u h
    simp only [postgresColumns] at h
    exact h
  · intro j j' h
    simp only [postgresColumns] at h
    split_ifs at h
    rw [← Option.some.inj h]

def fixedEnv : Env := ⟨fun _ => newYear, fun _ _ => nilId⟩

def plainEvent (tenant : String) (detail : Json) : Event :=
  ⟨tenant, none, "create", "memory", none, detail, none, none⟩

def tenToThe23 : Binary64 := ⟨false, 5960464477539062, 24, by decide⟩

def callWithFloat (x : Binary64) : Call :=
  ⟨fixedEnv, [plainEvent "t" (.obj [("x", .float (.finite x))])]⟩

theorem float_detail_invalid :
    (verifyAuditChainRows .ascii "t"
      ((runCalls .ascii postgresColumns [callWithFloat tenToThe23]).1.rowsOf "t")
      ((runCalls .ascii postgresColumns [callWithFloat tenToThe23]).1.chainHead "t") 2).isValid =
        false := by
  decide +kernel

theorem float_detail_breaks_chain :
    postgresColumns.Documented .ascii ∧
      ¬ ChainIntact .ascii (runCalls .ascii postgresColumns [callWithFloat tenToThe23]).1
        (runCalls .ascii postgresColumns [callWithFloat tenToThe23]).2 "t" := by
  refine ⟨postgresColumns_documented, fun hintact => ?_⟩
  have hvalid := hintact.verifies 2 (by decide)
  exact Bool.false_ne_true (float_detail_invalid.symm.trans hvalid)

theorem callWithFloat_one_exact : ∀ ev ∈ (callWithFloat one).events, JsonbExact ev.detail := by
  intro ev hev x hx
  obtain rfl : ev = plainEvent "t" (.obj [("x", .float (.finite one))]) := by
    simpa [callWithFloat] using hev
  obtain rfl : x = one := by
    simpa [plainEvent, Json.floatLeaves, Json.floatLeavesFields] using hx
  decide +kernel

/-- `1.0` is printed exactly, so its run keeps the chain. -/
theorem runCalls_chain_intact_one :
    ChainIntact .ascii (runCalls .ascii postgresColumns [callWithFloat one]).1
      (runCalls .ascii postgresColumns [callWithFloat one]).2 "t" := by
  have hexact : ∀ call ∈ [callWithFloat one], ∀ ev ∈ call.events, ev.tenantId = "t" →
      JsonbExact ev.detail := by
    intro call hcall ev hev _
    obtain rfl : call = callWithFloat one := by simpa using hcall
    exact callWithFloat_one_exact ev hev
  exact (runCalls_chain_intact postgresColumns_documented hexact).1

end Memclaw.Audit

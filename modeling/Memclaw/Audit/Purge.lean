import Memclaw.Audit.Runs

/-! Batches interleaved with tenant purges. A purge deletes the rows of a tenant
but keeps its chain head, so only the purge of an empty chain is harmless. -/

namespace Memclaw.Audit

open Memclaw.Lib Memclaw.Lib.Sha256
open Memclaw.Lib.HashChain (walk)

variable {chars : CharData} {columns : Columns}

theorem purgeTenantData_tables (tenant : String) (db : Database) :
    (purgeTenantData tenant db).1.tables =
      { db.tables with auditLog := db.tables.auditLog.filter (·.tenantId ≠ tenant) } := by
  simp [purgeTenantData, purgeTenantTables, purgeOrgKeyedTables, deleteFromAll, deleteScoped]

theorem purgeTenantData_rowsOf (tenant t : String) (db : Database) :
    (purgeTenantData tenant db).1.tables.rowsOf t =
      if t = tenant then [] else db.tables.rowsOf t := by
  rw [purgeTenantData_tables, Tables.rowsOf, List.filter_filter]
  split_ifs with ht
  · refine List.filter_eq_nil_iff.mpr fun row _ => ?_
    simp [ht]
  · rw [Tables.rowsOf]
    refine List.filter_congr fun row _ => ?_
    by_cases hrow : row.tenantId = t
    · simp [hrow, ht]
    · simp [hrow]

inductive Step
  | batch (call : Call)
  | purge (tenant : String)

def runStep (chars : CharData) (columns : Columns) (db : Database) : Step → Database
  | .batch call =>
    { db with tables := (auditAddBatchChained chars columns call.env call.events db.tables).1 }
  | .purge tenant => (purgeTenantData tenant db).1

def runSteps (chars : CharData) (columns : Columns) (others : String → List String)
    (steps : List Step) : Database :=
  steps.foldl (runStep chars columns) ⟨.empty, others⟩

/-- The step does not purge a chain that has rows, and its floats are printed exactly. -/
def StepKeepsChain (db : Database) (tenant : String) : Step → Prop
  | .batch call => ∀ ev ∈ call.events, ev.tenantId = tenant → JsonbExact ev.detail
  | .purge t => t = tenant → db.tables.rowsOf tenant = []

theorem runStep_invariant (hdoc : columns.Documented chars) {db : Database} {tenant : String}
    {step : Step} (hstep : StepKeepsChain db tenant step)
    (hinv : ChainInvariant chars db.tables tenant) :
    ChainInvariant chars (runStep chars columns db step).tables tenant := by
  cases step with
  | batch call => exact (auditAddBatchChained_chain hdoc call.env hstep hinv).1
  | purge t =>
    have hrows : (purgeTenantData t db).1.tables.rowsOf tenant = db.tables.rowsOf tenant := by
      rw [purgeTenantData_rowsOf]
      split_ifs with ht
      · exact (hstep ht.symm).symm
      · rfl
    have hhead : (purgeTenantData t db).1.tables.headOf tenant = db.tables.headOf tenant := by
      rw [purgeTenantData_tables]
      rfl
    obtain ⟨hlinked, hnodup⟩ := hinv
    rw [← hrows, ← hhead] at hlinked
    rw [← hrows] at hnodup
    exact ⟨hlinked, hnodup⟩

theorem runSteps_invariant (hdoc : columns.Documented chars) {others : String → List String}
    {tenant : String} {steps : List Step}
    (hsteps : ∀ before step after, steps = before ++ step :: after →
      StepKeepsChain (runSteps chars columns others before) tenant step) :
    ChainInvariant chars (runSteps chars columns others steps).tables tenant := by
  induction steps using List.reverseRecOn with
  | nil => exact chainInvariant_empty chars tenant
  | append_singleton steps step ih =>
    have hbefore := ih fun before s after hsplit =>
      hsteps before s (after ++ [step]) (by rw [hsplit]; simp)
    rw [runSteps, List.foldl_append]
    exact runStep_invariant hdoc (hsteps steps step [] rfl) hbefore

theorem insertBySeq_walk {rows : List AuditLog} {n m : ℕ} {h k : Bytes}
    (hw : walk (rowCheck chars) n h rows = some (m, k)) :
    rows.filter (·.seq.isSome) = rows ∧ rows.foldr insertBySeq [] = rows := by
  induction rows generalizing n h with
  | nil => exact ⟨rfl, rfl⟩
  | cons row rows ih =>
    obtain ⟨k', hcheck, hrest⟩ := HashChain.walk_cons_eq_some hw
    obtain ⟨hfilter, hsorted⟩ := ih hrest
    have hseq := (rowCheck_eq_some_iff.mp hcheck).1
    refine ⟨by simp [hseq, hfilter], ?_⟩
    rw [List.foldr_cons, hsorted]
    cases rows with
    | nil => rfl
    | cons next rows =>
      -- the next row has the next number, so the new row stays in front of it
      obtain ⟨k'', hnext, -⟩ := HashChain.walk_cons_eq_some hrest
      have hseq' := (rowCheck_eq_some_iff.mp hnext).1
      rw [insertBySeq, if_neg]
      rw [hseq, hseq', Option.getD_some, Option.getD_some]
      omega

theorem chainedRows_eq {tables : Tables} {tenant : String} {limit : ℕ}
    (hinv : ChainInvariant chars tables tenant)
    (hlimit : (tables.rowsOf tenant).length < limit) :
    chainedRows tables tenant limit = tables.rowsOf tenant := by
  obtain ⟨k, hwalk, -⟩ := hinv.linked
  obtain ⟨hfilter, hsorted⟩ := insertBySeq_walk hwalk
  rw [chainedRows, hfilter, hsorted, List.take_of_length_le hlimit.le]

/-- Batches and purges of empty chains never make an untampered chain look tampered. -/
theorem runSteps_verify_valid (hdoc : columns.Documented chars) {others : String → List String}
    {tenant : String} {steps : List Step}
    (hsteps : ∀ before step after, steps = before ++ step :: after →
      StepKeepsChain (runSteps chars columns others before) tenant step)
    (limit : ℕ)
    (hlimit : ((runSteps chars columns others steps).tables.rowsOf tenant).length < limit) :
    (auditVerifyChain chars (runSteps chars columns others steps).tables tenant limit).isValid =
      true := by
  have hinv := runSteps_invariant hdoc hsteps
  obtain ⟨k, hwalk, hhead⟩ := hinv.linked
  rw [auditVerifyChain, chainedRows_eq hinv hlimit]
  exact (isValid_iff_walk hlimit).mpr ⟨k, hwalk, hhead⟩

theorem runSteps_verify_valid_purge_first :
    (auditVerifyChain .ascii (runSteps .ascii postgresColumns (fun _ => [])
      [.purge "t", .batch (callWithFloat one)]).tables "t" 2).isValid = true := by
  refine runSteps_verify_valid postgresColumns_documented ?_ 2 (by decide)
  intro before step after hsplit
  rcases before with _ | ⟨first, _ | ⟨second, before⟩⟩
  · obtain ⟨rfl, -⟩ := List.cons.inj hsplit
    exact fun _ => rfl
  · obtain ⟨-, hsplit⟩ := List.cons.inj hsplit
    obtain ⟨rfl, -⟩ := List.cons.inj hsplit
    exact fun ev hev _ => callWithFloat_one_exact ev hev
  · simp at hsplit

/-- After a batch and a purge the head still counts the deleted row. -/
theorem purge_breaks_chain :
    auditVerifyChain .ascii (runSteps .ascii postgresColumns (fun _ => [])
        [.batch (callWithFloat one), .purge "t"]).tables "t" 10 =
      .invalid "t" 0 (.tailTruncated 1 0) := by
  decide

end Memclaw.Audit

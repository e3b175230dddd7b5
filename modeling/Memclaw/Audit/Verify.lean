import Memclaw.Audit.Chain
import Memclaw.Lib.HashChain

/-! The chain verifier accepts exactly the hash chains that end in the head, and
what it accepts is determined by the head, up to collisions of SHA-256. -/

namespace Memclaw.Audit

open Memclaw.Lib Memclaw.Lib.Sha256
open Memclaw.Lib.HashChain (walk)

variable {chars : CharData}

def rowCheck (chars : CharData) (i : ℕ) (expectedPrev : Bytes) (row : AuditLog) : Option Bytes :=
  (rowReason chars row i expectedPrev).toOption

theorem rowCheck_eq_some_iff {i : ℕ} {h k : Bytes} {row : AuditLog} :
    rowCheck chars i h row = some k ↔
      row.seq = some (i : ℤ) ∧ row.prevHash = some h ∧ row.eventHash = some k ∧
        k = computeEventHash (canonicalEvent chars (row.fields i)) h := by
  unfold rowCheck rowReason
  by_cases hseq : row.seq = some (i : ℤ)
  · by_cases hprev : row.prevHash = some h
    · by_cases hhash : row.eventHash =
          some (computeEventHash (canonicalEvent chars (row.fields i)) h)
      · simp [hseq, hprev, hhash, Except.toOption, eq_comm]
      · simp only [hseq, hprev, hhash, Except.toOption, ne_eq, not_true, not_false_iff, if_true,
          if_false, true_and, reduceCtorEq, false_iff]
        rintro ⟨hk, rfl⟩
        exact hhash hk
    · simp [hseq, hprev, Except.toOption]
  · simp [hseq, Except.toOption]

theorem verifyRows_eq_ok_iff {rows : List AuditLog} {n : ℕ} {h k : Bytes} :
    verifyRows chars rows (n + 1) h = .ok k ↔
      walk (rowCheck chars) n h rows = some (n + rows.length, k) := by
  induction rows generalizing n h with
  | nil => simp [verifyRows]
  | cons row rows ih =>
    have hlen : n + (row :: rows).length = n + 1 + rows.length := by
      rw [List.length_cons]
      omega
    unfold verifyRows walk rowCheck
    rw [hlen, Nat.cast_succ]
    cases hrow : rowReason chars row (n + 1) h with
    | error reason => simp [Except.toOption]
    | ok hash =>
      have hrest := ih (n := n + 1) (h := hash)
      rw [Nat.cast_succ] at hrest
      exact hrest

theorem verifyRows_genesis_eq_ok_iff {rows : List AuditLog} {k : Bytes} :
    verifyRows chars rows 1 genesisPrevHash = .ok k ↔
      walk (rowCheck chars) 0 genesisPrevHash rows = some (rows.length, k) := by
  rw [← zero_add rows.length, ← verifyRows_eq_ok_iff, Nat.cast_zero, zero_add]

theorem walk_last_fields {rows : List AuditLog} {k : Bytes}
    (hw : walk (rowCheck chars) 0 genesisPrevHash rows = some (rows.length, k)) :
    (rows.getLast?.bind (·.seq)).getD 0 = rows.length ∧
      (rows.getLast?.bind (·.eventHash)).getD genesisPrevHash = k := by
  rcases HashChain.walk_last hw with ⟨rfl, -, rfl⟩ | ⟨last, h', hlast, hcheck⟩
  · exact ⟨rfl, rfl⟩
  · obtain ⟨hseq, -, hhash, -⟩ := rowCheck_eq_some_iff.mp hcheck
    simp [hlast, hseq, hhash]

theorem verifyAuditChainRows_of_walk {rows : List AuditLog} {k : Bytes} (tenant : String)
    (head : Option AuditChainHead) (limit : ℕ)
    (hw : walk (rowCheck chars) 0 genesisPrevHash rows = some (rows.length, k)) :
    verifyAuditChainRows chars tenant rows head limit =
      if rows.length < limit ∧ head.getD .genesis ≠ ⟨rows.length, k⟩ then
        .invalid tenant rows.length
          (.tailTruncated (head.getD .genesis).lastSeq rows.length)
      else .valid tenant rows.length rows.length (limit ≤ rows.length) := by
  have hok := verifyRows_genesis_eq_ok_iff.mpr hw
  obtain ⟨hseq, hhash⟩ := walk_last_fields hw
  unfold verifyAuditChainRows
  simp only [hok, hseq, hhash]
  obtain ⟨lastSeq, lastHash⟩ := head.getD .genesis
  simp only [ne_eq, AuditChainHead.mk.injEq, Bool.and_eq_true, Bool.or_eq_true, not_and_or,
    Bool.not_eq_true', decide_eq_true_eq, decide_eq_false_iff_not, not_le]

theorem walk_of_isValid {tenant : String} {rows : List AuditLog} {head : Option AuditChainHead}
    {limit : ℕ} (h : (verifyAuditChainRows chars tenant rows head limit).isValid = true) :
    ∃ k, walk (rowCheck chars) 0 genesisPrevHash rows = some (rows.length, k) := by
  unfold verifyAuditChainRows at h
  split at h
  · cases h
  · exact ⟨_, verifyRows_genesis_eq_ok_iff.mp ‹_›⟩

theorem isValid_iff_walk {tenant : String} {rows : List AuditLog} {head : Option AuditChainHead}
    {limit : ℕ} (hlimit : rows.length < limit) :
    (verifyAuditChainRows chars tenant rows head limit).isValid = true ↔
      ∃ k, walk (rowCheck chars) 0 genesisPrevHash rows = some (rows.length, k) ∧
        head.getD .genesis = ⟨rows.length, k⟩ := by
  constructor
  · intro hvalid
    obtain ⟨k, hw⟩ := walk_of_isValid hvalid
    refine ⟨k, hw, ?_⟩
    by_contra hne
    rw [verifyAuditChainRows_of_walk tenant head limit hw, if_pos ⟨hlimit, hne⟩] at hvalid
    cases hvalid
  · rintro ⟨k, hw, hhead⟩
    rw [verifyAuditChainRows_of_walk tenant head limit hw, if_neg (by simp [hhead])]
    rfl

structure SameAuditFields (chars : CharData) (row row' : AuditLog) : Prop where
  tenantId : row.tenantId = row'.tenantId
  seq : row.seq = row'.seq
  agentId : row.agentId = row'.agentId
  action : row.action = row'.action
  resourceType : row.resourceType = row'.resourceType
  resourceId : canonicalResourceId chars row.resourceId = canonicalResourceId chars row'.resourceId
  detail : (normaliseNumbers row.detail).sortKeys = (normaliseNumbers row'.detail).sortKeys
  createdAt : row.createdAt = row'.createdAt

def hashedBytes (chars : CharData) (row : AuditLog) : Bytes :=
  canonicalEvent chars (row.fields (row.seq.getD 0)) ++ row.prevHash.getD []

theorem canonicalCreatedAt_injective : Function.Injective canonicalCreatedAt := by
  intro s t h
  have hchars := congrArg String.toList h
  simp only [canonicalCreatedAt, String.toList_ofList] at hchars
  exact DateTime.micros_injective (List.append_cancel_right hchars)

theorem hashedBytes_of_check {i : ℕ} {h k : Bytes} {row : AuditLog}
    (hcheck : rowCheck chars i h row = some k) :
    hashedBytes chars row = canonicalEvent chars (row.fields i) ++ h ∧
      k = sha256 (hashedBytes chars row) := by
  obtain ⟨hseq, hprev, -, hk⟩ := rowCheck_eq_some_iff.mp hcheck
  have hbytes : hashedBytes chars row = canonicalEvent chars (row.fields i) ++ h := by
    simp [hashedBytes, hseq, hprev]
  exact ⟨hbytes, by rw [hbytes]; exact hk⟩

theorem rowCheck_length (i : ℕ) (h : Bytes) (row : AuditLog) (k : Bytes)
    (hcheck : rowCheck chars i h row = some k) : k.length = 32 := by
  obtain ⟨-, -, -, rfl⟩ := rowCheck_eq_some_iff.mp hcheck
  exact computeEventHash_length _ _

theorem rowCheck_binds {s : Set Bytes} (hinj : Set.InjOn sha256 s) {i : ℕ} {h h' k : Bytes}
    {row row' : AuditLog} (hmem : hashedBytes chars row ∈ s) (hmem' : hashedBytes chars row' ∈ s)
    (hlen : h.length = 32) (hlen' : h'.length = 32) (hcheck : rowCheck chars i h row = some k)
    (hcheck' : rowCheck chars i h' row' = some k) : h = h' ∧ SameAuditFields chars row row' := by
  obtain ⟨hbytes, hk⟩ := hashedBytes_of_check hcheck
  obtain ⟨hbytes', hk'⟩ := hashedBytes_of_check hcheck'
  obtain ⟨hseq, -⟩ := rowCheck_eq_some_iff.mp hcheck
  obtain ⟨hseq', -⟩ := rowCheck_eq_some_iff.mp hcheck'
  rw [hbytes] at hmem hk
  rw [hbytes'] at hmem' hk'
  obtain ⟨hcanon, hprev⟩ :=
    computeEventHash_binds hinj hmem hmem' (hlen.trans hlen'.symm) (hk.symm.trans hk')
  have hsame := (canonicalEvent_eq_iff chars _ _).mp hcanon
  exact ⟨hprev, hsame.tenantId, hseq.trans hseq'.symm, hsame.agentId, hsame.action,
    hsame.resourceType, hsame.resourceId, hsame.detail,
    canonicalCreatedAt_injective hsame.createdAtIso⟩

/-- A fully verified chain is determined by its head: any other list of rows, shorter,
longer, reordered or edited, is reported invalid against that head. -/
theorem verified_chain_determined {tenant tenant' : String} {rows rows' : List AuditLog}
    {head : Option AuditChainHead} {limit limit' : ℕ}
    (hinj : Set.InjOn sha256 {b | ∃ row ∈ rows ++ rows', b = hashedBytes chars row})
    (hlimit : rows.length < limit) (hlimit' : rows'.length < limit')
    (hvalid : (verifyAuditChainRows chars tenant rows head limit).isValid = true) :
    ((verifyAuditChainRows chars tenant' rows' head limit').isValid = true →
      rows.length = rows'.length ∧ List.Forall₂ (SameAuditFields chars) rows rows') ∧
    (¬ List.Forall₂ (SameAuditFields chars) rows rows' →
      (verifyAuditChainRows chars tenant' rows' head limit').isValid = false) := by
  have hsame : (verifyAuditChainRows chars tenant' rows' head limit').isValid = true →
      rows.length = rows'.length ∧ List.Forall₂ (SameAuditFields chars) rows rows' := by
    intro hvalid'
    obtain ⟨k, hw, hhead⟩ := (isValid_iff_walk hlimit).mp hvalid
    obtain ⟨k', hw', hhead'⟩ := (isValid_iff_walk hlimit').mp hvalid'
    obtain ⟨hlen, rfl⟩ := AuditChainHead.mk.inj (hhead.symm.trans hhead')
    have hlen : rows.length = rows'.length := by exact_mod_cast hlen
    rw [← hlen] at hw'
    refine ⟨hlen, HashChain.walk_commits rowCheck_length ?_ hlen genesisPrevHash_length
      genesisPrevHash_length hw hw'⟩
    intro i h h' k row hrow row' hrow' hh hh' hcheck hcheck'
    exact rowCheck_binds hinj ⟨row, by simp [hrow], rfl⟩ ⟨row', by simp [hrow'], rfl⟩ hh hh'
      hcheck hcheck'
  refine ⟨hsame, fun hdiffer => ?_⟩
  rw [← Bool.not_eq_true]
  exact fun hvalid' => hdiffer (hsame hvalid').2

def nilId : Uuid := ⟨0, by decide⟩

def newYear : DateTime := ⟨2025, 1, 1, 0, 0, 0, 0, by decide⟩

def chainedRow (n : ℕ) (prev : Bytes) (detail : Json) : AuditLog :=
  let row : AuditLog :=
    { id := nilId
      tenantId := "t"
      agentId := none
      action := "create"
      resourceType := "memory"
      resourceId := none
      detail := detail
      createdAt := newYear
      seq := some n
      prevHash := some prev
      eventHash := none
      clientEventId := none }
  { row with
    eventHash := some (computeEventHash (canonicalEvent .ascii (row.fields n)) prev) }

def firstRow (detail : Json) : AuditLog := chainedRow 1 genesisPrevHash detail

def secondRow (detail : Json) : AuditLog :=
  chainedRow 2 (sha256 (hashedBytes .ascii (firstRow detail))) detail

def twoRows (detail : Json) : List AuditLog := [firstRow detail, secondRow detail]

def twoRowsHead (detail : Json) : AuditChainHead :=
  ⟨2, sha256 (hashedBytes .ascii (secondRow detail))⟩

def one : Binary64 := ⟨false, 2 ^ 52, -52, by decide⟩

theorem chainedRow_check (n : ℕ) (prev : Bytes) (detail : Json) :
    rowCheck .ascii n prev (chainedRow n prev detail) =
      some (sha256 (hashedBytes .ascii (chainedRow n prev detail))) :=
  rowCheck_eq_some_iff.mpr ⟨rfl, rfl, rfl, rfl⟩

theorem twoRows_isValid (detail : Json) :
    (verifyAuditChainRows .ascii "t" (twoRows detail) (some (twoRowsHead detail)) 3).isValid =
      true := by
  have hlimit : (twoRows detail).length < 3 := Nat.lt_succ_self 2
  refine (isValid_iff_walk hlimit).mpr ⟨_, ?_, rfl⟩
  rw [twoRows, firstRow, HashChain.walk_cons_of_check (chainedRow_check 1 _ detail), secondRow,
    firstRow, HashChain.walk_cons_of_check (chainedRow_check 2 _ detail)]
  rfl

theorem chainedRow_one (n : ℕ) (prev : Bytes) :
    hashedBytes .ascii (chainedRow n prev (.float (.finite one))) =
      hashedBytes .ascii (chainedRow n prev (.int 1)) := by
  have hdetail : (normaliseNumbers (.float (.finite one))).sortKeys =
      (normaliseNumbers (.int 1)).sortKeys := rfl
  have hcanonical : canonicalEvent .ascii ((chainedRow n prev (.float (.finite one))).fields n) =
      canonicalEvent .ascii ((chainedRow n prev (.int 1)).fields n) :=
    (canonicalEvent_eq_iff .ascii _ _).mpr ⟨rfl, rfl, rfl, rfl, rfl, rfl, hdetail, rfl⟩
  rw [(hashedBytes_of_check (chainedRow_check n prev _)).1,
    (hashedBytes_of_check (chainedRow_check n prev _)).1, hcanonical]

theorem firstRow_one : hashedBytes .ascii (firstRow (.float (.finite one))) =
    hashedBytes .ascii (firstRow (.int 1)) := chainedRow_one 1 genesisPrevHash

theorem secondRow_one : hashedBytes .ascii (secondRow (.float (.finite one))) =
    hashedBytes .ascii (secondRow (.int 1)) := by
  rw [secondRow, secondRow, firstRow_one, chainedRow_one]

theorem twoRows_injOn :
    Set.InjOn sha256 {b | ∃ row ∈ twoRows (.int 1), b = hashedBytes .ascii row} := by
  have hne : sha256 (hashedBytes .ascii (firstRow (.int 1))) ≠
      sha256 (hashedBytes .ascii (secondRow (.int 1))) := by decide +kernel
  rintro b ⟨row, hrow, rfl⟩ b' ⟨row', hrow', rfl⟩ hsame
  simp only [twoRows, List.mem_cons, List.not_mem_nil, or_false] at hrow hrow'
  obtain rfl | rfl := hrow <;> obtain rfl | rfl := hrow'
  · rfl
  · exact absurd hsame hne
  · exact absurd hsame.symm hne
  · rfl

/-- One chain of two rows, written with an int and with the equal float, and the same rows the other
way round. -/
theorem verified_chain_determined_two_rows :
    List.Forall₂ (SameAuditFields .ascii) (twoRows (.int 1)) (twoRows (.float (.finite one))) ∧
      (verifyAuditChainRows .ascii "t" (twoRows (.int 1)).reverse
        (some (twoRowsHead (.int 1))) 3).isValid = false := by
  have hhead : twoRowsHead (.float (.finite one)) = twoRowsHead (.int 1) := by
    rw [twoRowsHead, twoRowsHead, secondRow_one]
  have hvalid := twoRows_isValid (.int 1)
  have hvalid' := twoRows_isValid (.float (.finite one))
  rw [hhead] at hvalid'
  constructor
  · refine ((verified_chain_determined (twoRows_injOn.mono ?_) (by decide) (by decide) hvalid).1
      hvalid').2
    rintro b ⟨row, hrow, rfl⟩
    rcases List.mem_append.mp hrow with hrow | hrow
    · exact ⟨row, hrow, rfl⟩
    · simp only [twoRows, List.mem_cons, List.not_mem_nil, or_false] at hrow
      obtain rfl | rfl := hrow
      · exact ⟨firstRow (.int 1), List.mem_cons_self, firstRow_one⟩
      · exact ⟨secondRow (.int 1), List.mem_cons_of_mem _ List.mem_cons_self, secondRow_one⟩
  · refine (verified_chain_determined (twoRows_injOn.mono ?_) (by decide) (by decide)
      hvalid).2 ?_
    · rintro b ⟨row, hrow, rfl⟩
      rw [List.mem_append, List.mem_reverse, or_self_iff] at hrow
      exact ⟨row, hrow, rfl⟩
    · intro hsame
      have hseq := (List.forall₂_cons.mp hsame).1.seq
      exact absurd hseq (by decide)

end Memclaw.Audit

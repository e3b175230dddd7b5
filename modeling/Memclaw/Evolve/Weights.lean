import Mathlib.Algebra.Order.Ring.Rat
import Mathlib.Data.List.Dedup
import Mathlib.Data.Finset.Card
import Mathlib.Data.Finset.Dedup
import Mathlib.Data.Finset.Image
import Mathlib.Data.List.Forall2
import Mathlib.Data.String.Basic
import Mathlib.Tactic.NormNum
import Memclaw.Contradiction.DetectorDefs
import Memclaw.Lib.Fallible
import Memclaw.Lib.FixedWidthDefs
import Memclaw.Lib.Groups
import Memclaw.Lib.Interleave
import Memclaw.Lib.StableSort
import Memclaw.Memories.Statements
import Memclaw.Memories.TableDefs

/-! What an outcome does to the memories it names: `_filter_by_scope` keeps the ids that the caller
may touch, `_adjust_weights` moves the weights of their memories. A UUID is its number; between the
two services it travels as its text and is read back. What the calls of `_adjust_weights` do to a
store. Every memory that a call names is moved once, into the range of weights, and in the direction
of the outcome; below the floor there is only one direction, for the clamp lifts the weight. -/

namespace Memclaw.Evolve

open Memclaw.Lib
open Memclaw.Memories (Memory Table)

variable {V : Type}

inductive OutcomeType
  | success
  | failure
  | partialSuccess

def OutcomeType.delta : OutcomeType → ℚ
  | .success => 1 / 10
  | .failure => -15 / 100
  | .partialSuccess => 3 / 100

def evolveWeightFloor : ℚ := 5 / 100

def evolveWeightCap : ℚ := 1

def evolveMaxRelatedIds : ℕ := 50

structure EvolveEnv where
  chars : CharData
  round4 : ℚ → ℚ

variable (env : EvolveEnv)

/-- `UUID(s)`; nothing where it raises. -/
def EvolveEnv.uuid (s : String) : Option ℕ := (Uuid.ofText env.chars s.toList).map Uuid.value

inductive Scope
  | agent
  | fleet
  | all
deriving DecidableEq

structure ScopeCall where
  tenantId : String
  callerAgentId : String
  fleetId : Option String
  scope : Scope

variable (rows : Table V)

def ScopeCall.admits (c : ScopeCall) (m : Memory V) : Bool :=
  m.tenantId = c.tenantId && m.live &&
    match c.scope with
    | .agent => m.agentId = c.callerAgentId
    | .fleet => m.fleetId = c.fleetId
    | .all => true

/-- What the route asks of a call: a tenant, a caller and, for the fleet scope, a fleet. -/
def ScopeCall.Accepted (c : ScopeCall) : Prop :=
  c.tenantId ≠ "" ∧ c.callerAgentId ≠ "" ∧
    (c.scope = .fleet → Contradiction.truthyText c.fleetId = true)

def evolveFilterByScope (c : ScopeCall) (ids : List ℕ) : Option (List ℕ) :=
  if c.tenantId = "" ∨ c.callerAgentId = "" then none
  else if c.scope = .fleet ∧ Contradiction.truthyText c.fleetId = false then none
  else some ((rows.filter fun m => decide (m.id ∈ ids) && c.admits m).map Memory.id)

/-- `valid_uuids`: a dict under the texts, in the order in which they were first seen. -/
def validUuids (relatedIds : List String) : List (String × ℕ) :=
  Groups.collect Prod.fst (fun pair _ => pair.2) []
    (relatedIds.filterMap fun s => (env.uuid s).map fun u => (s, u))

/-- `_filter_by_scope`: the ids in scope and `out_of_scope_count`; nothing where it raises. -/
def filterByScope (c : ScopeCall) (relatedIds : List String) : Option (List String × ℕ) :=
  if relatedIds = [] then some ([], 0)
  else if c.scope = .fleet ∧ c.fleetId = none then none
  else
    let valid := validUuids env relatedIds
    if valid = [] then some ([], relatedIds.length)
    else (evolveFilterByScope rows c (valid.map Prod.snd)).map fun allowed =>
      let inScope := (valid.filter fun pair => decide (pair.2 ∈ allowed)).map Prod.fst
      let invalidOrDup := relatedIds.length - valid.length
      let outOfScopeUnique := valid.length - inScope.length
      (inScope, invalidOrDup + outOfScopeUnique)

/-- `GREATEST(:floor, LEAST(:cap, weight + :delta))`; a null is passed over. -/
def clamped (floor cap delta : ℚ) (weight : Option ℚ) : ℚ :=
  max floor (match weight with
    | some w => min cap (w + delta)
    | none => cap)

structure WeightRow where
  id : ℕ
  oldWeight : ℚ
  newWeight : ℚ

structure Backfill where
  ruleId : ℕ
  outcomeId : String

def backfillRule (tenantId : String) (backfill : Option Backfill) (m : Memory V) : Memory V :=
  match backfill with
  | none => m
  | some b =>
    if m.at b.ruleId tenantId then
      { m with metadata := some (Dict.set (m.metadata.getD []) "source_outcome_id" (.str b.outcomeId)) }
    else m

def matched (tenantId : String) (ids : List ℕ) (m : Memory V) : Bool :=
  decide (m.id ∈ ids) && m.tenantId = tenantId && m.live

/-- `evolve_apply_weights`, one transaction behind its route, which requires a tenant; nothing
where it raises, as `float` does on a null. -/
def evolveApplyWeights (tenantId : String) (ids : List ℕ) (delta floor cap : ℚ)
    (backfill : Option Backfill) : Option (Table V × List WeightRow) :=
  if tenantId = "" then none
  else do
    let adjustments ← (rows.filter (matched tenantId ids)).mapM fun m =>
      m.weight.map fun old => ⟨m.id, old, clamped floor cap delta m.weight⟩
    let weighed := rows.map fun m =>
      if matched tenantId ids m then { m with weight := some (clamped floor cap delta m.weight) }
      else m
    some (weighed.map (backfillRule tenantId backfill), adjustments)

structure EvolveCall where
  tenantId : String
  relatedIds : List String
  outcomeType : OutcomeType
  backfill : Option Backfill

structure Adjustment where
  memoryId : String
  oldWeight : ℚ
  newWeight : ℚ
  delta : ℚ

structure AdjustReport where
  skipReason : Option String
  processedIds : List String
  adjustments : List Adjustment

def noRowsUpdated : AdjustReport := ⟨some "no_rows_updated", [], []⟩

/-- `sorted(set(related_ids))`, cut to the cap. -/
def deduped (relatedIds : List String) : List String :=
  (relatedIds.dedup.mergeSort fun a b => !(b < a)).take evolveMaxRelatedIds

def parsed (relatedIds : List String) : List (String × ℕ) :=
  (deduped relatedIds).filterMap fun s => (env.uuid s).map fun u => (s, u)

def reportOf (delta : ℚ) (ids : List (String × ℕ)) (adjusted : List WeightRow) : AdjustReport :=
  let found := ids.filterMap fun pair =>
    (Keyed.get WeightRow.id adjusted pair.2).map fun row => (pair.1, row)
  { skipReason := if found = [] then some "no_rows_updated" else none
    processedIds := found.map Prod.fst
    adjustments := found.map fun (memoryId, row) =>
      ⟨memoryId, env.round4 row.oldWeight, env.round4 row.newWeight, env.round4 delta⟩ }

def adjustWeights (call : EvolveCall) : Table V × AdjustReport :=
  let ids := parsed env call.relatedIds
  if ids = [] then (rows, noRowsUpdated)
  else
    match evolveApplyWeights rows call.tenantId (ids.map Prod.snd) call.outcomeType.delta
      evolveWeightFloor evolveWeightCap call.backfill with
    | none => (rows, noRowsUpdated)
    | some (rows', adjusted) => (rows', reportOf env call.outcomeType.delta ids adjusted)

variable {env : EvolveEnv} {rows : Table V} {call : EvolveCall} {m : Memory V}

section Clamp

variable {floor cap delta w : ℚ}

theorem floor_le_clamped (weight : Option ℚ) : floor ≤ clamped floor cap delta weight :=
  le_max_left _ _

theorem clamped_le_cap (h : floor ≤ cap) (weight : Option ℚ) :
    clamped floor cap delta weight ≤ cap := by
  cases weight with
  | none => exact max_le h le_rfl
  | some w => exact max_le h (min_le_left _ _)

theorem le_clamped (hdelta : 0 ≤ delta) (hcap : w ≤ cap) :
    w ≤ clamped floor cap delta (some w) :=
  le_max_of_le_right (le_min hcap (le_add_of_nonneg_right hdelta))

theorem clamped_le_iff (hdelta : delta ≤ 0) :
    clamped floor cap delta (some w) ≤ w ↔ floor ≤ w := by
  constructor
  · exact (floor_le_clamped (some w)).trans
  · intro hfloor
    have hsum : min cap (w + delta) ≤ w :=
      (min_le_right _ _).trans (add_le_of_nonpos_right hdelta)
    exact max_le hfloor hsum

end Clamp

theorem floor_le_cap : evolveWeightFloor ≤ evolveWeightCap := by
  norm_num [evolveWeightFloor, evolveWeightCap]

section Apply

variable {tenantId : String} {ids : List ℕ} {delta floor cap : ℚ} {backfill : Option Backfill}

def movedRow (tenantId : String) (ids : List ℕ) (delta floor cap : ℚ) (backfill : Option Backfill)
    (m : Memory V) : Memory V :=
  backfillRule tenantId backfill
    (if matched tenantId ids m then { m with weight := some (clamped floor cap delta m.weight) }
    else m)

theorem evolveApplyWeights_of_some {rows' : Table V} {adjusted : List WeightRow}
    (h : evolveApplyWeights rows tenantId ids delta floor cap backfill = some (rows', adjusted)) :
    tenantId ≠ "" ∧ rows' = rows.map (movedRow tenantId ids delta floor cap backfill) ∧
      adjusted.map WeightRow.id = (rows.filter (matched tenantId ids)).map Memory.id := by
  rw [evolveApplyWeights] at h
  split at h
  · exact absurd h (by simp)
  · next htenant =>
    obtain ⟨found, hfound, heq⟩ := Option.bind_eq_some_iff.mp h
    cases heq
    refine ⟨htenant, List.map_map, map_of_mapM (fun m row hrow => ?_) hfound⟩
    obtain ⟨old, -, rfl⟩ := Option.map_eq_some_iff.mp hrow
    rfl

theorem evolveApplyWeights_isSome (htenant : tenantId ≠ "")
    (h : ∀ m ∈ rows, m.weight.isSome = true) :
    ∃ result, evolveApplyWeights rows tenantId ids delta floor cap backfill = some result := by
  rw [evolveApplyWeights, if_neg htenant]
  have hall : ∀ m ∈ rows.filter (matched tenantId ids), (m.weight.map fun old =>
      (⟨m.id, old, clamped floor cap delta m.weight⟩ : WeightRow)).isSome = true := by
    intro m hm
    rw [Option.isSome_map]
    exact h m (List.mem_filter.mp hm).1
  obtain ⟨found, hfound⟩ := Option.isSome_iff_exists.mp (isSome_mapM_iff.mpr hall)
  rw [hfound]
  exact ⟨_, rfl⟩

theorem backfillRule_weight (tenantId : String) (backfill : Option Backfill) (m : Memory V) :
    (backfillRule tenantId backfill m).weight = m.weight := by
  unfold backfillRule
  split
  · rfl
  · split <;> rfl

theorem movedRow_rest : movedRow tenantId ids delta floor cap backfill m =
    { m with
      weight := (movedRow tenantId ids delta floor cap backfill m).weight
      metadata := (movedRow tenantId ids delta floor cap backfill m).metadata } := by
  unfold movedRow backfillRule
  split
  · split <;> rfl
  · split <;> split <;> rfl

theorem movedRow_metadata :
    (movedRow tenantId ids delta floor cap backfill m).metadata = m.metadata ∨
      ∃ b, backfill = some b ∧ m.at b.ruleId tenantId = true ∧
        (movedRow tenantId ids delta floor cap backfill m).metadata =
          some (Dict.set (m.metadata.getD []) "source_outcome_id" (.str b.outcomeId)) := by
  cases backfill with
  | none =>
    refine .inl ?_
    unfold movedRow backfillRule
    dsimp only
    split <;> rfl
  | some b =>
    unfold movedRow backfillRule
    dsimp only
    -- the weight of a row does not say whose row it is
    have hat : (if matched tenantId ids m then
        { m with weight := some (clamped floor cap delta m.weight) } else m).at b.ruleId tenantId =
          m.at b.ruleId tenantId := by
      split <;> rfl
    rw [hat]
    by_cases hrule : m.at b.ruleId tenantId = true
    · refine .inr ⟨b, rfl, hrule, ?_⟩
      rw [if_pos hrule]
      split <;> rfl
    · refine .inl ?_
      rw [if_neg hrule]
      split <;> rfl

theorem movedRow_weight : (movedRow tenantId ids delta floor cap backfill m).weight =
    if matched tenantId ids m then some (clamped floor cap delta m.weight) else m.weight := by
  rw [movedRow, backfillRule_weight]
  split <;> rfl

end Apply

def Target (env : EvolveEnv) (call : EvolveCall) (m : Memory V) : Prop :=
  m.tenantId = call.tenantId ∧ m.live = true ∧
    ∃ s ∈ deduped call.relatedIds, env.uuid s = some m.id

theorem mem_parsed {relatedIds : List String} {pair : String × ℕ} :
    pair ∈ parsed env relatedIds ↔
      pair.1 ∈ deduped relatedIds ∧ env.uuid pair.1 = some pair.2 := by
  obtain ⟨s, u⟩ := pair
  rw [parsed, List.mem_filterMap]
  constructor
  · rintro ⟨s', hs', hpair⟩
    obtain ⟨u', hu', heq⟩ := Option.map_eq_some_iff.mp hpair
    cases heq
    exact ⟨hs', hu'⟩
  · rintro ⟨hs, hu⟩
    exact ⟨s, hs, by rw [hu]; rfl⟩

theorem matched_iff : matched call.tenantId ((parsed env call.relatedIds).map Prod.snd) m = true ↔
    Target env call m := by
  have hids : m.id ∈ (parsed env call.relatedIds).map Prod.snd ↔
      ∃ s ∈ deduped call.relatedIds, env.uuid s = some m.id := by
    rw [List.mem_map]
    constructor
    · rintro ⟨⟨s, u⟩, hpair, hu⟩
      obtain ⟨hs, hsu⟩ := mem_parsed.mp hpair
      exact ⟨s, hs, hsu.trans (congrArg some hu)⟩
    · rintro ⟨s, hs, hsu⟩
      exact ⟨(s, m.id), mem_parsed.mpr ⟨hs, hsu⟩, rfl⟩
  rw [matched, Bool.and_eq_true, Bool.and_eq_true, decide_eq_true_iff, decide_eq_true_iff, hids]
  constructor
  · rintro ⟨⟨hs, htenant⟩, hlive⟩
    exact ⟨htenant, hlive, hs⟩
  · rintro ⟨htenant, hlive, hs⟩
    exact ⟨⟨hs, htenant⟩, hlive⟩

/-- What an entry of the list stands for: an id, or nothing but its own text. -/
def EvolveEnv.idOf (env : EvolveEnv) (s : String) : ℕ ⊕ String :=
  (env.uuid s).elim (.inr s) .inl

def SpelledOnce (env : EvolveEnv) (relatedIds : List String) : Prop :=
  Set.InjOn env.idOf {s | s ∈ relatedIds}

abbrev CountOrder := List String → String → List String

def bySortOrder : CountOrder := fun relatedIds s => relatedIds.filter (· < s)

def byListOrder : CountOrder := fun relatedIds s => relatedIds.takeWhile (· ≠ s)

def Named (env : EvolveEnv) (order : CountOrder) (call : EvolveCall) (m : Memory V) : Prop :=
  call.tenantId ≠ "" ∧ m.tenantId = call.tenantId ∧ m.live = true ∧
    ∃ s ∈ call.relatedIds, env.uuid s = some m.id ∧
      ((order call.relatedIds s).map env.idOf).toFinset.card < evolveMaxRelatedIds

theorem mem_deduped {relatedIds : List String} {s : String} : s ∈ deduped relatedIds ↔
    s ∈ relatedIds ∧ (bySortOrder relatedIds s).toFinset.card < evolveMaxRelatedIds := by
  -- The ids that the code takes: those with few distinct texts that sort before them.
  have hsorted : (relatedIds.dedup.mergeSort fun a b => !(b < a)).Pairwise (· < ·) := by
    have hle : (relatedIds.dedup.mergeSort fun a b => !(b < a)).Pairwise fun a b => !(b < a) := by
      refine List.pairwise_mergeSort (fun a b c hab hbc => ?_) (fun a b => ?_) _
      · simp only [Bool.not_eq_true', decide_eq_false_iff_not, not_lt] at hab hbc ⊢
        exact hab.trans hbc
      · simp only [Bool.or_eq_true, Bool.not_eq_true', decide_eq_false_iff_not, not_lt]
        exact le_total a b
    have hne : (relatedIds.dedup.mergeSort fun a b => !(b < a)).Nodup :=
      (List.mergeSort_perm _ _).nodup_iff.mpr (List.nodup_dedup relatedIds)
    refine (hle.and hne).imp fun hab => ?_
    obtain ⟨hle, hne⟩ := hab
    simp only [Bool.not_eq_true', decide_eq_false_iff_not, not_lt] at hle
    exact lt_of_le_of_ne hle hne
  have hcount : ((relatedIds.dedup.mergeSort fun a b => !(b < a)).filter (· < s)).length =
      (bySortOrder relatedIds s).toFinset.card := by
    rw [← List.toFinset_card_of_nodup (hsorted.nodup.filter _)]
    congr 1
    ext t
    simp [bySortOrder]
  rw [deduped, StableSort.mem_take_iff hsorted, hcount, List.mem_mergeSort, List.mem_dedup]

theorem SpelledOnce.card (h : SpelledOnce env call.relatedIds) (s : String) :
    ((bySortOrder call.relatedIds s).map env.idOf).toFinset.card =
      (bySortOrder call.relatedIds s).toFinset.card := by
  have himage : ((bySortOrder call.relatedIds s).map env.idOf).toFinset =
      (bySortOrder call.relatedIds s).toFinset.image env.idOf := by
    ext v
    simp
  rw [himage, Finset.card_image_of_injOn]
  exact h.mono fun t ht => List.mem_of_mem_filter (List.mem_toFinset.mp ht)

theorem SpelledOnce.target_iff (h : SpelledOnce env call.relatedIds)
    (htenant : call.tenantId ≠ "") :
    Target env call m ↔ Named env bySortOrder call m := by
  -- Where every id is spelled in one way, the code takes the first distinct ones.
  simp only [Target, Named, mem_deduped, h.card]
  constructor
  · rintro ⟨hm, hlive, s, ⟨hs, hcount⟩, hu⟩
    exact ⟨htenant, hm, hlive, s, hs, hu, hcount⟩
  · rintro ⟨-, hm, hlive, s, hs, hu, hcount⟩
    exact ⟨hm, hlive, s, ⟨hs, hcount⟩, hu⟩

def Backfilled (call : EvolveCall) (m m' : Memory V) : Prop :=
  ∃ b, call.backfill = some b ∧ m.at b.ruleId call.tenantId = true ∧
    m'.metadata = some (Dict.set (m.metadata.getD []) "source_outcome_id" (.str b.outcomeId))

/-- What a call makes of one memory. Which memories are named is said of lists that spell every id
in one way; weights that are to fall do so under `guard`. -/
structure RowAdjusted (env : EvolveEnv) (order : CountOrder) (guard : ℚ → Prop)
    (call : EvolveCall) (m m' : Memory V) : Prop where
  rest : m' = { m with weight := m'.weight, metadata := m'.metadata }
  metadata : m'.metadata = m.metadata ∨ Backfilled call m m'
  once : SpelledOnce env call.relatedIds → Named env order call m → ∀ w, m.weight = some w →
    m'.weight = some (max evolveWeightFloor (min evolveWeightCap (w + call.outcomeType.delta)))
  range : m'.weight ≠ m.weight ∨ SpelledOnce env call.relatedIds ∧ Named env order call m →
    ∃ w', m'.weight = some w' ∧ evolveWeightFloor ≤ w' ∧ w' ≤ evolveWeightCap
  other : SpelledOnce env call.relatedIds → ¬ Named env order call m → m'.weight = m.weight
  raised : 0 < call.outcomeType.delta →
    ∀ w w', m.weight = some w → m'.weight = some w' → w ≤ w'
  lowered : call.outcomeType.delta < 0 →
    ∀ w w', m.weight = some w → m'.weight = some w' → guard w → w' ≤ w

def Adjusts (env : EvolveEnv) (order : CountOrder) (guard : ℚ → Prop) (rows : Table V)
    (call : EvolveCall) (rows' : Table V) : Prop :=
  List.Forall₂ (RowAdjusted env order guard call) rows rows'

def WeightsIn (rows : Table V) : Prop :=
  ∀ m ∈ rows, ∃ w, m.weight = some w ∧ 0 ≤ w ∧ w ≤ 1

theorem rowAdjusted_self (h : ∀ _ : SpelledOnce env call.relatedIds, ¬ Named env bySortOrder call m) :
    RowAdjusted env bySortOrder (evolveWeightFloor ≤ ·) call m m where
  rest := rfl
  metadata := .inl rfl
  once hspelled hnamed := absurd hnamed (h hspelled)
  range hmoved := hmoved.elim (absurd rfl) fun hnamed => absurd hnamed.2 (h hnamed.1)
  other _ _ := rfl
  raised _ _ _ hw hw' := (Option.some.inj (hw.symm.trans hw')).le
  lowered _ _ _ hw hw' _ := (Option.some.inj (hw.symm.trans hw')).ge

def callRow (env : EvolveEnv) (call : EvolveCall) : Memory V → Memory V :=
  movedRow call.tenantId ((parsed env call.relatedIds).map Prod.snd) call.outcomeType.delta
    evolveWeightFloor evolveWeightCap call.backfill

theorem callRow_weight (h : Target env call m) {w : ℚ} (hw : m.weight = some w) :
    (callRow env call m).weight =
      some (clamped evolveWeightFloor evolveWeightCap call.outcomeType.delta (some w)) := by
  rw [callRow, movedRow_weight, if_pos (matched_iff.mpr h), hw]

theorem callRow_weight_of_not (h : ¬ Target env call m) :
    (callRow env call m).weight = m.weight := by
  rw [callRow, movedRow_weight, if_neg fun hmatched => h (matched_iff.mp hmatched)]

theorem rowAdjusted_callRow (htenant : call.tenantId ≠ "") {w : ℚ} (hw : m.weight = some w)
    (hcap : w ≤ evolveWeightCap) :
    RowAdjusted env bySortOrder (evolveWeightFloor ≤ ·) call m (callRow env call m) where
  rest := movedRow_rest
  metadata := movedRow_metadata
  once hspelled hnamed w' hw' := callRow_weight ((hspelled.target_iff htenant).mpr hnamed) hw'
  range hmoved := by
    have htarget : Target env call m := by
      rcases hmoved with hmoved | ⟨hspelled, hnamed⟩
      · by_contra htarget
        exact hmoved (callRow_weight_of_not htarget)
      · exact (hspelled.target_iff htenant).mpr hnamed
    exact ⟨_, callRow_weight htarget hw, floor_le_clamped _, clamped_le_cap floor_le_cap _⟩
  other hspelled hnamed :=
    callRow_weight_of_not fun htarget => hnamed ((hspelled.target_iff htenant).mp htarget)
  raised hdelta w₀ w' hw₀ hw' := by
    obtain rfl := Option.some.inj (hw.symm.trans hw₀)
    by_cases htarget : Target env call m
    · obtain rfl := Option.some.inj ((callRow_weight htarget hw).symm.trans hw')
      exact le_clamped hdelta.le hcap
    · rw [callRow_weight_of_not htarget, hw] at hw'
      exact (Option.some.inj hw').le
  lowered hdelta w₀ w' hw₀ hw' hfloor := by
    obtain rfl := Option.some.inj (hw.symm.trans hw₀)
    by_cases htarget : Target env call m
    · obtain rfl := Option.some.inj ((callRow_weight htarget hw).symm.trans hw')
      exact (clamped_le_iff hdelta.le).mpr hfloor
    · rw [callRow_weight_of_not htarget, hw] at hw'
      exact (Option.some.inj hw').ge

theorem adjustWeights_rows (h : WeightsIn rows) : (adjustWeights env rows call).1 =
    if call.tenantId = "" ∨ parsed env call.relatedIds = [] then rows
    else rows.map (callRow env call) := by
  -- A call moves every row, or, where it has no tenant or no id that parses, none.
  rw [adjustWeights]
  by_cases hids : parsed env call.relatedIds = []
  · rw [if_pos hids, if_pos (.inr hids)]
  · by_cases htenant : call.tenantId = ""
    · rw [if_neg hids, if_pos (.inl htenant), evolveApplyWeights, if_pos htenant]
    · have hweights : ∀ m ∈ rows, m.weight.isSome = true := by
        intro m hm
        obtain ⟨w, hw, -⟩ := h m hm
        rw [hw]
        rfl
      obtain ⟨⟨rows', adjusted⟩, happly⟩ := evolveApplyWeights_isSome htenant hweights
      obtain ⟨-, hrows', -⟩ := evolveApplyWeights_of_some happly
      rw [if_neg hids, if_neg (not_or.mpr ⟨htenant, hids⟩), happly, hrows']
      rfl

theorem adjusts_adjustWeights (h : WeightsIn rows) :
    Adjusts env bySortOrder (evolveWeightFloor ≤ ·) rows call (adjustWeights env rows call).1 := by
  rw [adjustWeights_rows h]
  split
  · next hnothing =>
    rw [Adjusts, List.forall₂_same]
    refine fun m _ => rowAdjusted_self fun hspelled hnamed => ?_
    rcases hnothing with htenant | hids
    · exact hnamed.1 htenant
    · have hmem := matched_iff.mpr ((hspelled.target_iff hnamed.1).mpr hnamed)
      simp [matched, hids] at hmem
  · next hcall =>
    rw [Adjusts, List.forall₂_map_right_iff, List.forall₂_same]
    intro m hm
    obtain ⟨w, hw, -, hcap⟩ := h m hm
    exact rowAdjusted_callRow (not_or.mp hcall).1 hw hcap

theorem Adjusts.weightsIn {order : CountOrder} {guard : ℚ → Prop} {rows' : Table V}
    (hadjusts : Adjusts env order guard rows call rows') (h : WeightsIn rows) : WeightsIn rows' := by
  induction hadjusts with
  | nil => exact h
  | @cons m m' rows rows' hrow _ ih =>
    obtain ⟨⟨w, hw, hbounds⟩, hrest⟩ := List.forall_mem_cons.mp h
    refine List.forall_mem_cons.mpr ⟨?_, ih hrest⟩
    by_cases hmoved : m'.weight = m.weight
    · exact ⟨w, hmoved.trans hw, hbounds⟩
    · obtain ⟨w', hw', hfloor, hcap⟩ := hrow.range (.inl hmoved)
      have hzero : (0 : ℚ) ≤ evolveWeightFloor := by norm_num [evolveWeightFloor]
      exact ⟨w', hw', hzero.trans hfloor, hcap⟩

/-- Along every run of calls, each call moves the memories that it names, once each, into the
range, and in the direction of its outcome unless they are below the floor. -/
theorem adjusts_along (h : WeightsIn rows) (calls : List EvolveCall) :
    Interleave.Along (fun rows call => (adjustWeights env rows call).1)
      (fun rows call => Adjusts env bySortOrder (evolveWeightFloor ≤ ·) rows call
        (adjustWeights env rows call).1)
      rows calls := by
  have hstep : ∀ (rows : Table V) (call : EvolveCall), WeightsIn rows → True →
      WeightsIn (adjustWeights env rows call).1 :=
    fun rows call hrows _ => (adjusts_adjustWeights hrows).weightsIn hrows
  refine Interleave.Along.mono hstep (fun rows call hrows _ => adjusts_adjustWeights hrows) h ?_
  exact Interleave.Along.of_forall (fun _ _ => trivial) rows calls

def sampleEnv : EvolveEnv := ⟨.ascii, id⟩

def faded : Memory ℕ := { Memories.sampleMemory.row 1 0 with weight := some 0 }

def fadedId : String := "00000000-0000-0000-0000-000000000001"

def fadedFailure : EvolveCall := ⟨"t", [fadedId], .failure, none⟩

theorem target_faded : Target sampleEnv fadedFailure faded := by
  have huuid : sampleEnv.uuid fadedId = some 1 := by decide
  have hfirst : bySortOrder [fadedId] fadedId = [] := by
    simp only [bySortOrder, List.filter_singleton, lt_irrefl, decide_false, cond_false]
  exact ⟨rfl, rfl, fadedId, mem_deduped.mpr ⟨List.mem_cons_self, by simp [fadedFailure, hfirst,
    evolveMaxRelatedIds]⟩, huuid⟩

theorem weightsIn_faded : WeightsIn [faded] := by
  intro m hm
  obtain rfl := List.mem_singleton.mp hm
  exact ⟨0, rfl, le_rfl, zero_le_one⟩

theorem adjusts_along_faded :
    Interleave.Along (fun rows call => (adjustWeights sampleEnv rows call).1)
      (fun rows call => Adjusts sampleEnv bySortOrder (evolveWeightFloor ≤ ·) rows call
        (adjustWeights sampleEnv rows call).1)
      [faded] [fadedFailure, fadedFailure] :=
  adjusts_along weightsIn_faded [fadedFailure, fadedFailure]

theorem adjustWeights_faded :
    (adjustWeights sampleEnv [faded] fadedFailure).1.map Memory.weight =
      [some evolveWeightFloor] := by
  have hcall : ¬ (fadedFailure.tenantId = "" ∨ parsed sampleEnv fadedFailure.relatedIds = []) := by
    obtain ⟨-, -, s, hs, hsu⟩ := target_faded
    have hmem : (s, faded.id) ∈ parsed sampleEnv fadedFailure.relatedIds :=
      mem_parsed.mpr ⟨hs, hsu⟩
    exact not_or.mpr ⟨by decide, List.ne_nil_of_mem hmem⟩
  have hclamped : clamped evolveWeightFloor evolveWeightCap (-15 / 100) (some 0) =
      evolveWeightFloor := by
    norm_num [clamped, evolveWeightFloor, evolveWeightCap]
  rw [adjustWeights_rows weightsIn_faded, if_neg hcall, List.map_singleton, List.map_singleton,
    callRow_weight target_faded rfl]
  exact congrArg (fun w => [some w]) hclamped

def fillers : List String := (List.range 50).map fun n => String.ofList (List.replicate (n + 1) '!')

def lateId : String := "f0000000-0000-0000-0000-000000000001"

def late : Memory ℕ :=
  { Memories.sampleMemory.row 0xf0000000000000000000000000000001 0 with weight := some (1 / 2) }

def lateSuccess : EvolveCall := ⟨"t", lateId :: fillers, .success, none⟩

theorem fillers_lt {s : String} (h : s ∈ fillers) : s < lateId := by
  obtain ⟨n, -, rfl⟩ := List.mem_map.mp h
  rw [String.lt_iff_toList_lt, String.toList_ofList, List.replicate_succ]
  exact List.Lex.rel (by decide)

theorem uuid_fillers {s : String} (h : s ∈ fillers) : sampleEnv.uuid s = none := by
  obtain ⟨n, hn, rfl⟩ := List.mem_map.mp h
  have hall : ∀ n < 50, Uuid.ofText .ascii (List.replicate (n + 1) '!') = none := by decide
  rw [EvolveEnv.uuid, String.toList_ofList]
  exact congrArg _ (hall n (List.mem_range.mp hn))

theorem nodup_fillers : fillers.Nodup := by
  refine List.nodup_range.map fun n n' h => ?_
  simpa using congrArg String.length h

theorem spelledOnce_late : SpelledOnce sampleEnv lateSuccess.relatedIds := by
  have hlate : sampleEnv.idOf lateId = .inl late.id := rfl
  have hfiller : ∀ s ∈ fillers, sampleEnv.idOf s = .inr s := by
    intro s hs
    rw [EvolveEnv.idOf, uuid_fillers hs]
    rfl
  intro s hs s' hs' heq
  rcases List.mem_cons.mp hs with rfl | hs <;> rcases List.mem_cons.mp hs' with rfl | hs'
  · rfl
  · rw [hlate, hfiller s' hs'] at heq
    exact absurd heq (by simp)
  · rw [hlate, hfiller s hs] at heq
    exact absurd heq (by simp)
  · rw [hfiller s hs, hfiller s' hs'] at heq
    exact Sum.inr.inj heq

theorem parsed_late : parsed sampleEnv lateSuccess.relatedIds = [] := by
  -- The id that is listed first sorts last, and is not taken.
  refine List.eq_nil_iff_forall_not_mem.mpr fun pair hpair => ?_
  obtain ⟨hs, hu⟩ := mem_parsed.mp hpair
  obtain ⟨hlisted, hcount⟩ := mem_deduped.mp hs
  rcases List.mem_cons.mp hlisted with heq | hfiller
  · have hall : bySortOrder lateSuccess.relatedIds lateId = fillers := by
      simp only [bySortOrder, lateSuccess, List.filter_cons, lt_irrefl, decide_false]
      exact List.filter_eq_self.mpr fun s hs => decide_eq_true (fillers_lt hs)
    rw [heq, hall, List.toFinset_card_of_nodup nodup_fillers] at hcount
    simp [fillers, evolveMaxRelatedIds] at hcount
  · rw [uuid_fillers hfiller] at hu
    exact nomatch hu

/-- A failure raises a weight of 0, and of fifty-one ids the one that is listed first may be
passed over. -/
theorem not_adjusts_faded :
    (WeightsIn [faded] ∧ ¬ Interleave.Along (fun rows call => (adjustWeights sampleEnv rows call).1)
      (fun rows call => Adjusts sampleEnv bySortOrder (fun _ => True) rows call
        (adjustWeights sampleEnv rows call).1) [faded] [fadedFailure]) ∧
    (WeightsIn [late] ∧ ¬ Interleave.Along (fun rows call => (adjustWeights sampleEnv rows call).1)
      (fun rows call => Adjusts sampleEnv byListOrder (evolveWeightFloor ≤ ·) rows call
        (adjustWeights sampleEnv rows call).1) [late] [lateSuccess]) := by
  refine ⟨⟨weightsIn_faded, fun halong => ?_⟩, ⟨fun m hm => ?_, fun halong => ?_⟩⟩
  · obtain ⟨hadjusts, -⟩ := halong
    obtain ⟨m', rows'', hrow, hnone, hrows'⟩ := List.forall₂_cons_left_iff.mp hadjusts
    have hw' : m'.weight = some evolveWeightFloor := by
      have hweights := adjustWeights_faded
      rw [hrows', List.forall₂_nil_left_iff.mp hnone] at hweights
      exact List.head_eq_of_cons_eq hweights
    have hdelta : fadedFailure.outcomeType.delta < 0 := by
      norm_num [fadedFailure, OutcomeType.delta]
    have hlowered : evolveWeightFloor ≤ 0 :=
      hrow.lowered hdelta 0 evolveWeightFloor rfl hw' trivial
    norm_num [evolveWeightFloor] at hlowered
  · obtain rfl := List.mem_singleton.mp hm
    exact ⟨1 / 2, rfl, by norm_num, by norm_num⟩
  · obtain ⟨hadjusts, -⟩ := halong
    have hrows : (adjustWeights sampleEnv [late] lateSuccess).1 = [late] := by
      rw [adjustWeights, if_pos parsed_late]
    rw [hrows] at hadjusts
    obtain ⟨m', rows'', hrow, -, hrows'⟩ := List.forall₂_cons_left_iff.mp hadjusts
    obtain rfl : late = m' := List.head_eq_of_cons_eq hrows'
    have hnamed : Named sampleEnv byListOrder lateSuccess late := by
      refine ⟨by decide, rfl, rfl, lateId, List.mem_cons_self, rfl, ?_⟩
      simp [byListOrder, lateSuccess, evolveMaxRelatedIds]
    have honce := hrow.once spelledOnce_late hnamed (1 / 2) rfl
    norm_num [late, lateSuccess, OutcomeType.delta, evolveWeightFloor, evolveWeightCap] at honce

end Memclaw.Evolve

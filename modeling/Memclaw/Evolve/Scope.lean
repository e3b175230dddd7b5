import Memclaw.Evolve.Weights
import Memclaw.Lib.Firsts

/-! The ids that `_filter_by_scope` keeps and that `_adjust_weights` reports. Both go by the texts of
the ids, so they count memories exactly where no memory in scope is listed in two spellings. -/

namespace Memclaw.Evolve

open Memclaw.Lib
open Memclaw.Memories (Memory Table)

variable {V : Type} {env : EvolveEnv} {rows : Table V} {c : ScopeCall} {relatedIds : List String}

theorem map_fst_filterMap {α β κ : Type} (key : α → κ) (g : α → Option β) (l : List α) :
    (l.filterMap fun a => (g a).map fun b => (key a, b)).map Prod.fst =
      (l.filter fun a => (g a).isSome).map key := by
  induction l with
  | nil => rfl
  | cons a l ih =>
    cases hg : g a with
    | none => simpa [hg] using ih
    | some b => simpa [hg] using ih

def parses (env : EvolveEnv) (s : String) : Bool := (env.uuid s).isSome

def uuidOf (env : EvolveEnv) (s : String) : ℕ := (env.uuid s).getD 0

theorem validUuids_eq : validUuids env relatedIds =
    (firstsBy id (relatedIds.filter (parses env))).map fun s => (s, uuidOf env s) := by
  have hkeys : (relatedIds.filterMap fun s => (env.uuid s).map fun u => (s, u)).map Prod.fst =
      relatedIds.filter (parses env) :=
    (map_fst_filterMap id env.uuid relatedIds).trans (List.map_id _)
  have hvalue : ∀ pair ∈ relatedIds.filterMap fun s => (env.uuid s).map fun u => (s, u),
      ∀ _ : Option ℕ, pair.2 = uuidOf env pair.1 := by
    intro pair hpair _
    obtain ⟨s, -, hs⟩ := List.mem_filterMap.mp hpair
    obtain ⟨u, hu, rfl⟩ := Option.map_eq_some_iff.mp hs
    rw [uuidOf, hu]
    rfl
  have hnone : ∀ group ∈ ([] : List (String × ℕ)), group.2 = uuidOf env group.1 := by simp
  rw [validUuids, Groups.collect_firstsBy (uuidOf env) hvalue hnone, hkeys, List.nil_append]
  simp

theorem map_snd_validUuids : (validUuids env relatedIds).map Prod.snd =
    (firstsBy id (relatedIds.filter (parses env))).map (uuidOf env) := by
  rw [validUuids_eq, List.map_map]
  apply List.map_congr_left
  intro s _
  rw [Function.comp]

def inScope (env : EvolveEnv) (rows : Table V) (c : ScopeCall) (s : String) : Bool :=
  match env.uuid s with
  | some u => rows.any fun m => m.id = u && c.admits m
  | none => false

theorem inScope_iff {s : String} : inScope env rows c s = true ↔
    ∃ m ∈ rows, c.admits m = true ∧ env.uuid s = some m.id := by
  unfold inScope
  cases hu : env.uuid s with
  | none => simp
  | some u =>
    rw [List.any_eq_true]
    constructor
    · rintro ⟨m, hm, h⟩
      obtain ⟨hid, hadmits⟩ := (Bool.and_eq_true_iff).mp h
      exact ⟨m, hm, hadmits, congrArg some (of_decide_eq_true hid).symm⟩
    · rintro ⟨m, hm, hadmits, hid⟩
      have hid : m.id = u := (Option.some.inj hid).symm
      exact ⟨m, hm, Bool.and_eq_true_iff.mpr ⟨decide_eq_true hid, hadmits⟩⟩

def namesOf (env : EvolveEnv) (rows : Table V) (c : ScopeCall) (relatedIds : List String) :
    List String :=
  firstsBy id (relatedIds.filter (inScope env rows c))

theorem parses_of_inScope {s : String} (h : inScope env rows c s = true) : parses env s = true := by
  obtain ⟨m, -, -, hu⟩ := inScope_iff.mp h
  rw [parses, hu]
  rfl

theorem mem_allowed {ids allowed : List ℕ} (h : evolveFilterByScope rows c ids = some allowed)
    {u : ℕ} : u ∈ allowed ↔ u ∈ ids ∧ ∃ m ∈ rows, c.admits m = true ∧ m.id = u := by
  rw [evolveFilterByScope] at h
  split_ifs at h
  · obtain rfl := Option.some.inj h
    simp only [List.mem_map, List.mem_filter, Bool.and_eq_true, decide_eq_true_iff]
    constructor
    · rintro ⟨m, ⟨hm, hid, hadmits⟩, rfl⟩
      exact ⟨hid, m, hm, hadmits, rfl⟩
    · rintro ⟨hid, m, hm, hadmits, rfl⟩
      exact ⟨m, ⟨hm, hid, hadmits⟩, rfl⟩

theorem decide_mem_allowed {allowed : List ℕ}
    (hallowed : evolveFilterByScope rows c ((validUuids env relatedIds).map Prod.snd) =
      some allowed) {s : String} (hs : s ∈ relatedIds) (hparses : parses env s = true) :
    decide (uuidOf env s ∈ allowed) = inScope env rows c s := by
  obtain ⟨u, hu⟩ := Option.isSome_iff_exists.mp hparses
  have hvalue : uuidOf env s = u := by rw [uuidOf, hu, Option.getD_some]
  have hlisted : u ∈ (validUuids env relatedIds).map Prod.snd := by
    have hfirst : s ∈ firstsBy id (relatedIds.filter (parses env)) :=
      mem_firstsBy_id.mpr (List.mem_filter.mpr ⟨hs, hparses⟩)
    rw [map_snd_validUuids]
    exact List.mem_map.mpr ⟨s, hfirst, hvalue⟩
  rw [Bool.eq_iff_iff, decide_eq_true_iff, mem_allowed hallowed, inScope_iff, hvalue, hu]
  constructor
  · rintro ⟨-, m, hm, hadmits, hid⟩
    exact ⟨m, hm, hadmits, congrArg some hid.symm⟩
  · rintro ⟨m, hm, hadmits, hid⟩
    exact ⟨hlisted, m, hm, hadmits, (Option.some.inj hid).symm⟩

theorem names_filter {allowed : List ℕ}
    (hallowed : evolveFilterByScope rows c ((validUuids env relatedIds).map Prod.snd) =
      some allowed) :
    ((validUuids env relatedIds).filter fun pair => decide (pair.2 ∈ allowed)).map Prod.fst =
      namesOf env rows c relatedIds := by
  have hfilter : ∀ s ∈ relatedIds, (decide (uuidOf env s ∈ allowed) && parses env s) =
      inScope env rows c s := by
    intro s hs
    cases hparses : parses env s with
    | true => rw [decide_mem_allowed hallowed hs hparses, Bool.and_true]
    | false =>
      rw [Bool.and_false]
      refine (Bool.eq_false_iff.mpr fun hscope => ?_).symm
      rw [parses_of_inScope hscope] at hparses
      exact Bool.noConfusion hparses
  have hfst : ∀ texts : List String, (texts.map fun s => (s, uuidOf env s)).map Prod.fst =
      texts := by
    intro texts
    rw [List.map_map]
    exact List.map_id texts
  rw [validUuids_eq, List.filter_map, hfst]
  have hcomp : ((fun pair : String × ℕ => decide (pair.2 ∈ allowed)) ∘ fun s =>
      (s, uuidOf env s)) = fun s => decide (uuidOf env s ∈ allowed) := by
    funext s
    rw [Function.comp]
  rw [hcomp, firstsBy_filter, List.filter_filter, namesOf, List.filter_congr hfilter]

/-- The code keeps the first occurrence of every text in scope, and counts the others. -/
theorem filterByScope_eq (haccepted : c.Accepted) :
    filterByScope env rows c relatedIds =
      some (namesOf env rows c relatedIds,
        relatedIds.length - (namesOf env rows c relatedIds).length) := by
  obtain ⟨htenant, hcaller, hfleet⟩ := haccepted
  have hguard : ¬ (c.scope = .fleet ∧ Contradiction.truthyText c.fleetId = false) := by
    rintro ⟨hscope, hfalse⟩
    exact Bool.noConfusion (hfalse.symm.trans (hfleet hscope))
  have hgiven : ¬ (c.scope = .fleet ∧ c.fleetId = none) := by
    rintro ⟨hscope, hnone⟩
    have htruthy := hfleet hscope
    rw [hnone] at htruthy
    exact Bool.noConfusion htruthy
  obtain ⟨allowed, hallowed⟩ : ∃ allowed, evolveFilterByScope rows c
      ((validUuids env relatedIds).map Prod.snd) = some allowed := by
    rw [evolveFilterByScope, if_neg (not_or.mpr ⟨htenant, hcaller⟩), if_neg hguard]
    exact ⟨_, rfl⟩
  have hnames : ((validUuids env relatedIds).filter fun pair =>
      decide (pair.2 ∈ allowed)).map Prod.fst = namesOf env rows c relatedIds :=
    names_filter hallowed
  have hkept : (namesOf env rows c relatedIds).length ≤ (validUuids env relatedIds).length := by
    rw [← hnames, List.length_map]
    exact List.length_filter_le _ _
  have hvalid : (validUuids env relatedIds).length ≤ relatedIds.length := by
    rw [validUuids_eq, List.length_map]
    exact ((firstsBy_sublist id _).trans List.filter_sublist).length_le
  rw [filterByScope]
  by_cases hempty : relatedIds = []
  · subst hempty
    rfl
  · rw [if_neg hempty, if_neg hgiven]
    dsimp only
    by_cases hnone : validUuids env relatedIds = []
    · rw [hnone] at hkept
      have hnil : namesOf env rows c relatedIds = [] :=
        List.eq_nil_of_length_eq_zero (Nat.le_zero.mp hkept)
      rw [if_pos hnone, hnil]
      rfl
    · rw [if_neg hnone, hallowed, Option.map_some, hnames]
      have hcount : relatedIds.length - (validUuids env relatedIds).length +
          ((validUuids env relatedIds).length - (namesOf env rows c relatedIds).length) =
            relatedIds.length - (namesOf env rows c relatedIds).length := by
        omega
      rw [hcount]

variable {call : EvolveCall}

def Adjusted (env : EvolveEnv) (rows : Table V) (call : EvolveCall) (m : Memory V) : Prop :=
  Target env call m ∧
    (evolveApplyWeights rows call.tenantId ((parsed env call.relatedIds).map Prod.snd)
      call.outcomeType.delta evolveWeightFloor evolveWeightCap call.backfill).isSome = true

structure ReportsOnce (env : EvolveEnv) (rows : Table V) (call : EvolveCall) : Prop where
  once : ∀ m ∈ rows, Adjusted env rows call m →
    ((adjustWeights env rows call).2.processedIds.map env.uuid).count (some m.id) = 1
  only : ∀ s ∈ (adjustWeights env rows call).2.processedIds,
    ∃ m ∈ rows, Adjusted env rows call m ∧ env.uuid s = some m.id
  adjustments : (adjustWeights env rows call).2.adjustments.map Adjustment.memoryId =
    (adjustWeights env rows call).2.processedIds

theorem processedIds_eq {delta : ℚ} {ids : List (String × ℕ)} {adjusted : List WeightRow} :
    (reportOf env delta ids adjusted).processedIds =
      (ids.filter fun pair => (Keyed.get WeightRow.id adjusted pair.2).isSome).map Prod.fst :=
  map_fst_filterMap Prod.fst (fun pair => Keyed.get WeightRow.id adjusted pair.2) ids

theorem get_isSome_iff {adjusted : List WeightRow} {u : ℕ} :
    (Keyed.get WeightRow.id adjusted u).isSome = true ↔ u ∈ adjusted.map WeightRow.id := by
  rw [Keyed.get, List.find?_isSome, List.mem_map]
  simp only [decide_eq_true_iff]

theorem mem_processedIds {delta : ℚ} {adjusted : List WeightRow} {s : String} :
    s ∈ (reportOf env delta (parsed env relatedIds) adjusted).processedIds ↔
      s ∈ deduped relatedIds ∧ ∃ u ∈ adjusted.map WeightRow.id, env.uuid s = some u := by
  rw [processedIds_eq, List.mem_map]
  constructor
  · rintro ⟨⟨s, u⟩, hpair, rfl⟩
    obtain ⟨hparsed, hrow⟩ := List.mem_filter.mp hpair
    obtain ⟨hs, hu⟩ := mem_parsed.mp hparsed
    exact ⟨hs, u, get_isSome_iff.mp hrow, hu⟩
  · rintro ⟨hs, u, hrow, hu⟩
    exact ⟨(s, u), List.mem_filter.mpr ⟨mem_parsed.mpr ⟨hs, hu⟩, get_isSome_iff.mpr hrow⟩, rfl⟩

theorem processedIds_sublist {delta : ℚ} {adjusted : List WeightRow} :
    (reportOf env delta (parsed env relatedIds) adjusted).processedIds.Sublist
      (deduped relatedIds) := by
  have hparsed : (parsed env relatedIds).map Prod.fst =
      (deduped relatedIds).filter (parses env) :=
    (map_fst_filterMap id env.uuid (deduped relatedIds)).trans (List.map_id _)
  rw [processedIds_eq]
  refine (List.filter_sublist.map Prod.fst).trans ?_
  rw [hparsed]
  exact List.filter_sublist

theorem nodup_deduped (h : (relatedIds.map env.uuid).Nodup) :
    ((deduped relatedIds).map env.uuid).Nodup := by
  have hdedup : (relatedIds.dedup.map env.uuid).Nodup :=
    h.sublist ((List.dedup_sublist relatedIds).map env.uuid)
  have hsorted := (List.mergeSort_perm relatedIds.dedup fun a b => !(b < a)).map env.uuid
  exact (hsorted.nodup_iff.mpr hdedup).sublist ((List.take_sublist _ _).map env.uuid)

theorem parsed_ne_nil {m : Memory V} (h : Target env call m) : parsed env call.relatedIds ≠ [] := by
  obtain ⟨-, -, s, hs, hu⟩ := h
  have hmem : (s, m.id) ∈ parsed env call.relatedIds := mem_parsed.mpr ⟨hs, hu⟩
  exact List.ne_nil_of_mem hmem

theorem adjustWeights_report (env : EvolveEnv) (rows : Table V) (call : EvolveCall) :
    ((adjustWeights env rows call).2 = noRowsUpdated ∧ ∀ m : Memory V, ¬ Adjusted env rows call m) ∨
      ∃ adjusted, (adjustWeights env rows call).2 =
          reportOf env call.outcomeType.delta (parsed env call.relatedIds) adjusted ∧
        ∀ u, u ∈ adjusted.map WeightRow.id ↔ ∃ m ∈ rows, Adjusted env rows call m ∧ m.id = u := by
  -- A call adjusts nothing and reports nothing, or it reports on the rows of the memories that it
  -- adjusts.
  by_cases hids : parsed env call.relatedIds = []
  · refine .inl ⟨?_, fun m hadjusted => absurd hids (parsed_ne_nil hadjusted.1)⟩
    rw [adjustWeights, if_pos hids]
  · cases happly : evolveApplyWeights rows call.tenantId
      ((parsed env call.relatedIds).map Prod.snd) call.outcomeType.delta evolveWeightFloor
      evolveWeightCap call.backfill with
    | none =>
      refine .inl ⟨?_, fun m hadjusted => ?_⟩
      · rw [adjustWeights, if_neg hids, happly]
      · have hfailed := hadjusted.2
        rw [happly] at hfailed
        exact Bool.noConfusion hfailed
    | some result =>
      obtain ⟨rows', adjusted⟩ := result
      obtain ⟨-, -, hrows⟩ := evolveApplyWeights_of_some happly
      refine .inr ⟨adjusted, ?_, fun u => ?_⟩
      · rw [adjustWeights, if_neg hids, happly]
      · rw [hrows, List.mem_map]
        constructor
        · rintro ⟨m, hm, rfl⟩
          obtain ⟨hm, hmatched⟩ := List.mem_filter.mp hm
          exact ⟨m, hm, ⟨matched_iff.mp hmatched, by rw [happly]; rfl⟩, rfl⟩
        · rintro ⟨m, hm, ⟨htarget, -⟩, rfl⟩
          exact ⟨m, List.mem_filter.mpr ⟨hm, matched_iff.mpr htarget⟩, rfl⟩

theorem reportsOnce (h : (call.relatedIds.map env.uuid).Nodup) : ReportsOnce env rows call := by
  obtain ⟨hreport, hnone⟩ | ⟨adjusted, hreport, hrows⟩ := adjustWeights_report env rows call
  · refine ⟨fun m _ hadjusted => absurd hadjusted (hnone m), ?_, ?_⟩
    · rw [hreport]
      exact fun s hs => absurd hs List.not_mem_nil
    · rw [hreport]
      rfl
  · refine ⟨fun m hm hadjusted => ?_, fun s hs => ?_, ?_⟩
    · obtain ⟨-, -, s, hs, hu⟩ := hadjusted.1
      have hnamed : s ∈ (adjustWeights env rows call).2.processedIds := by
        rw [hreport]
        exact mem_processedIds.mpr ⟨hs, m.id, (hrows m.id).mpr ⟨m, hm, hadjusted, rfl⟩, hu⟩
      have hnodup : ((adjustWeights env rows call).2.processedIds.map env.uuid).Nodup := by
        rw [hreport]
        exact (nodup_deduped h).sublist (processedIds_sublist.map env.uuid)
      rw [← hu]
      exact List.count_eq_one_of_mem hnodup (List.mem_map_of_mem hnamed)
    · rw [hreport] at hs
      obtain ⟨-, u, hrow, hu⟩ := mem_processedIds.mp hs
      obtain ⟨m, hm, hadjusted, rfl⟩ := (hrows u).mp hrow
      exact ⟨m, hm, hadjusted, hu⟩
    · rw [hreport, reportOf, List.map_map]
      rfl

/-- `_filter_by_scope` names every memory in scope that is listed once, where and as it first occurs,
and counts the rest; whatever becomes of the store, the report on that list names every adjusted
memory once. -/
def CountsMemories (env : EvolveEnv) (rows : Table V) (c : ScopeCall)
    (relatedIds : List String) : Prop :=
  ∃ names outOfScopeCount,
    filterByScope env rows c relatedIds = some (names, outOfScopeCount) ∧
      names = firstsBy env.uuid (relatedIds.filter (inScope env rows c)) ∧
      outOfScopeCount + names.length = relatedIds.length ∧
      ∀ (rows' : Table V) (call : EvolveCall), call.relatedIds = names →
        ReportsOnce env rows' call

def OneSpelling (env : EvolveEnv) (rows : Table V) (c : ScopeCall)
    (relatedIds : List String) : Prop :=
  ∀ s ∈ relatedIds, ∀ s' ∈ relatedIds, inScope env rows c s = true →
    env.uuid s = env.uuid s' → s = s'

theorem oneSpelling_iff : OneSpelling env rows c relatedIds ↔
    namesOf env rows c relatedIds = firstsBy env.uuid (relatedIds.filter (inScope env rows c)) := by
  rw [namesOf, firstsBy_id_eq_iff]
  constructor
  · intro h s hs s' hs'
    obtain ⟨hs, hscope⟩ := List.mem_filter.mp hs
    exact h s hs s' (List.mem_filter.mp hs').1 hscope
  · intro h s hs s' hs' hscope hsame
    have hscope' : inScope env rows c s' = true := by
      rw [inScope_iff] at hscope ⊢
      rw [← hsame]
      exact hscope
    exact h s (List.mem_filter.mpr ⟨hs, hscope⟩) s' (List.mem_filter.mpr ⟨hs', hscope'⟩) hsame

theorem CountsMemories.oneSpelling (haccepted : c.Accepted)
    (h : CountsMemories env rows c relatedIds) : OneSpelling env rows c relatedIds := by
  obtain ⟨names, outOfScopeCount, hfilter, hnames, -, -⟩ := h
  rw [filterByScope_eq haccepted] at hfilter
  have hkept : namesOf env rows c relatedIds = names :=
    congrArg Prod.fst (Option.some.inj hfilter)
  exact oneSpelling_iff.mpr (hkept.trans hnames)

theorem OneSpelling.countsMemories (haccepted : c.Accepted)
    (h : OneSpelling env rows c relatedIds) : CountsMemories env rows c relatedIds := by
  have hnames := oneSpelling_iff.mp h
  have hlength : (namesOf env rows c relatedIds).length ≤ relatedIds.length :=
    ((firstsBy_sublist id _).trans List.filter_sublist).length_le
  refine ⟨_, _, filterByScope_eq haccepted, hnames, Nat.sub_add_cancel hlength, ?_⟩
  intro rows' call hcall
  have hnodup : (call.relatedIds.map env.uuid).Nodup := by
    rw [hcall, hnames]
    exact nodup_firstsBy env.uuid _
  exact reportsOnce hnodup

/-- The accounting is of memories exactly where none in scope is listed in two spellings. -/
theorem countsMemories_iff (haccepted : c.Accepted) :
    CountsMemories env rows c relatedIds ↔ OneSpelling env rows c relatedIds :=
  ⟨CountsMemories.oneSpelling haccepted, OneSpelling.countsMemories haccepted⟩

def sampleRow : Memory ℕ := Memories.sampleMemory.row 10 0

def sampleScope : ScopeCall := ⟨"t", "a", none, .agent⟩

theorem accepted_sampleScope : sampleScope.Accepted := ⟨by decide, by decide, by decide⟩

def lowerId : String := "00000000-0000-0000-0000-00000000000a"

def upperId : String := "00000000-0000-0000-0000-00000000000A"

theorem countsMemories_lower :
    CountsMemories sampleEnv [sampleRow] sampleScope [lowerId, lowerId] := by
  refine (countsMemories_iff accepted_sampleScope).mpr fun s hs s' hs' _ _ => ?_
  have honly : ∀ t ∈ [lowerId, lowerId], t = lowerId := by simp
  exact (honly s hs).trans (honly s' hs').symm

/-- The two cases of a hexadecimal digit name one memory twice. -/
theorem not_countsMemories_two_cases :
    ¬ CountsMemories sampleEnv [sampleRow] sampleScope [lowerId, upperId] := by
  intro h
  have hscope : inScope sampleEnv [sampleRow] sampleScope lowerId = true := by decide
  have hsame : sampleEnv.uuid lowerId = sampleEnv.uuid upperId := by decide
  have heq : lowerId = upperId :=
    h.oneSpelling accepted_sampleScope lowerId (by simp) upperId (by simp) hscope hsame
  exact absurd heq (by decide)

end Memclaw.Evolve

import Memclaw.Search.Visibility

/-! The headroom of the scored search: when the rows that pass the similarity gate are those of
the widened window. -/

namespace Memclaw.Search

open Memclaw.Lib
open Memclaw.Memories (Memory Table)

/-- A filter over a window keeps what it keeps of the doubled window, as far as the window goes,
just when nothing drops out of the window or nothing stands behind it. -/
theorem filter_take_eq_iff {α : Type} (p : α → Bool) (l : List α) (k : ℕ) :
    (l.take k).filter p = ((l.take (k * 2)).filter p).take k ↔
      (∀ a ∈ l.take k, p a = true) ∨ ∀ a ∈ (l.take (k * 2)).drop k, p a = false := by
  have hwindow : l.take (k * 2) = l.take k ++ (l.take (k * 2)).drop k := by
    have htake : (l.take (k * 2)).take k = l.take k := by
      rw [List.take_take, Nat.min_eq_left (by omega)]
    rw [← htake, List.take_append_drop]
  have hlength : ((l.take k).filter p).length ≤ k :=
    (List.length_filter_le _ _).trans (List.length_take_le _ _)
  have hsplit : ((l.take (k * 2)).filter p).take k = (l.take k).filter p ++
      (((l.take (k * 2)).drop k).filter p).take (k - ((l.take k).filter p).length) := by
    conv_lhs => rw [hwindow]
    rw [List.filter_append, List.take_append, List.take_of_length_le hlength]
  rw [hsplit, List.self_eq_append_right, List.take_eq_nil_iff, List.filter_eq_nil_iff]
  simp only [Bool.not_eq_true]
  refine ⟨Or.imp_left fun hfull => ?_, fun h => ?_⟩
  · -- as many rows pass as the window has places
    have hall : (l.take k).filter p = l.take k := by
      refine (List.filter_sublist).eq_of_length_le ?_
      rw [List.length_take]
      omega
    exact List.filter_eq_self.mp hall
  · rcases h with hall | hnone
    · rw [List.filter_eq_self.mpr hall, List.length_take]
      by_cases hlong : k ≤ l.length
      · exact .inl (by omega)
      · refine .inr fun a ha => ?_
        rw [List.drop_take, List.drop_eq_nil_of_le (by omega), List.take_nil] at ha
        exact absurd ha List.not_mem_nil
    · exact .inr hnone

variable {V F S : Type} [LinearOrder S]

theorem pairwise_inOrder (column : Memory V → S) (rows : Table V) :
    (inOrder column rows).Pairwise fun a b =>
      column b < column a ∨ column a = column b ∧ b.createdAt ≤ a.createdAt := by
  have htotal : Std.Total fun a b : Memory V =>
      column b < column a ∨ column a = column b ∧ b.createdAt ≤ a.createdAt := by
    constructor
    intro a b
    rcases lt_trichotomy (column a) (column b) with hlt | heq | hgt
    · exact .inr (.inl hlt)
    · rcases le_total a.createdAt b.createdAt with hle | hle
      · exact .inr (.inr ⟨heq.symm, hle⟩)
      · exact .inl (.inr ⟨heq, hle⟩)
    · exact .inl (.inl hgt)
  have htrans : IsTrans (Memory V) fun a b =>
      column b < column a ∨ column a = column b ∧ b.createdAt ≤ a.createdAt := by
    constructor
    rintro a b c (hab | ⟨hab, htime⟩) (hbc | ⟨hbc, htime'⟩)
    · exact .inl (hbc.trans hab)
    · exact .inl (hbc ▸ hab)
    · exact .inl (hab ▸ hbc)
    · exact .inr ⟨hab.trans hbc, htime'.trans htime⟩
  exact List.pairwise_insertionSort _ rows

theorem inOrder_take (column : Memory V → S) (rows : Table V) (k : ℕ) :
    inOrder column ((inOrder column rows).take k) = (inOrder column rows).take k :=
  ((pairwise_inOrder column rows).sublist (List.take_sublist _ _)).insertionSort_eq

section Scored

variable (env : Surroundings V F S) (store : Store V) (args : SearchArgs) (params : SearchParams)

def ranking : Table V :=
  inOrder env.scoring.score (store.memories.filter (args.filters.sent.scoredWhere env.engine))

def passesGate (m : Memory V) : Bool :=
  !m.embedding.isSome || params.minSimilarity ≤ env.scoring.vecSim m

def hitOf (m : Memory V) : Hit V := ⟨m, some (env.scoring.vecSim m), store.linksOf m.id⟩

/-- The first `top_k` that pass the gate among twice as many of the best rows. -/
def promisedRows (topK : ℕ) : List (Hit V) :=
  ((((ranking env store args).take (topK * searchOverfetchFactor)).filter
    (passesGate env params)).take topK).map (hitOf env store)

variable {env store args params}

omit [LinearOrder S] in
theorem hitOf_injective : Function.Injective (hitOf env store) :=
  fun _ _ h => congrArg Hit.memory h

theorem ranking_nodup : ((ranking env store args).map (·.id)).Nodup := by
  have hperm := (List.perm_insertionSort (fun a b : Memory V => env.scoring.score b <
    env.scoring.score a ∨ env.scoring.score a = env.scoring.score b ∧ b.createdAt ≤ a.createdAt)
    (store.memories.filter (args.filters.sent.scoredWhere env.engine))).map fun m => m.id
  exact hperm.nodup_iff.mpr (store.memoriesUnique.sublist (List.filter_sublist.map _))

theorem groupById_of_nodup {rows : List (ScoredRow V)}
    (h : (rows.map fun row => row.memory.id).Nodup) : groupById rows = rows := by
  unfold groupById
  rw [Groups.collect_of_nodup (by simpa using h), List.nil_append, List.map_map]
  exact List.map_id rows

def scoredRow (env : Surroundings V F S) (store : Store V) (m : Memory V) : ScoredRow V :=
  ⟨m, env.scoring.vecSim m, m.embedding.isSome, store.linksOf m.id⟩

theorem executeScoredSearch_rows {plan : RetrievalPlan} (hdiagnostic : args.diagnostic = false)
    (hpool : params.candidatePoolSize = 0) (hscored : env.scoredFails = false) :
    executeScoredSearch env store args params plan =
      .ok (((ranking env store args).take (plan.topK.getD params.topK)).map (scoredRow env store),
        some (plan.topK.getD params.topK)) := by
  have hrows : memoryScoredSearch store env.engine env.scoring args.filters.sent
      ⟨some (plan.topK.getD params.topK), 0⟩
      (plan.topK.getD params.topK * searchOverfetchFactor) =
        ((ranking env store args).take (plan.topK.getD params.topK)).map (scoredRow env store) := by
    show (inOrder env.scoring.score ((ranking env store args).take _)).map _ = _
    rw [ranking, inOrder_take]
    rfl
  have hnodup : ((((ranking env store args).take (plan.topK.getD params.topK)).map
      (scoredRow env store)).map fun row => row.memory.id).Nodup := by
    rw [List.map_map]
    exact ranking_nodup.sublist ((List.take_sublist _ _).map _)
  unfold executeScoredSearch
  rw [hscored, hdiagnostic, hpool, if_neg Bool.false_ne_true, if_neg Bool.false_ne_true,
    if_neg Bool.false_ne_true, hrows, groupById_of_nodup hnodup]

omit [LinearOrder S] in
theorem postFilter_scored {rows : Table V} {topK : ℕ} (h : rows.length ≤ topK) :
    postFilter params (rows.map (scoredRow env store)) (some topK) =
      (rows.filter (passesGate env params)).map (hitOf env store) := by
  unfold postFilter
  dsimp only
  rw [List.filter_map, ← List.map_take, List.take_of_length_le, List.map_map]
  · rfl
  · exact (List.length_filter_le _ _).trans h

end Scored

/-- A request without a failure that goes the way of the scored search, with the pool by score. -/
structure ScoredPath [LinearOrder F] (env : Surroundings V F S) (store : Store V)
    (args : SearchArgs) (params : SearchParams) : Prop where
  scored : (classifyQuery env store args params).1.skipScoredSearch = false
  embedded : env.embedFails = false
  answered : env.scoredFails = false
  plain : args.diagnostic = false
  byScore : params.candidatePoolSize = 0

section Pipeline

variable [LinearOrder F] {env : Surroundings V F S} {store : Store V} {args : SearchArgs}
  {params : SearchParams}

def effectiveTopK (env : Surroundings V F S) (store : Store V) (args : SearchArgs)
    (params : SearchParams) : ℕ :=
  (classifyQuery env store args params).1.topK.getD params.topK

theorem ScoredPath.filteredRows (h : ScoredPath env store args params) :
    filteredRows env store args params =
      .ok ((((ranking env store args).take (effectiveTopK env store args params)).filter
        (passesGate env params)).map (hitOf env store)) := by
  unfold Search.filteredRows
  dsimp only
  rw [h.scored, h.embedded, if_neg Bool.false_ne_true, if_neg Bool.false_ne_true,
    executeScoredSearch_rows h.plain h.byScore h.answered]
  exact congrArg Except.ok (postFilter_scored (List.length_take_le _ _))

/-- The promise is kept just when the limit of the request cost nothing. -/
theorem overfetch_iff (env : Surroundings V F S) (store : Store V) (args : SearchArgs)
    (params : SearchParams) (h : ScoredPath env store args params) :
    Search.filteredRows env store args params =
        .ok (promisedRows env store args params (effectiveTopK env store args params)) ↔
      (∀ m ∈ (ranking env store args).take (effectiveTopK env store args params),
        passesGate env params m = true) ∨
      ∀ m ∈ ((ranking env store args).take
          (effectiveTopK env store args params * searchOverfetchFactor)).drop
            (effectiveTopK env store args params),
        passesGate env params m = false := by
  rw [h.filteredRows]
  refine Iff.trans ?_ (filter_take_eq_iff (passesGate env params) (ranking env store args) _)
  constructor
  · intro hsame
    exact List.map_injective_iff.mpr hitOf_injective (Except.ok.inj hsame)
  · intro hsame
    exact congrArg (fun rows => Except.ok (rows.map (hitOf env store))) hsame

end Pipeline

/-! The best row fails the gate, the second passes it. -/

def gatedRows : Table ℕ :=
  [{ Memories.sampleMemory.row 7 0 with embedding := some 0 },
    { Memories.sampleMemory.row 8 1 with embedding := some 1 }]

theorem gatedRows_unique : Keyed.Unique Memory.id gatedRows := by decide

theorem no_links_unique : Keyed.Unique Entities.MemoryEntityLink.key [] := List.nodup_nil

theorem no_links_memory (rows : Table ℕ) :
    ∀ l ∈ ([] : List Entities.MemoryEntityLink), ∃ m ∈ rows, m.id = l.memoryId :=
  fun _ h => absurd h List.not_mem_nil

def gatedStore : Store ℕ where
  memories := gatedRows
  links := []
  memoriesUnique := gatedRows_unique
  linksUnique := no_links_unique
  linksMemory := no_links_memory gatedRows

def gatedSurroundings : Surroundings ℕ ℕ ℕ :=
  { sampleSurroundings with
    scoring := ⟨fun m => m.id, fun m => m.id, fun m => if m.id = 7 then 1 else 0⟩ }

theorem gated_scoredPath :
    ScoredPath gatedSurroundings gatedStore sampleArgs ⟨1, 1, 0, 0⟩ where
  scored := by
    with_unfolding_all rfl
  embedded := rfl
  answered := rfl
  plain := rfl
  byScore := rfl

theorem overfetch_iff_gated :
    Search.filteredRows gatedSurroundings gatedStore sampleArgs ⟨1, 1, 0, 0⟩ =
        .ok (promisedRows gatedSurroundings gatedStore sampleArgs ⟨1, 1, 0, 0⟩
          (effectiveTopK gatedSurroundings gatedStore sampleArgs ⟨1, 1, 0, 0⟩)) ↔
      (∀ m ∈ (ranking gatedSurroundings gatedStore sampleArgs).take
          (effectiveTopK gatedSurroundings gatedStore sampleArgs ⟨1, 1, 0, 0⟩),
        passesGate gatedSurroundings ⟨1, 1, 0, 0⟩ m = true) ∨
      ∀ m ∈ ((ranking gatedSurroundings gatedStore sampleArgs).take
          (effectiveTopK gatedSurroundings gatedStore sampleArgs ⟨1, 1, 0, 0⟩ *
            searchOverfetchFactor)).drop
              (effectiveTopK gatedSurroundings gatedStore sampleArgs ⟨1, 1, 0, 0⟩),
        passesGate gatedSurroundings ⟨1, 1, 0, 0⟩ m = false :=
  overfetch_iff gatedSurroundings gatedStore sampleArgs ⟨1, 1, 0, 0⟩ gated_scoredPath

/-- One row is asked for, and the only one that passes is not found. -/
theorem gated_row_starves :
    ¬ ∀ (env : Surroundings ℕ ℕ ℕ) (store : Store ℕ) (args : SearchArgs) (params : SearchParams),
      ScoredPath env store args params → Search.filteredRows env store args params =
        .ok (promisedRows env store args params (effectiveTopK env store args params)) := by
  intro h
  have hkept := h gatedSurroundings gatedStore sampleArgs ⟨1, 1, 0, 0⟩ gated_scoredPath
  rw [gated_scoredPath.filteredRows] at hkept
  have hlength := congrArg List.length (Except.ok.inj hkept)
  rw [List.length_map] at hlength
  have hcode : (((ranking gatedSurroundings gatedStore sampleArgs).take
      (effectiveTopK gatedSurroundings gatedStore sampleArgs ⟨1, 1, 0, 0⟩)).filter
        (passesGate gatedSurroundings ⟨1, 1, 0, 0⟩)).length = 0 := by
    with_unfolding_all rfl
  have hpromise : (promisedRows gatedSurroundings gatedStore sampleArgs ⟨1, 1, 0, 0⟩
      (effectiveTopK gatedSurroundings gatedStore sampleArgs ⟨1, 1, 0, 0⟩)).length = 1 := by
    with_unfolding_all rfl
  omega

end Memclaw.Search

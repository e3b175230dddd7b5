import Mathlib.Tactic.NormNum
import Memclaw.Entities.Clusters
import Memclaw.Entities.InferDefs
import Memclaw.Lib.Interleave
import Memclaw.Memories.Statements

/-! Relations under `entity_infer_relations`: a run strengthens what it reinforces exactly where
no weight that it reinforces is above the cap. -/

namespace Memclaw.Entities

open Memclaw.Lib
open Memclaw.Lib.Interleave (Along)
open Memclaw.Memories (Memory)

variable {V W : Type} [LinearOrder W] {q : InferRequest W} {t : Tables V W}

structure Tables.Identified (t : Tables V W) : Prop extends t.WellKeyed where
  memoryIds : Keyed.Unique Memory.id t.memories
  relationIds : Keyed.Unique Relation.id t.relations

def sharedMemories (q : InferRequest W) (t : Tables V W) (a b : ℕ) : List (Memory V) :=
  t.memories.filter fun mem => q.reads mem && t.links.any (fun l => l.key = (mem.id, a)) &&
    t.links.any fun l => l.key = (mem.id, b)

omit [LinearOrder W] in
theorem sharedMemories_comm (a b : ℕ) : sharedMemories q t a b = sharedMemories q t b a := by
  unfold sharedMemories
  refine List.filter_congr fun mem _ => ?_
  rw [Bool.and_right_comm]

omit [LinearOrder W] in
theorem mem_joinedRows {row : JoinedRow V} (h : row ∈ joinedRows q t) :
    (row.1 ∈ t.links ∧ row.2.1 ∈ t.links ∧ row.2.2 ∈ t.memories) ∧
      row.1.memoryId = row.2.2.id ∧ row.2.1.memoryId = row.2.2.id ∧
      row.1.entityId < row.2.1.entityId ∧ q.reads row.2.2 = true := by
  obtain ⟨a, b, mem⟩ := row
  obtain ⟨hmem, hon⟩ := List.mem_filter.mp h
  simp only [Bool.and_eq_true, decide_eq_true_eq] at hon
  obtain ⟨ha, hrest⟩ := List.mem_product.mp hmem
  obtain ⟨hb, hmemory⟩ := List.mem_product.mp hrest
  obtain ⟨⟨⟨⟨⟨hsame, hlt⟩, hid⟩, hreads⟩, -⟩, -⟩ := hon
  exact ⟨⟨ha, hb, hmemory⟩, hid.symm, hsame.symm.trans hid.symm, hlt, hreads⟩

omit [LinearOrder W] in
theorem count_joined_le (ht : t.Identified) (a b : ℕ) :
    ((joinedRows q t).map JoinedRow.pair).count (a, b) ≤ (sharedMemories q t a b).length := by
  -- A pair is counted at most once for each memory that it shares.
  have hrows : (joinedRows q t).Nodup := by
    refine List.Nodup.filter _ ?_
    exact ht.links.of_map.product (ht.links.of_map.product ht.memoryIds.of_map)
  have hids : (((joinedRows q t).filter fun row => row.pair == (a, b)).map
      fun row => row.2.2.id).Nodup := by
    refine (List.Nodup.filter _ hrows).map_on ?_
    rintro ⟨l, l', mem⟩ hrow ⟨k, k', mem'⟩ hrow' hid
    obtain ⟨hrow, hpair⟩ := List.mem_filter.mp hrow
    obtain ⟨hrow', hpair'⟩ := List.mem_filter.mp hrow'
    obtain ⟨⟨hl, hl', hmem⟩, hlmem, hlmem', -⟩ := mem_joinedRows hrow
    obtain ⟨⟨hk, hk', hmem'⟩, hkmem, hkmem', -⟩ := mem_joinedRows hrow'
    have hsame : mem = mem' := List.inj_on_of_nodup_map ht.memoryIds hmem hmem' hid
    have hends := (beq_iff_eq.mp hpair).trans (beq_iff_eq.mp hpair').symm
    obtain ⟨hfrom, hto⟩ := Prod.mk.inj hends
    subst hsame
    have hlk : l = k := List.inj_on_of_nodup_map ht.links hl hk
      (Prod.ext (hlmem.trans hkmem.symm) hfrom)
    have hlk' : l' = k' := List.inj_on_of_nodup_map ht.links hl' hk'
      (Prod.ext (hlmem'.trans hkmem'.symm) hto)
    rw [hlk, hlk']
  have hsub : (((joinedRows q t).filter fun row => row.pair == (a, b)).map
      fun row => row.2.2.id) ⊆ (sharedMemories q t a b).map Memory.id := by
    intro id hid
    obtain ⟨row, hrow, rfl⟩ := List.mem_map.mp hid
    obtain ⟨hrow, hpair⟩ := List.mem_filter.mp hrow
    obtain ⟨⟨hl, hl', hmem⟩, hlmem, hlmem', -, hreads⟩ := mem_joinedRows hrow
    obtain ⟨hfrom, hto⟩ := Prod.mk.inj (beq_iff_eq.mp hpair)
    refine List.mem_map_of_mem (List.mem_filter.mpr ⟨hmem, ?_⟩)
    simp only [Bool.and_eq_true, List.any_eq_true, decide_eq_true_eq]
    exact ⟨⟨hreads, row.1, hl, Prod.ext hlmem hfrom⟩, row.2.1, hl', Prod.ext hlmem' hto⟩
  have hle := (List.subperm_of_subset hids hsub).length_le
  rw [List.length_map, List.length_map] at hle
  rw [List.count, List.countP_map, List.countP_eq_length_filter]
  exact hle

omit [LinearOrder W] in
theorem mem_cooccurrences {order : QueryOrder Cooccurrence} {row : Cooccurrence}
    (h : row ∈ cooccurrences q t order) :
    row.fromId < row.toId ∧ q.minCooccurrence ≤ row.cooccur ∧
      row.cooccur = ((joinedRows q t).map JoinedRow.pair).count (row.fromId, row.toId) := by
  have hsorted := List.mem_mergeSort.mp (List.mem_of_mem_take h)
  obtain ⟨hgrouped, hmin⟩ := List.mem_filter.mp hsorted
  obtain ⟨pair, hpair, rfl⟩ := List.mem_map.mp ((order.perm _).mem_iff.mp hgrouped)
  obtain ⟨joined, hjoined, rfl⟩ := List.mem_map.mp (List.mem_dedup.mp hpair)
  exact ⟨(mem_joinedRows hjoined).2.2.2.1, of_decide_eq_true hmin, rfl⟩

def Supported (q : InferRequest W) (t : Tables V W) (r : Relation W) : Prop :=
  r.relates q.tenantId = true ∧
    q.minCooccurrence ≤ (sharedMemories q t r.fromEntityId r.toEntityId).length

omit [LinearOrder W] in
theorem supported_of_joins (ht : t.Identified) {order : QueryOrder Cooccurrence}
    {row : Cooccurrence} (hrow : row ∈ cooccurrences q t order) {r : Relation W}
    (hrelates : r.relates q.tenantId = true) (hjoins : r.joins row.fromId row.toId = true) :
    Supported q t r := by
  obtain ⟨-, hmin, hcount⟩ := mem_cooccurrences hrow
  have hle : (row.cooccur : ℤ) ≤ (sharedMemories q t row.fromId row.toId).length := by
    rw [hcount]
    exact_mod_cast count_joined_le ht row.fromId row.toId
  refine ⟨hrelates, ?_⟩
  simp only [Relation.joins, Bool.or_eq_true, Bool.and_eq_true, decide_eq_true_eq] at hjoins
  rcases hjoins with ⟨hfrom, hto⟩ | ⟨hfrom, hto⟩
  · rw [hfrom, hto]
    exact hmin.trans hle
  · rw [hfrom, hto, sharedMemories_comm]
    exact hmin.trans hle

section Existing

variable {order : QueryOrder (Relation W)} {pairs : List Cooccurrence} {row : Cooccurrence}

omit [LinearOrder W] in
theorem mem_existingRows {r : Relation W} : r ∈ existingRows q t order pairs ↔
    r ∈ t.relations ∧ r.relates q.tenantId = true ∧
      (r.fromEntityId ∈ pairs.flatMap (fun row => [row.fromId, row.toId]) ∨
        r.toEntityId ∈ pairs.flatMap fun row => [row.fromId, row.toId]) := by
  unfold existingRows
  rw [(order.perm _).mem_iff, List.mem_filter, Bool.and_eq_true, Bool.or_eq_true,
    decide_eq_true_eq, decide_eq_true_eq]

omit [LinearOrder W] in
theorem existing_some {r : Relation W}
    (h : existing (existingRows q t order pairs) row = some r) :
    r ∈ t.relations ∧ r.relates q.tenantId = true ∧ r.joins row.fromId row.toId = true := by
  obtain ⟨hmem, hjoins⟩ := List.mem_filter.mp (List.mem_of_getLast? h)
  obtain ⟨hrelation, hrelates, -⟩ := mem_existingRows.mp hmem
  exact ⟨hrelation, hrelates, hjoins⟩

omit [LinearOrder W] in
theorem existing_ne_none (hrow : row ∈ pairs) {r : Relation W} (hr : r ∈ t.relations)
    (hrelates : r.relates q.tenantId = true) (hjoins : r.joins row.fromId row.toId = true) :
    existing (existingRows q t order pairs) row ≠ none := by
  have hin : r.fromEntityId ∈ pairs.flatMap fun row => [row.fromId, row.toId] := by
    refine List.mem_flatMap.mpr ⟨row, hrow, ?_⟩
    simp only [Relation.joins, Bool.or_eq_true, Bool.and_eq_true, decide_eq_true_eq] at hjoins
    rcases hjoins with ⟨hfrom, -⟩ | ⟨hfrom, -⟩
    · simp [hfrom]
    · simp [hfrom]
  have hmem : r ∈ existingRows q t order pairs := mem_existingRows.mpr ⟨hr, hrelates, .inl hin⟩
  unfold existing
  rw [Ne, List.getLast?_eq_none_iff]
  exact List.ne_nil_of_mem (List.mem_filter.mpr ⟨hmem, hjoins⟩)

end Existing

omit [LinearOrder W] in
theorem foldl_reinforce (updates : List (Reinforcement W)) (relations : List (Relation W)) :
    updates.foldl (reinforce q) relations =
      relations.map fun r => updates.foldl (setWeight q) r := by
  induction updates generalizing relations with
  | nil => exact (List.map_id _).symm
  | cons update updates ih =>
    rw [List.foldl_cons, ih, reinforce, List.map_map]
    rfl

omit [LinearOrder W] in
theorem foldl_setWeight (updates : List (Reinforcement W)) (r : Relation W) :
    ∃ w, updates.foldl (setWeight q) r = { r with weight := w } ∧
      ((w = r.weight ∧ ∀ update ∈ updates, ¬(r.id = update.relId ∧ r.tenantId = q.tenantId)) ∨
        ∃ update ∈ updates, r.id = update.relId ∧ w = update.newWeight) := by
  -- A row changes in its weight only, which is that of an update of the row if there is one.
  induction updates generalizing r with
  | nil => exact ⟨r.weight, rfl, .inl ⟨rfl, fun _ h => absurd h List.not_mem_nil⟩⟩
  | cons update updates ih =>
    rw [List.foldl_cons]
    by_cases hhit : r.id = update.relId ∧ r.tenantId = q.tenantId
    · have hset : setWeight q r update = { r with weight := update.newWeight } :=
        if_pos (by simp [hhit])
      obtain ⟨w, hfold, ⟨hw, -⟩ | ⟨later, hlater, hid, hw⟩⟩ :=
        ih { r with weight := update.newWeight }
      · exact ⟨w, by rw [hset, hfold], .inr ⟨update, List.mem_cons_self, hhit.1, hw⟩⟩
      · exact ⟨w, by rw [hset, hfold], .inr ⟨later, List.mem_cons_of_mem _ hlater, hid, hw⟩⟩
    · have hset : setWeight q r update = r := if_neg (by simpa using hhit)
      rw [hset]
      obtain ⟨w, hfold, ⟨hw, hnone⟩ | ⟨later, hlater, hid, hw⟩⟩ := ih r
      · exact ⟨w, hfold, .inl ⟨hw, List.forall_mem_cons.mpr ⟨hhit, hnone⟩⟩⟩
      · exact ⟨w, hfold, .inr ⟨later, List.mem_cons_of_mem _ hlater, hid, hw⟩⟩

section Run

variable {R : Rounding W} {run : InferRun W}

def InferRun.pairs (run : InferRun W) (t : Tables V W) : List Cooccurrence :=
  cooccurrences run.request t run.pairOrder

def InferRun.rows (run : InferRun W) (t : Tables V W) : List (Relation W) :=
  existingRows run.request t run.relationOrder (run.pairs t)

def InferRun.updates (R : Rounding W) (run : InferRun W) (t : Tables V W) :
    List (Reinforcement W) := reinforceBatch run.request R (run.rows t) (run.pairs t)

def InferRun.inserts (R : Rounding W) (run : InferRun W) (t : Tables V W) :
    List (NewRelation W) := insertBatch run.request R (run.rows t) (run.pairs t)

variable (R run) in
theorem updated_weight (ht : t.Identified) {r : Relation W} (hr : r ∈ t.relations) :
    ∃ w, (run.updates R t).foldl (setWeight run.request) r = { r with weight := w } ∧
      ((w = r.weight ∧ ∀ row ∈ run.pairs t, existing (run.rows t) row ≠ some r) ∨
        ∃ row ∈ run.pairs t, existing (run.rows t) row = some r ∧
          w = newWeight run.request R r row.cooccur) := by
  -- The weight of a relation after the updates: its own, or the new one of a pair that it is the
  -- existing relation of.
  obtain ⟨w, hfold, hcases⟩ := foldl_setWeight (q := run.request) (run.updates R t) r
  refine ⟨w, hfold, hcases.imp ?_ ?_⟩
  · rintro ⟨hw, hnone⟩
    refine ⟨hw, fun row hrow hexisting => ?_⟩
    refine hnone ⟨r.id, newWeight run.request R r row.cooccur⟩ ?_ ⟨rfl, ?_⟩
    · refine List.mem_filterMap.mpr ⟨row, hrow, ?_⟩
      rw [hexisting]
      rfl
    · have hrelates := (existing_some hexisting).2.1
      rw [Relation.relates, Bool.and_eq_true] at hrelates
      exact of_decide_eq_true hrelates.1
  · rintro ⟨update, hupdate, hid, hw⟩
    obtain ⟨row, hrow, hupdate⟩ := List.mem_filterMap.mp hupdate
    obtain ⟨r', hexisting, rfl⟩ := Option.map_eq_some_iff.mp hupdate
    have hsame : r = r' :=
      List.inj_on_of_nodup_map ht.relationIds hr (existing_some hexisting).1 hid
    rw [← hsame] at hexisting hw
    exact ⟨row, hrow, hexisting, hw⟩

end Run

omit [LinearOrder W] in
theorem lt_newRelationId {relations : List (Relation W)} {r : Relation W} (hr : r ∈ relations) :
    r.id < newRelationId relations := by
  induction relations with
  | nil => exact absurd hr List.not_mem_nil
  | cons r' relations ih =>
    rw [newRelationId, List.foldr_cons]
    rcases List.mem_cons.mp hr with rfl | hr
    · exact lt_max_of_lt_left (Nat.lt_succ_self _)
    · exact lt_max_of_lt_right (ih hr)

structure Inserted (q : InferRequest W) (news : List (NewRelation W))
    (relations created : List (Relation W)) : Prop where
  keys : Keyed.Unique Relation.key (relations ++ created)
  ids : Keyed.Unique Relation.id (relations ++ created)
  source : ∀ r ∈ created, ∃ new ∈ news, r = new.row q r.id

omit [LinearOrder W] in
theorem insertRelation_inserted {relations : List (Relation W)}
    (hkeys : Keyed.Unique Relation.key relations) (hids : Keyed.Unique Relation.id relations)
    (new : NewRelation W) :
    ∃ created, insertRelation q relations new = relations ++ created ∧
      Inserted q [new] relations created := by
  unfold insertRelation
  dsimp only
  split
  · refine ⟨[], (List.append_nil _).symm, ?_, ?_, fun r hr => absurd hr List.not_mem_nil⟩
    · rwa [List.append_nil]
    · rwa [List.append_nil]
  · next hfree =>
    rw [List.any_eq_true] at hfree
    refine ⟨_, rfl, ?_, ?_, ?_⟩
    · rw [Keyed.Unique, List.map_append]
      refine List.nodup_append'.mpr ⟨hkeys, List.nodup_singleton _, ?_⟩
      rw [List.map_singleton, List.disjoint_singleton]
      intro hmem
      obtain ⟨r, hr, hkey⟩ := List.mem_map.mp hmem
      exact hfree ⟨r, hr, decide_eq_true hkey⟩
    · rw [Keyed.Unique, List.map_append]
      refine List.nodup_append'.mpr ⟨hids, List.nodup_singleton _, ?_⟩
      rw [List.map_singleton, List.disjoint_singleton]
      intro hmem
      obtain ⟨r, hr, hid⟩ := List.mem_map.mp hmem
      exact (lt_newRelationId hr).ne hid
    · intro r hr
      obtain rfl := List.mem_singleton.mp hr
      exact ⟨new, List.mem_singleton_self new, rfl⟩

omit [LinearOrder W] in
theorem foldl_inserted {relations : List (Relation W)}
    (hkeys : Keyed.Unique Relation.key relations) (hids : Keyed.Unique Relation.id relations)
    (news : List (NewRelation W)) :
    ∃ created, news.foldl (insertRelation q) relations = relations ++ created ∧
      Inserted q news relations created := by
  induction news generalizing relations with
  | nil =>
    refine ⟨[], (List.append_nil _).symm, ?_, ?_, fun r hr => absurd hr List.not_mem_nil⟩
    · rwa [List.append_nil]
    · rwa [List.append_nil]
  | cons new news ih =>
    obtain ⟨first, hfirst, hinserted⟩ := insertRelation_inserted (q := q) hkeys hids new
    obtain ⟨rest, hrest, hinserted'⟩ := ih hinserted.keys hinserted.ids
    refine ⟨first ++ rest, ?_, ?_, ?_, ?_⟩
    · rw [List.foldl_cons, hfirst, hrest, List.append_assoc]
    · rw [← List.append_assoc]
      exact hinserted'.keys
    · rw [← List.append_assoc]
      exact hinserted'.ids
    · intro r hr
      rcases List.mem_append.mp hr with hr | hr
      · obtain ⟨new', hnew', hrow⟩ := hinserted.source r hr
        exact ⟨new', by simpa using Or.inl (List.mem_singleton.mp hnew'), hrow⟩
      · obtain ⟨new', hnew', hrow⟩ := hinserted'.source r hr
        exact ⟨new', List.mem_cons_of_mem _ hnew', hrow⟩

section Run

variable {R : Rounding W} {run : InferRun W}

theorem infer_relations (ht : t.Identified) (R : Rounding W) (run : InferRun W) :
    ∃ created, (entityInferRelations t R run).1 = { t with relations :=
        (t.relations.map fun r => (run.updates R t).foldl (setWeight run.request) r) ++ created } ∧
      Inserted run.request (run.inserts R t)
        (t.relations.map fun r => (run.updates R t).foldl (setWeight run.request) r) created := by
  have hkeep : ∀ r, ((run.updates R t).foldl (setWeight run.request) r).key = r.key ∧
      ((run.updates R t).foldl (setWeight run.request) r).id = r.id := by
    intro r
    obtain ⟨w, hfold, -⟩ := foldl_setWeight (q := run.request) (run.updates R t) r
    rw [hfold]
    exact ⟨rfl, rfl⟩
  obtain ⟨created, hfold, hinserted⟩ := foldl_inserted (q := run.request)
    (ht.relations.map fun r => (hkeep r).1) (ht.relationIds.map fun r => (hkeep r).2)
    (run.inserts R t)
  refine ⟨created, ?_, hinserted⟩
  rw [← hfold, ← foldl_reinforce]
  unfold entityInferRelations
  dsimp only
  split
  · next hnone =>
    have hupdates : run.updates R t = [] := by
      rw [InferRun.updates, InferRun.pairs, hnone]
      rfl
    have hinserts : run.inserts R t = [] := by
      rw [InferRun.inserts, InferRun.pairs, hnone]
      rfl
    rw [hupdates, hinserts]
    rfl
  · rfl

structure Reinforced (q : InferRequest W) (t : Tables V W) (r r' : Relation W) : Prop where
  same : r' = { r with weight := r'.weight }
  le : r.weight ≤ r'.weight
  capped : r.weight < r'.weight → r'.weight ≤ q.maxRelationWeight
  touched : r'.weight ≠ r.weight → Supported q t r

def related (tenantId : String) (a b : ℕ) (relations : List (Relation W)) : List (Relation W) :=
  relations.filter fun r => r.relates tenantId && r.joins a b

/-- A run only strengthens: relations keep their weight or get a greater one up to the cap, those
touched or created are of pairs that share enough memories, and no pair gets a second relation. -/
structure Strengthened (q : InferRequest W) (t t' : Tables V W) : Prop where
  entities : t'.entities = t.entities
  memories : t'.memories = t.memories
  links : t'.links = t.links
  relations : ∃ kept created, t'.relations = kept ++ created ∧
    List.Forall₂ (Reinforced q t) t.relations kept ∧
      ∀ r ∈ created, r.weight ≤ q.maxRelationWeight ∧ Supported q t r
  single : ∀ tenantId a b, (related tenantId a b t.relations).length ≤ 1 →
    (related tenantId a b t'.relations).length ≤ 1

def BelowCap (run : InferRun W) (t : Tables V W) : Prop :=
  ∀ row ∈ run.pairs t, ∀ r ∈ existing (run.rows t) row, r.weight ≤ run.request.maxRelationWeight

theorem reinforced_of_belowCap (ht : t.Identified)
    (hdelta : 0 ≤ R.value run.request.reinforceDelta) (hcap : BelowCap run t) {r : Relation W}
    (hr : r ∈ t.relations) :
    Reinforced run.request t r ((run.updates R t).foldl (setWeight run.request) r) := by
  obtain ⟨w, hfold, ⟨rfl, -⟩ | ⟨row, hrow, hexisting, rfl⟩⟩ :=
    updated_weight R run ht hr
  · rw [hfold]
    exact ⟨rfl, le_rfl, fun h => absurd h (lt_irrefl _), fun h => absurd rfl h⟩
  · have hbelow := hcap row hrow r hexisting
    obtain ⟨-, hrelates, hjoins⟩ := existing_some hexisting
    have hsum : r.weight ≤ R.add r.weight (R.scale row.cooccur run.request.reinforceDelta) :=
      R.le_add (R.value_scale_nonneg _ hdelta)
    rw [hfold]
    refine ⟨rfl, le_min hsum hbelow, fun _ => min_le_right _ _, fun _ => ?_⟩
    exact supported_of_joins ht hrow hrelates hjoins

theorem created_source {relations created : List (Relation W)}
    (h : Inserted run.request (run.inserts R t) relations created) {r : Relation W}
    (hr : r ∈ created) :
    ∃ row ∈ run.pairs t, existing (run.rows t) row = none ∧ r.relates run.request.tenantId = true ∧
      r.fromEntityId = row.fromId ∧ r.toEntityId = row.toId ∧
      r.weight ≤ run.request.maxRelationWeight := by
  obtain ⟨new, hnew, hsource⟩ := h.source r hr
  obtain ⟨row, hrow, hinsert⟩ := List.mem_filterMap.mp hnew
  refine ⟨row, hrow, ?_⟩
  cases hexisting : existing (run.rows t) row with
  | some r' =>
    rw [hexisting] at hinsert
    exact nomatch hinsert
  | none =>
    rw [hexisting] at hinsert
    obtain rfl := Option.some.inj hinsert
    rw [hsource]
    refine ⟨rfl, ?_, rfl, rfl, min_le_right _ _⟩
    simp [Relation.relates, NewRelation.row]

theorem created_supported (ht : t.Identified) {relations created : List (Relation W)}
    (h : Inserted run.request (run.inserts R t) relations created) {r : Relation W}
    (hr : r ∈ created) :
    r.weight ≤ run.request.maxRelationWeight ∧ Supported run.request t r := by
  obtain ⟨row, hrow, -, hrelates, hfrom, hto, hweight⟩ := created_source h hr
  refine ⟨hweight, supported_of_joins ht hrow hrelates ?_⟩
  simp [Relation.joins, hfrom, hto]

omit [LinearOrder W] in
theorem joins_iff {r : Relation W} {a b : ℕ} : r.joins a b = true ↔
    r.fromEntityId = a ∧ r.toEntityId = b ∨ r.fromEntityId = b ∧ r.toEntityId = a := by
  unfold Relation.joins
  rw [Bool.or_eq_true, Bool.and_eq_true, Bool.and_eq_true]
  simp only [decide_eq_true_eq]

/-- A pair gets one relation at most, and none where it has one. -/
theorem related_created {relations created : List (Relation W)}
    (h : Inserted run.request (run.inserts R t) relations created) (tenantId : String) (a b : ℕ) :
    (related tenantId a b created).length ≤ 1 ∧
      (related tenantId a b t.relations ≠ [] → related tenantId a b created = []) := by
  have hrow : ∀ r ∈ related tenantId a b created, r.relates tenantId = true ∧
      r.joins a b = true ∧ ∃ row ∈ run.pairs t, existing (run.rows t) row = none ∧
        r.relates run.request.tenantId = true ∧ r.fromEntityId = row.fromId ∧
          r.toEntityId = row.toId := by
    intro r hr
    obtain ⟨hcreated, hon⟩ := List.mem_filter.mp hr
    rw [Bool.and_eq_true] at hon
    obtain ⟨row, hrow, hnone, hrelates, hfrom, hto, -⟩ := created_source h hcreated
    exact ⟨hon.1, hon.2, row, hrow, hnone, hrelates, hfrom, hto⟩
  constructor
  · have hcreated : Keyed.Unique Relation.key created :=
      h.keys.sublist ((List.sublist_append_right _ _).map Relation.key)
    have hkeys : Keyed.Unique Relation.key (related tenantId a b created) := hcreated.filter _
    have hsame : ∀ r ∈ related tenantId a b created, ∀ r' ∈ related tenantId a b created,
        r.key = r'.key := by
      intro r hr r' hr'
      obtain ⟨hrelates, hjoins, row, hin, -, -, hfrom, hto⟩ := hrow r hr
      obtain ⟨hrelates', hjoins', row', hin', -, -, hfrom', hto'⟩ := hrow r' hr'
      have hlt := (mem_cooccurrences hin).1
      have hlt' := (mem_cooccurrences hin').1
      rw [joins_iff] at hjoins hjoins'
      simp only [Relation.relates, Bool.and_eq_true, decide_eq_true_eq] at hrelates hrelates'
      have hends : r.fromEntityId = r'.fromEntityId ∧ r.toEntityId = r'.toEntityId := by omega
      unfold Relation.key
      rw [hrelates.1, hrelates'.1, hrelates.2, hrelates'.2, hends.1, hends.2]
    match hrelated : related tenantId a b created with
    | [] => exact Nat.zero_le 1
    | [_] => exact le_rfl
    | r :: r' :: _ =>
      rw [hrelated] at hkeys hsame
      have hkey := hsame r List.mem_cons_self r' (List.mem_cons_of_mem _ List.mem_cons_self)
      rw [Keyed.Unique, List.map_cons, List.map_cons, hkey] at hkeys
      exact absurd List.mem_cons_self (List.nodup_cons.mp hkeys).1
  · intro hbefore
    obtain ⟨r, hr⟩ := List.exists_mem_of_ne_nil _ hbefore
    obtain ⟨hr, hon⟩ := List.mem_filter.mp hr
    rw [Bool.and_eq_true] at hon
    refine List.eq_nil_iff_forall_not_mem.mpr fun r' hr' => ?_
    obtain ⟨hrelates', hjoins', row, hin, hnone, hrun, hfrom, hto⟩ := hrow r' hr'
    have htenant : r.relates run.request.tenantId = true := by
      simp only [Relation.relates, Bool.and_eq_true, decide_eq_true_eq] at hon hrelates' hrun ⊢
      exact ⟨hon.1.1.trans (hrelates'.1.symm.trans hrun.1), hon.1.2⟩
    have hjoins : r.joins row.fromId row.toId = true := by
      have hends := joins_iff.mp hon.2
      rw [joins_iff] at hjoins' ⊢
      omega
    exact existing_ne_none hin hr htenant hjoins hnone

/-- A run strengthens exactly where it reinforces no weight above the cap. -/
theorem strengthened_iff (ht : t.Identified) (hdelta : 0 ≤ R.value run.request.reinforceDelta) :
    Strengthened run.request t (entityInferRelations t R run).1 ↔ BelowCap run t := by
  obtain ⟨created, hrun, hinserted⟩ := infer_relations ht R run
  rw [hrun]
  constructor
  · rintro ⟨-, -, -, ⟨kept, created', happend, hkept, -⟩, -⟩ row hrow r hexisting
    have hr : r ∈ t.relations := (existing_some hexisting).1
    have hlength := hkept.length_eq
    obtain ⟨rfl, -⟩ := List.append_inj happend (by simpa using hlength)
    rw [List.forall₂_map_right_iff, List.forall₂_same] at hkept
    have hle := (hkept r hr).le
    obtain ⟨w, hfold, ⟨-, hnone⟩ | ⟨row', -, -, hw⟩⟩ :=
      updated_weight R run ht hr
    · exact absurd hexisting (hnone row hrow)
    · rw [hfold, hw] at hle
      exact hle.trans (min_le_right _ _)
  · intro hcap
    refine ⟨rfl, rfl, rfl, ⟨_, created, rfl, ?_, fun r hr => created_supported ht hinserted hr⟩, ?_⟩
    · rw [List.forall₂_map_right_iff, List.forall₂_same]
      exact fun r hr => reinforced_of_belowCap ht hdelta hcap hr
    · intro tenantId a b hsingle
      obtain ⟨hone, hnone⟩ := related_created hinserted tenantId a b
      have hkept : (related tenantId a b (t.relations.map fun r =>
          (run.updates R t).foldl (setWeight run.request) r)).length =
          (related tenantId a b t.relations).length := by
        unfold related
        rw [List.filter_map, List.length_map]
        congr 1
        refine List.filter_congr fun r _ => ?_
        obtain ⟨w, hfold, -⟩ := foldl_setWeight (q := run.request) (run.updates R t) r
        rw [Function.comp_apply, hfold]
        rfl
      show (related tenantId a b (_ ++ created)).length ≤ 1
      rw [related, List.filter_append, List.length_append]
      change (related tenantId a b _).length + (related tenantId a b created).length ≤ 1
      rw [hkept]
      by_cases hbefore : related tenantId a b t.relations = []
      · rw [hbefore, List.length_nil, Nat.zero_add]
        exact hone
      · rw [hnone hbefore]
        exact hsingle

end Run

theorem identified_infer (ht : t.Identified) (R : Rounding W) (run : InferRun W) :
    (entityInferRelations t R run).1.Identified := by
  obtain ⟨created, hrun, hinserted⟩ := infer_relations ht R run
  rw [hrun]
  exact ⟨⟨ht.entities, ht.links, hinserted.keys⟩, ht.memoryIds, hinserted.ids⟩

omit [LinearOrder W] in
theorem identified_add (ht : t.Identified) (data : RelationData W) :
    (relationAdd t data).Identified := by
  unfold relationAdd
  dsimp only
  split
  · refine ⟨⟨ht.entities, ht.links, ht.relations.map fun r => ?_⟩, ht.memoryIds,
      ht.relationIds.map fun r => ?_⟩
    · split <;> rfl
    · split <;> rfl
  · next hfree =>
    rw [List.any_eq_true] at hfree
    refine ⟨⟨ht.entities, ht.links, ?_⟩, ht.memoryIds, ?_⟩
    · show ((t.relations ++ [_]).map Relation.key).Nodup
      rw [List.map_append]
      refine List.nodup_append'.mpr ⟨ht.relations, List.nodup_singleton _, ?_⟩
      rw [List.map_singleton, List.disjoint_singleton]
      intro hmem
      obtain ⟨r, hr, hkey⟩ := List.mem_map.mp hmem
      exact hfree ⟨r, hr, decide_eq_true hkey⟩
    · show ((t.relations ++ [_]).map Relation.id).Nodup
      rw [List.map_append]
      refine List.nodup_append'.mpr ⟨ht.relationIds, List.nodup_singleton _, ?_⟩
      rw [List.map_singleton, List.disjoint_singleton]
      intro hmem
      obtain ⟨r, hr, hid⟩ := List.mem_map.mp hmem
      exact (lt_newRelationId hr).ne hid

theorem identified_step (ht : t.Identified) (R : Rounding W) (event : RelationEvent W) :
    (relationStep R t event).Identified := by
  cases event with
  | infer run => exact identified_infer ht R run
  | add data => exact identified_add ht data

/-- Among any other writes, every run only strengthens exactly where each finds no weight above
its cap to reinforce. -/
theorem runs_strengthen_iff (R : Rounding W) (t : Tables V W) (ht : t.Identified)
    (events : List (RelationEvent W))
    (hdelta : ∀ run, .infer run ∈ events → 0 < R.value run.request.reinforceDelta) :
    Along (relationStep R) (fun t event => ∀ run, event = .infer run →
        Strengthened run.request t (relationStep R t event)) t events ↔
      Along (relationStep R) (fun t event => ∀ run, event = .infer run → BelowCap run t) t
        events := by
  refine Along.congr ht (fun t event _ ht => identified_step ht R event) ?_
  intro t event hevent ht
  refine forall₂_congr fun run hrun => ?_
  subst hrun
  exact strengthened_iff ht (hdelta run hevent).le

def QueryOrder.asIs (α : Type) : QueryOrder α := ⟨id, fun _ => .refl _⟩

def inferSampleRun : InferRun ℚ where
  request := ⟨"t", none, 500, 1, 1 / 10, 1⟩
  pairOrder := .asIs _
  relationOrder := .asIs _

def inferSample (weight : ℚ) : Tables ℕ ℚ where
  entities := [⟨1, "t", none, "person", "Ada", none, none⟩,
    ⟨2, "t", none, "person", "Grace", none, none⟩]
  memories := [Memories.sampleMemory.row 7 0]
  links := [⟨7, 1, "subject"⟩, ⟨7, 2, "object"⟩]
  relations := [⟨5, "t", none, 2, "related_to", 1, weight, none⟩]

theorem inferSample_identified (weight : ℚ) : (inferSample weight).Identified :=
  ⟨⟨by simp [Keyed.Unique, inferSample], by simp [Keyed.Unique, inferSample, MemoryEntityLink.key],
    by simp [Keyed.Unique, inferSample]⟩, by simp [Keyed.Unique, inferSample],
    by simp [Keyed.Unique, inferSample]⟩

theorem runs_strengthen_iff_sample :
    Along (relationStep Rounding.exact) (fun t event => ∀ run, event = .infer run →
        Strengthened run.request t (relationStep Rounding.exact t event)) (inferSample (1 / 2))
        [.infer inferSampleRun] ↔
      Along (relationStep Rounding.exact) (fun t event => ∀ run, event = .infer run →
        BelowCap run t) (inferSample (1 / 2)) [.infer inferSampleRun] := by
  refine runs_strengthen_iff Rounding.exact _ (inferSample_identified _) _ fun run hrun => ?_
  obtain rfl := RelationEvent.infer.inj (List.mem_singleton.mp hrun)
  show (0 : ℚ) < 1 / 10
  norm_num

theorem inferSample_pairs (weight : ℚ) :
    inferSampleRun.pairs (inferSample weight) = [⟨1, 2, 1⟩] := by
  have hjoined : (joinedRows inferSampleRun.request (inferSample weight)).map JoinedRow.pair =
      [(1, 2)] := by rfl
  have hgrouped : grouped inferSampleRun.request (inferSample weight) = [⟨1, 2, 1⟩] := by
    unfold grouped
    rw [hjoined]
    rfl
  unfold InferRun.pairs cooccurrences
  rw [hgrouped]
  have hfiltered : (inferSampleRun.pairOrder.list [⟨1, 2, 1⟩]).filter (fun row =>
      decide (inferSampleRun.request.minCooccurrence ≤ row.cooccur)) = [⟨1, 2, 1⟩] := by rfl
  rw [hfiltered, List.mergeSort_singleton]
  rfl

/-- A run lowers a weight that is above its cap. -/
theorem runs_not_strengthen :
    ¬ Along (relationStep Rounding.exact) (fun t event => ∀ run, event = .infer run →
        Strengthened run.request t (relationStep Rounding.exact t event)) (inferSample 2)
        [.infer inferSampleRun] := by
  intro h
  have hstrong := h.1 inferSampleRun rfl
  have hcap : BelowCap inferSampleRun (inferSample 2) := by
    refine (strengthened_iff (inferSample_identified 2) ?_).mp hstrong
    show (0 : ℚ) ≤ 1 / 10
    norm_num
  have hle : (2 : ℚ) ≤ 1 := by
    refine hcap ⟨1, 2, 1⟩ ?_ ⟨5, "t", none, 2, "related_to", 1, 2, none⟩ ?_
    · rw [inferSample_pairs]
      exact List.mem_singleton_self _
    · rw [InferRun.rows, inferSample_pairs]
      rfl
  exact absurd hle (by norm_num)

end Memclaw.Entities

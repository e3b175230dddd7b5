import Mathlib.Algebra.Order.Ring.Rat
import Memclaw.Entities.GraphDefs
import Memclaw.Lib.Groups
import Memclaw.Lib.Levels
import Memclaw.Lib.StableSort

/-! `entity_expand_graph`: the entities near a set of seeds, hop by hop along the relations of a
tenant, and `_expand_per_fleet`, which merges the searches of several fleets. The hops of an
expansion are lengths of paths, and without a capped frontier distances; the weight of an entity is
the greatest of the relations from the hop before. Neither depends on the order of the rows. -/

namespace Memclaw.Entities

open Memclaw.Lib Memclaw.Lib.Keyed Memclaw.Lib.Levels

def relationTypeWeights : List (String × ℚ) := [
  ("manages", 1), ("works_on", 1), ("created_by", 1), ("authored_by", 1), ("owns", 1),
  ("leads", 1), ("reports_to", 1), ("uses", 7 / 10), ("depends_on", 7 / 10),
  ("belongs_to", 7 / 10), ("part_of", 7 / 10), ("related_to", 1 / 2), ("mentions", 1 / 2),
  ("located_in", 3 / 10), ("contains", 3 / 10), ("instance_of", 3 / 10)]

def defaultRelationTypeWeight : ℚ := 1 / 2

structure Weighing where
  lower : String → String
  times : ℚ → ℚ → ℚ

def relationWeight (ops : Weighing) (relationType : String) (rowWeight : ℚ) : ℚ :=
  ops.times ((relationTypeWeights.lookup (ops.lower relationType)).getD defaultRelationTypeWeight)
    rowWeight

structure ExpandRequest where
  seedEntityIds : List ℕ
  tenantId : String
  fleetId : Option String
  maxHops : ℕ
  useUnion : Bool

structure HopRow where
  entityId : ℕ
  relationType : String
  weight : ℚ

inductive HopQuery
  | fwd
  | rev
  | union

/-- The order in which the database returns the rows of a query, in each hop. -/
structure RowOrder where
  list : ℕ → HopQuery → List HopRow → List HopRow
  perm : ∀ hop query rows, (list hop query rows).Perm rows

variable (ops : Weighing) (q : ExpandRequest) (t : List (Relation ℚ)) (order : RowOrder)

/-- An empty fleet id is no filter, as none is. -/
def ExpandRequest.admits (r : Relation ℚ) : Bool :=
  r.tenantId = q.tenantId &&
    match q.fleetId with
    | none => true
    | some fleetId => fleetId = "" || r.fleetId = some fleetId || r.fleetId = none

def fwd (frontier : List ℕ) : List HopRow :=
  (t.filter fun r => q.admits r && decide (r.fromEntityId ∈ frontier)).map fun r =>
    ⟨r.toEntityId, r.relationType, r.weight⟩

def rev (frontier : List ℕ) : List HopRow :=
  (t.filter fun r => q.admits r && decide (r.toEntityId ∈ frontier)).map fun r =>
    ⟨r.fromEntityId, r.relationType, r.weight⟩

def allRows (hop : ℕ) (frontier : List ℕ) : List HopRow :=
  if q.useUnion then order.list hop .union (fwd q t frontier ++ rev q t frontier)
  else order.list hop .fwd (fwd q t frontier) ++ order.list hop .rev (rev q t frontier)

def heavier (weight : ℕ → ℚ) (a b : ℕ) : Bool :=
  weight b < weight a || (weight a = weight b && a ≤ b)

def capped (hop : ℕ) (hops : Hops ℚ) (frontier : List ℕ) : List ℕ :=
  if graphMaxExpandedEntities < frontier.length then
    (frontier.mergeSort (heavier fun eid => ((Groups.value hops eid).getD ⟨hop, 0⟩).weight)).take
      graphMaxExpandedEntities
  else frontier

def neighborWeights (rows : List HopRow) : List (ℕ × ℚ) :=
  Groups.collect HopRow.entityId
    (fun row => Keyed.keep (relationWeight ops row.relationType row.weight)) [] rows

def noteNeighbors (hop : ℕ) (hops : Hops ℚ) (neighbors : List (ℕ × ℚ)) : Hops ℚ :=
  Groups.collect Prod.fst (fun neighbor known => known.getD ⟨hop, neighbor.2⟩) hops neighbors

structure Expansion where
  hops : Hops ℚ
  frontier : List ℕ

def startExpansion : Expansion where
  hops := q.seedEntityIds.dedup.map fun eid => (eid, ⟨0, 1⟩)
  frontier := q.seedEntityIds.dedup

/-- One turn of the loop. The break is a turn that changes nothing: all later ones find the
empty frontier too. -/
def expandHop (hop : ℕ) (s : Expansion) : Expansion :=
  if s.frontier = [] then s
  else
    let frontier := capped hop s.hops s.frontier
    let neighbors := neighborWeights ops (allRows q t order hop frontier)
    let hops := noteNeighbors hop s.hops neighbors
    ⟨hops, (neighbors.map Prod.fst).filter fun eid =>
      !(Groups.value hops eid).any fun reached => reached.hop < hop⟩

def expandedTo : ℕ → Expansion
  | 0 => startExpansion q
  | n + 1 => expandHop ops q t order (n + 1) (expandedTo n)

def entityExpandGraph : Hops ℚ := (expandedTo ops q t order q.maxHops).hops

/-- The calls of `asyncio.gather`; nothing where one raises. -/
def fleetResults (orders : ℕ → RowOrder) (failed : ℕ → Bool) (fleetIds : Option (List String)) :
    List (Option (Hops ℚ)) :=
  (idsToExpand fleetIds).mapIdx fun i fid =>
    if failed i then none
    else some (entityExpandGraph ops { q with fleetId := fid } t (orders i))

def expandPerFleet (orders : ℕ → RowOrder) (failed : ℕ → Bool)
    (fleetIds : Option (List String)) : Hops ℚ :=
  mergeResults (fleetResults ops q t orders failed fleetIds)

def Joins (relations : List (Relation ℚ)) (u v : ℕ) (r : Relation ℚ) : Prop :=
  r ∈ relations ∧
    (r.fromEntityId = u ∧ r.toEntityId = v ∨ r.toEntityId = u ∧ r.fromEntityId = v)

def Adjacent (relations : List (Relation ℚ)) (u v : ℕ) : Prop := ∃ r, Joins relations u v r

def ExpandRequest.graph (q : ExpandRequest) (t : List (Relation ℚ)) : List (Relation ℚ) :=
  t.filter fun r => q.admits r

def ExpandRequest.seed (q : ExpandRequest) (v : ℕ) : Prop := v ∈ q.seedEntityIds

def joinWeights (ops : Weighing) (relations : List (Relation ℚ)) (part : ℕ → Prop) (v : ℕ) :
    Set ℚ :=
  {w | ∃ r u, part u ∧ Joins relations u v r ∧ relationWeight ops r.relationType r.weight = w}

variable {ops : Weighing} {q : ExpandRequest} {t : List (Relation ℚ)} {order : RowOrder}

theorem mem_fwd {frontier : List ℕ} {row : HopRow} :
    row ∈ fwd q t frontier ↔ ∃ r ∈ q.graph t, r.fromEntityId ∈ frontier ∧
      row = ⟨r.toEntityId, r.relationType, r.weight⟩ := by
  simp only [fwd, ExpandRequest.graph, List.mem_map, List.mem_filter, Bool.and_eq_true,
    decide_eq_true_eq]
  constructor
  · rintro ⟨r, ⟨hr, hadmits, hfrom⟩, rfl⟩
    exact ⟨r, ⟨hr, hadmits⟩, hfrom, rfl⟩
  · rintro ⟨r, ⟨hr, hadmits⟩, hfrom, rfl⟩
    exact ⟨r, ⟨hr, hadmits, hfrom⟩, rfl⟩

theorem mem_rev {frontier : List ℕ} {row : HopRow} :
    row ∈ rev q t frontier ↔ ∃ r ∈ q.graph t, r.toEntityId ∈ frontier ∧
      row = ⟨r.fromEntityId, r.relationType, r.weight⟩ := by
  simp only [rev, ExpandRequest.graph, List.mem_map, List.mem_filter, Bool.and_eq_true,
    decide_eq_true_eq]
  constructor
  · rintro ⟨r, ⟨hr, hadmits, hto⟩, rfl⟩
    exact ⟨r, ⟨hr, hadmits⟩, hto, rfl⟩
  · rintro ⟨r, ⟨hr, hadmits⟩, hto, rfl⟩
    exact ⟨r, ⟨hr, hadmits, hto⟩, rfl⟩

theorem mem_allRows_iff {hop : ℕ} {frontier : List ℕ} {row : HopRow} :
    row ∈ allRows q t order hop frontier ↔ row ∈ fwd q t frontier ∨ row ∈ rev q t frontier := by
  unfold allRows
  split
  · rw [(order.perm _ _ _).mem_iff, List.mem_append]
  · rw [List.mem_append, (order.perm _ _ _).mem_iff, (order.perm _ _ _).mem_iff]

theorem mem_allRows {hop : ℕ} {frontier : List ℕ} {row : HopRow} :
    row ∈ allRows q t order hop frontier ↔ ∃ r u, u ∈ frontier ∧
      Joins (q.graph t) u row.entityId r ∧ row.relationType = r.relationType ∧
      row.weight = r.weight := by
  rw [mem_allRows_iff, mem_fwd, mem_rev]
  constructor
  · rintro (⟨r, hr, hfrom, rfl⟩ | ⟨r, hr, hto, rfl⟩)
    · exact ⟨r, r.fromEntityId, hfrom, ⟨hr, .inl ⟨rfl, rfl⟩⟩, rfl, rfl⟩
    · exact ⟨r, r.toEntityId, hto, ⟨hr, .inr ⟨rfl, rfl⟩⟩, rfl, rfl⟩
  · obtain ⟨entityId, relationType, weight⟩ := row
    rintro ⟨r, u, hu, ⟨hr, ⟨rfl, rfl⟩ | ⟨rfl, rfl⟩⟩, rfl, rfl⟩
    · exact .inl ⟨r, hr, hu, rfl⟩
    · exact .inr ⟨r, hr, hu, rfl⟩

theorem greatest_neighborWeights (hop : ℕ) (frontier : List ℕ) (v : ℕ) :
    Greatest (joinWeights ops (q.graph t) (fun u => u ∈ frontier) v)
      (Groups.value (neighborWeights ops (allRows q t order hop frontier)) v) := by
  have hset : joinWeights ops (q.graph t) (fun u => u ∈ frontier) v = ∅ ∪ {w | ∃ row ∈
      (allRows q t order hop frontier).filter (fun row => row.entityId = v),
      relationWeight ops row.relationType row.weight = w} := by
    ext w
    rw [Set.empty_union]
    constructor
    · rintro ⟨r, u, hu, hjoins, hw⟩
      have hrow : ⟨v, r.relationType, r.weight⟩ ∈ allRows q t order hop frontier :=
        mem_allRows.mpr ⟨r, u, hu, hjoins, rfl, rfl⟩
      exact ⟨_, List.mem_filter.mpr ⟨hrow, decide_eq_true rfl⟩, hw⟩
    · rintro ⟨row, hrow, hw⟩
      obtain ⟨hrow, hv⟩ := List.mem_filter.mp hrow
      obtain ⟨r, u, hu, hjoins, htype, hweight⟩ := mem_allRows.mp hrow
      rw [of_decide_eq_true hv] at hjoins
      exact ⟨r, u, hu, hjoins, by rw [← htype, ← hweight, hw]⟩
  rw [neighborWeights, Groups.value_collect, hset]
  have hnone : Greatest (∅ : Set ℚ) none := rfl
  exact hnone.foldl_keep (fun row : HopRow => relationWeight ops row.relationType row.weight) _

theorem joinWeights_nonempty {relations : List (Relation ℚ)} {part : ℕ → Prop} {v : ℕ} :
    (joinWeights ops relations part v).Nonempty ↔ ∃ u, part u ∧ Adjacent relations u v := by
  constructor
  · rintro ⟨w, r, u, hu, hjoins, -⟩
    exact ⟨u, hu, r, hjoins⟩
  · rintro ⟨u, hu, r, hjoins⟩
    exact ⟨_, r, u, hu, hjoins, rfl⟩

def Expansion.hop (s : Expansion) (v : ℕ) : Option ℕ := (Groups.value s.hops v).map Reached.hop

theorem value_noteNeighbors (hop : ℕ) (hops : Hops ℚ) (neighbors : List (ℕ × ℚ)) (v : ℕ) :
    Groups.value (noteNeighbors hop hops neighbors) v =
      (Groups.value hops v).or ((Groups.value neighbors v).map fun w => ⟨hop, w⟩) :=
  Groups.value_collect_first (fun neighbor => (⟨hop, neighbor.2⟩ : Reached ℚ)) hops neighbors v

def Expansion.part (s : Expansion) (hop u : ℕ) : Prop := u ∈ capped hop s.hops s.frontier

theorem mem_of_mem_capped {hop : ℕ} {hops : Hops ℚ} {frontier : List ℕ} {u : ℕ}
    (h : u ∈ capped hop hops frontier) : u ∈ frontier := by
  unfold capped at h
  split at h
  · exact List.mem_mergeSort.mp (List.mem_of_mem_take h)
  · exact h

def Expansion.best (ops : Weighing) (q : ExpandRequest) (t : List (Relation ℚ)) (order : RowOrder)
    (s : Expansion) (hop v : ℕ) : Option ℚ :=
  Groups.value (neighborWeights ops (allRows q t order hop (capped hop s.hops s.frontier))) v

theorem greatest_best (s : Expansion) (hop v : ℕ) :
    Greatest (joinWeights ops (q.graph t) (s.part hop) v) (s.best ops q t order hop v) :=
  greatest_neighborWeights hop _ v

theorem capped_nil (hop : ℕ) (hops : Hops ℚ) : capped hop hops [] = [] := rfl

theorem best_of_frontier_nil {s : Expansion} (h : s.frontier = []) (hop v : ℕ) :
    s.best ops q t order hop v = none := by
  have hbest : Greatest _ (s.best ops q t order hop v) := greatest_best s hop v
  have hpart : joinWeights ops (q.graph t) (s.part hop) v = ∅ := by
    refine Set.eq_empty_of_forall_notMem ?_
    rintro w ⟨r, u, hu, -⟩
    rw [Expansion.part, h, capped_nil] at hu
    exact List.not_mem_nil hu
  rw [hpart] at hbest
  exact hbest.unique rfl

theorem value_expandHop (s : Expansion) (hop v : ℕ) :
    Groups.value (expandHop ops q t order hop s).hops v =
      (Groups.value s.hops v).or ((s.best ops q t order hop v).map fun w => ⟨hop, w⟩) := by
  unfold expandHop
  split
  · next hnil =>
    rw [best_of_frontier_nil hnil]
    exact Option.or_none.symm
  · exact value_noteNeighbors hop s.hops _ v

theorem notBefore_iff {o : Option (Reached ℚ)} {hop : ℕ} :
    (!o.any fun reached => decide (reached.hop < hop)) = true ↔
      ∀ k ∈ o.map Reached.hop, hop ≤ k := by
  cases o <;> simp

theorem mem_frontier_expandHop (s : Expansion) (hop v : ℕ) :
    v ∈ (expandHop ops q t order hop s).frontier ↔
      (s.best ops q t order hop v).isSome ∧
        ∀ k ∈ (expandHop ops q t order hop s).hop v, hop ≤ k := by
  unfold expandHop
  split
  · next hnil =>
    rw [hnil, best_of_frontier_nil hnil]
    simp
  · show v ∈ List.filter _ _ ↔ _
    rw [List.mem_filter, ← Groups.value_isSome_iff]
    exact and_congr_right fun _ => notBefore_iff

theorem best_isSome_iff (s : Expansion) (hop v : ℕ) :
    (s.best ops q t order hop v).isSome ↔ ∃ u, s.part hop u ∧ Adjacent (q.graph t) u v := by
  have hbest : Greatest _ (s.best ops q t order hop v) := greatest_best s hop v
  have hjoins : (joinWeights ops (q.graph t) (s.part hop) v).Nonempty ↔ _ := joinWeights_nonempty
  rw [← hjoins]
  cases hv : s.best ops q t order hop v with
  | none =>
    rw [hv] at hbest
    have hempty : joinWeights ops (q.graph t) (s.part hop) v = ∅ := hbest
    simp [hempty]
  | some w =>
    rw [hv] at hbest
    exact ⟨fun _ => ⟨w, hbest.1⟩, fun _ => rfl⟩

/-- A turn of the loop is a turn of the search by levels. -/
theorem turn_expandHop {n : ℕ} {s : Expansion} (hbound : ∀ v, ∀ k ∈ s.hop v, k ≤ n) :
    Turn (Adjacent (q.graph t)) n s.hop (s.part (n + 1))
      (expandHop ops q t order (n + 1) s).hop
      (fun v => v ∈ (expandHop ops q t order (n + 1) s).frontier) := by
  have hhop : ∀ v, (expandHop ops q t order (n + 1) s).hop v =
      (s.hop v).or ((s.best ops q t order (n + 1) v).map fun _ => n + 1) := by
    intro v
    rw [Expansion.hop, value_expandHop, Expansion.hop]
    cases Groups.value s.hops v with
    | some reached => rfl
    | none => cases s.best ops q t order (n + 1) v <;> rfl
  refine ⟨fun v hv => ?_, fun v hv k => ?_, fun v => ?_⟩
  · rw [hhop v]
    obtain ⟨k, hk⟩ := Option.isSome_iff_exists.mp hv
    rw [hk]
    rfl
  · have hbest : (s.best ops q t order (n + 1) v).isSome ↔ _ := best_isSome_iff s (n + 1) v
    rw [hhop v, hv, Option.none_or, ← hbest]
    cases s.best ops q t order (n + 1) v <;> simp [eq_comm]
  · rw [mem_frontier_expandHop, best_isSome_iff]
    refine and_congr_right fun hreached => ?_
    have hbest : (s.best ops q t order (n + 1) v).isSome :=
      (best_isSome_iff s (n + 1) v).mpr hreached
    obtain ⟨w, hw⟩ := Option.isSome_iff_exists.mp hbest
    rw [hhop v, hw]
    cases hv : s.hop v with
    | none => simp
    | some k =>
      have hle : k ≤ n := hbound v k hv
      simp
      omega

theorem value_start (v : ℕ) :
    Groups.value (startExpansion q).hops v =
      if v ∈ q.seedEntityIds then some ⟨0, 1⟩ else none := by
  have hfold : ∀ ids : List ℕ, Groups.value (ids.map fun eid => (eid, (⟨0, 1⟩ : Reached ℚ))) v =
      if v ∈ ids then some ⟨0, 1⟩ else none := by
    intro ids
    induction ids with
    | nil => rfl
    | cons eid ids ih =>
      rw [List.map_cons, Groups.value_cons, ih]
      by_cases hv : eid = v
      · rw [if_pos hv, if_pos (by simp [hv])]
      · have hmem : v ∈ eid :: ids ↔ v ∈ ids := by simp [Ne.symm hv]
        simp only [if_neg hv, hmem]
  rw [startExpansion, hfold]
  simp only [List.mem_dedup]

theorem hop_start_eq_some {v k : ℕ} : (startExpansion q).hop v = some k ↔ k = 0 ∧ q.seed v := by
  rw [Expansion.hop, value_start, ExpandRequest.seed]
  split <;> simp_all [eq_comm]

theorem exact_start : Exact (Adjacent (q.graph t)) q.seed 0 (startExpansion q).hop
    (fun v => v ∈ (startExpansion q).frontier) := by
  refine ⟨fun v k => ?_, fun v => ?_⟩
  · rw [hop_start_eq_some, Nat.le_zero]
    exact and_congr_right fun hk => hk ▸ dist_zero.symm
  · rw [dist_zero]
    exact List.mem_dedup

theorem sound_expandedTo (n : ℕ) :
    Sound (Adjacent (q.graph t)) q.seed n (expandedTo ops q t order n).hop
      (fun v => v ∈ (expandedTo ops q t order n).frontier) := by
  induction n with
  | zero =>
    have hstart : Exact (Adjacent (q.graph t)) q.seed 0 (startExpansion q).hop _ := exact_start
    refine ⟨fun v k hk => ?_, fun v hv => ?_⟩
    · obtain ⟨hle, hdist⟩ := (hstart.found v k).mp hk
      exact ⟨hle, hdist.path⟩
    · exact (hstart.found v 0).mpr ⟨le_rfl, (hstart.frontier v).mp hv⟩
  | succ n ih =>
    exact ih.turn (fun u => mem_of_mem_capped) (turn_expandHop fun v k hk => (ih.path v k hk).1)

def Uncapped (ops : Weighing) (q : ExpandRequest) (t : List (Relation ℚ)) (order : RowOrder)
    (n : ℕ) : Prop :=
  ∀ m < n, (expandedTo ops q t order m).frontier.length ≤ graphMaxExpandedEntities

theorem part_of_length_le {s : Expansion} (h : s.frontier.length ≤ graphMaxExpandedEntities)
    (hop u : ℕ) : s.part hop u ↔ u ∈ s.frontier := by
  rw [Expansion.part, capped, if_neg (Nat.not_lt.mpr h)]

theorem exact_expandedTo {n : ℕ} (h : Uncapped ops q t order n) :
    Exact (Adjacent (q.graph t)) q.seed n (expandedTo ops q t order n).hop
      (fun v => v ∈ (expandedTo ops q t order n).frontier) := by
  induction n with
  | zero => exact exact_start
  | succ n ih =>
    have hexact := ih fun m hm => h m (Nat.lt_succ_of_lt hm)
    exact hexact.turn (part_of_length_le (h n (Nat.lt_succ_self n)) (n + 1))
      (turn_expandHop fun v k hk => ((hexact.found v k).mp hk).1)

/-- The weight of an entity at a distance: a seed has 1, any other the greatest weight of the
relations that join it to the distance before. -/
def BestWeight (ops : Weighing) (relations : List (Relation ℚ)) (sources : ℕ → Prop) (v : ℕ)
    (w : ℚ) : ℕ → Prop
  | 0 => w = 1
  | n + 1 => IsGreatest (joinWeights ops relations (Dist (Adjacent relations) sources n) v) w

theorem bestWeight_expandedTo {n : ℕ} (h : Uncapped ops q t order n) {v : ℕ} {reached : Reached ℚ}
    (hv : Groups.value (expandedTo ops q t order n).hops v = some reached) :
    BestWeight ops (q.graph t) q.seed v reached.weight reached.hop := by
  induction n with
  | zero =>
    rw [expandedTo, value_start] at hv
    split at hv
    · rw [← Option.some.inj hv]
      exact rfl
    · exact absurd hv.symm (Option.some_ne_none reached)
  | succ n ih =>
    have hbefore : Uncapped ops q t order n := fun m hm => h m (Nat.lt_succ_of_lt hm)
    rw [expandedTo, value_expandHop] at hv
    cases hold : Groups.value (expandedTo ops q t order n).hops v with
    | some old =>
      rw [hold] at hv
      obtain rfl : old = reached := Option.some.inj hv
      exact ih hbefore hold
    | none =>
      rw [hold, Option.none_or] at hv
      obtain ⟨w, hw, rfl⟩ := Option.map_eq_some_iff.mp hv
      have hpart : (expandedTo ops q t order n).part (n + 1) =
          Dist (Adjacent (q.graph t)) q.seed n := by
        funext u
        rw [eq_iff_iff, part_of_length_le (h n (Nat.lt_succ_self n))]
        exact (exact_expandedTo hbefore).frontier u
      have hbest : Greatest _ ((expandedTo ops q t order n).best ops q t order (n + 1) v) :=
        greatest_best _ (n + 1) v
      rw [hpart] at hbest
      exact hbest.eq_some_iff.mp hw

theorem nodup_expandHop {s : Expansion} (h : s.frontier.Nodup) (hop : ℕ) :
    (expandHop ops q t order hop s).frontier.Nodup := by
  unfold expandHop
  split
  · exact h
  · have hunique : ∀ rows, ((neighborWeights ops rows).map Prod.fst).Nodup :=
      fun rows => Groups.collect_nil_unique rows
    exact (hunique _).filter _

theorem nodup_expandedTo (n : ℕ) : (expandedTo ops q t order n).frontier.Nodup := by
  induction n with
  | zero => exact List.nodup_dedup _
  | succ n ih => exact nodup_expandHop ih (n + 1)

structure Expansion.Same (s s' : Expansion) : Prop where
  hops : ∀ v, Groups.value s.hops v = Groups.value s'.hops v
  frontier : s.frontier.Perm s'.frontier

theorem heavier_iff {weight : ℕ → ℚ} {a b : ℕ} :
    heavier weight a b ↔ weight b < weight a ∨ weight a = weight b ∧ a ≤ b := by
  simp [heavier]

theorem heavier_trans (weight : ℕ → ℚ) (a b c : ℕ) (hab : heavier weight a b)
    (hbc : heavier weight b c) : heavier weight a c := by
  rw [heavier_iff] at hab hbc ⊢
  rcases hab with hab | ⟨hab, hle⟩
  · rcases hbc with hbc | ⟨hbc, -⟩
    · exact .inl (hbc.trans hab)
    · exact .inl (hbc ▸ hab)
  · rcases hbc with hbc | ⟨hbc, hle'⟩
    · exact .inl (hab ▸ hbc)
    · exact .inr ⟨hab.trans hbc, hle.trans hle'⟩

theorem heavier_total (weight : ℕ → ℚ) (a b : ℕ) : heavier weight a b || heavier weight b a := by
  rw [Bool.or_eq_true, heavier_iff, heavier_iff]
  rcases lt_trichotomy (weight a) (weight b) with hlt | heq | hgt
  · exact .inr (.inl hlt)
  · rcases le_total a b with hle | hle
    · exact .inl (.inr ⟨heq, hle⟩)
    · exact .inr (.inr ⟨heq.symm, hle⟩)
  · exact .inl (.inl hgt)

theorem heavier_antisymm (weight : ℕ → ℚ) (a b : ℕ) (hab : heavier weight a b)
    (hba : heavier weight b a) : a = b := by
  rw [heavier_iff] at hab hba
  rcases hab with hab | ⟨hab, hle⟩
  · rcases hba with hba | ⟨hba, -⟩
    · exact absurd hba (lt_asymm hab)
    · exact absurd hba.symm (ne_of_gt hab)
  · rcases hba with hba | ⟨-, hle'⟩
    · exact absurd hab (ne_of_gt hba).symm
    · exact le_antisymm hle hle'

theorem capped_perm {s s' : Expansion} (h : s.Same s') (hop : ℕ) :
    (capped hop s.hops s.frontier).Perm (capped hop s'.hops s'.frontier) := by
  have hvalue : Groups.value s.hops = Groups.value s'.hops := funext h.hops
  unfold capped
  rw [h.frontier.length_eq, hvalue]
  split
  · rw [StableSort.mergeSort_congr (heavier_trans _) (heavier_total _) (heavier_antisymm _)
      h.frontier]
  · exact h.frontier

theorem Expansion.Same.turn {s s' : Expansion} (h : s.Same s') (hnodup : s.frontier.Nodup)
    (hnodup' : s'.frontier.Nodup) (order' : RowOrder) (useUnion : Bool) (hop : ℕ) :
    (expandHop ops q t order hop s).Same
      (expandHop ops { q with useUnion := useUnion } t order' hop s') := by
  -- The rows of a hop say the same in any order, and in one query or two.
  have hpart : s.part hop = s'.part hop := by
    funext u
    exact eq_iff_iff.mpr (capped_perm h hop).mem_iff
  have hbest : ∀ v, s.best ops q t order hop v =
      s'.best ops { q with useUnion := useUnion } t order' hop v := by
    intro v
    have hbest : Greatest _ (s.best ops q t order hop v) := greatest_best s hop v
    rw [hpart] at hbest
    exact hbest.unique (greatest_best s' hop v)
  have hops : ∀ v, Groups.value (expandHop ops q t order hop s).hops v =
      Groups.value (expandHop ops { q with useUnion := useUnion } t order' hop s').hops v := by
    intro v
    rw [value_expandHop, value_expandHop, h.hops v, hbest v]
  refine ⟨hops, (List.perm_ext_iff_of_nodup (nodup_expandHop hnodup hop)
    (nodup_expandHop hnodup' hop)).mpr fun v => ?_⟩
  rw [mem_frontier_expandHop, mem_frontier_expandHop, hbest v, Expansion.hop, Expansion.hop,
    hops v]

theorem same_expandedTo (order' : RowOrder) (useUnion : Bool) (n : ℕ) :
    (expandedTo ops q t order n).Same
      (expandedTo ops { q with useUnion := useUnion } t order' n) := by
  induction n with
  | zero => exact ⟨fun _ => rfl, List.Perm.refl _⟩
  | succ n ih => exact ih.turn (nodup_expandedTo n) (nodup_expandedTo n) order' useUnion (n + 1)

theorem value_expandedTo_seed {v : ℕ} (hv : q.seed v) (n : ℕ) :
    Groups.value (expandedTo ops q t order n).hops v = some ⟨0, 1⟩ := by
  induction n with
  | zero =>
    rw [expandedTo, value_start]
    exact if_pos hv
  | succ n ih =>
    rw [expandedTo, value_expandHop, ih]
    rfl

/-- A search by levels: every hop is the length of a path, and without a capped frontier the
distance, with the greatest weight from the distance before. The order of the rows and the way
they are asked for make no difference. -/
theorem entityExpandGraph_levels (ops : Weighing) (q : ExpandRequest) (t : List (Relation ℚ))
    (order : RowOrder) :
    (∀ v reached, Groups.value (entityExpandGraph ops q t order) v = some reached →
      reached.hop ≤ q.maxHops ∧ Path (Adjacent (q.graph t)) q.seed reached.hop v) ∧
    (∀ v ∈ q.seedEntityIds, Groups.value (entityExpandGraph ops q t order) v = some ⟨0, 1⟩) ∧
    (Uncapped ops q t order q.maxHops →
      (∀ v reached, Groups.value (entityExpandGraph ops q t order) v = some reached →
        Dist (Adjacent (q.graph t)) q.seed reached.hop v ∧
          BestWeight ops (q.graph t) q.seed v reached.weight reached.hop) ∧
      ∀ v, ∀ k ≤ q.maxHops, Dist (Adjacent (q.graph t)) q.seed k v →
        (Groups.value (entityExpandGraph ops q t order) v).isSome) ∧
    ∀ order' useUnion v,
      Groups.value (entityExpandGraph ops { q with useUnion := useUnion } t order') v =
        Groups.value (entityExpandGraph ops q t order) v := by
  have hhop : ∀ {v reached}, Groups.value (entityExpandGraph ops q t order) v = some reached →
      (expandedTo ops q t order q.maxHops).hop v = some reached.hop :=
    fun hv => congrArg (Option.map Reached.hop) hv
  refine ⟨fun v reached hv => ?_, fun v hv => value_expandedTo_seed hv q.maxHops,
    fun huncapped => ⟨fun v reached hv => ?_, fun v k hk hdist => ?_⟩,
    fun order' useUnion v => ((same_expandedTo order' useUnion q.maxHops).hops v).symm⟩
  · exact (sound_expandedTo q.maxHops).path v reached.hop (hhop hv)
  · exact ⟨(((exact_expandedTo huncapped).found v reached.hop).mp (hhop hv)).2,
      bestWeight_expandedTo huncapped hv⟩
  · have hfound := ((exact_expandedTo huncapped).found v k).mpr ⟨hk, hdist⟩
    obtain ⟨reached, hv, -⟩ := Option.map_eq_some_iff.mp hfound
    exact Option.isSome_iff_exists.mpr ⟨reached, hv⟩

def storedOrder : RowOrder where
  list _ _ rows := rows
  perm _ _ rows := List.Perm.refl rows

def exactWeighing : Weighing := ⟨id, fun a b => a * b⟩

def sampleRelation (id fromEntityId : ℕ) (relationType : String) (toEntityId : ℕ) (weight : ℚ)
    (fleetId : Option String) : Relation ℚ :=
  ⟨id, "acme", fleetId, fromEntityId, relationType, toEntityId, weight, none⟩

def sampleRelations : List (Relation ℚ) :=
  [sampleRelation 1 10 "manages" 11 1 none, sampleRelation 2 12 "uses" 11 1 (some "east")]

def sampleExpand : ExpandRequest := ⟨[10], "acme", some "east", 2, true⟩

theorem sampleExpand_dist : Dist (Adjacent sampleRelations) sampleExpand.seed 2 12 := by
  have hexact : Exact _ _ 2
      (expandedTo exactWeighing sampleExpand sampleRelations storedOrder 2).hop _ :=
    exact_expandedTo (by unfold Uncapped; decide)
  exact ((hexact.found 12 2).mp (by decide)).2

theorem sampleExpand_levels :
    Dist (Adjacent (sampleExpand.graph sampleRelations)) sampleExpand.seed 2 12 ∧
      BestWeight exactWeighing (sampleExpand.graph sampleRelations) sampleExpand.seed 12
        (7 / 10) 2 :=
  ((entityExpandGraph_levels exactWeighing sampleExpand sampleRelations storedOrder).2.2.1
    (by unfold Uncapped; decide)).1 12 ⟨2, 7 / 10⟩ (by decide +kernel)

end Memclaw.Entities

import Mathlib.Data.Prod.Lex
import Memclaw.Entities.Expand

/-! The searches of several fleets, merged: the nearest of what they found for each entity, in any
order of the merge, and never nearer than the distance along all their relations together. -/

namespace Memclaw.Entities

open Memclaw.Lib Memclaw.Lib.Keyed Memclaw.Lib.Levels

def Reached.rank (reached : Reached ℚ) : Lex (ℕᵒᵈ × ℚ) :=
  toLex (OrderDual.toDual reached.hop, reached.weight)

theorem Reached.rank_injective : Function.Injective Reached.rank := by
  rintro ⟨hop, weight⟩ ⟨hop', weight'⟩ h
  have hpair : (OrderDual.toDual hop, weight) = (OrderDual.toDual hop', weight') :=
    toLex.injective h
  obtain ⟨hhop, hweight⟩ := Prod.mk.inj hpair
  rw [OrderDual.toDual.injective hhop, hweight]

instance : LinearOrder (Reached ℚ) := LinearOrder.lift' Reached.rank Reached.rank_injective

theorem Reached.lt_iff {a b : Reached ℚ} :
    a < b ↔ b.hop < a.hop ∨ b.hop = a.hop ∧ a.weight < b.weight := by
  show a.rank < b.rank ↔ _
  rw [Prod.Lex.lt_iff]
  exact or_congr Iff.rfl (and_congr_left fun _ => eq_comm)

theorem Reached.le_iff {a b : Reached ℚ} :
    a ≤ b ↔ b.hop < a.hop ∨ b.hop = a.hop ∧ a.weight ≤ b.weight := by
  show a.rank ≤ b.rank ↔ _
  rw [Prod.Lex.le_iff]
  exact or_congr Iff.rfl (and_congr_left fun _ => eq_comm)

theorem Reached.nearer_eq_keep (reached : Reached ℚ) : reached.nearer = keep reached := by
  funext known
  cases known with
  | none => rfl
  | some known =>
    have hcond : (reached.hop < known.hop || (reached.hop = known.hop &&
        known.weight < reached.weight) : Bool) = decide (known < reached) := by
      rw [Bool.eq_iff_iff]
      simp [Reached.lt_iff]
    show (if (reached.hop < known.hop || (reached.hop = known.hop &&
      known.weight < reached.weight) : Bool) then reached else known) = _
    rw [hcond]
    simp [keep]

def NearestOf (S : Set (Reached ℚ)) : Option (Reached ℚ) → Prop
  | none => S = ∅
  | some reached => reached ∈ S ∧
      ∀ other ∈ S, reached.hop ≤ other.hop ∧
        (other.hop = reached.hop → other.weight ≤ reached.weight)

theorem nearestOf_of_greatest {S : Set (Reached ℚ)} {o : Option (Reached ℚ)} (h : Greatest S o) :
    NearestOf S o := by
  cases o with
  | none => exact h
  | some reached =>
    refine ⟨h.1, fun other hother => ?_⟩
    rcases Reached.le_iff.mp (h.2 hother) with hlt | ⟨heq, hle⟩
    · exact ⟨hlt.le, fun heq => absurd heq hlt.ne'⟩
    · exact ⟨heq.le, fun _ => hle⟩

theorem greatest_mergeResults (results : List (Option (Hops ℚ))) (v : ℕ) :
    Greatest {reached | (v, reached) ∈ resultItems results}
      (Groups.value (mergeResults results) v) := by
  have hset : {reached | (v, reached) ∈ resultItems results} = ∅ ∪ {reached | ∃ item ∈
      (resultItems results).filter (fun item => item.1 = v), item.2 = reached} := by
    ext reached
    rw [Set.empty_union]
    constructor
    · intro hmem
      exact ⟨(v, reached), List.mem_filter.mpr ⟨hmem, decide_eq_true rfl⟩, rfl⟩
    · rintro ⟨⟨v', reached'⟩, hitem, rfl⟩
      obtain ⟨hmem, hv⟩ := List.mem_filter.mp hitem
      obtain rfl : v' = v := of_decide_eq_true hv
      exact hmem
  have hnone : Greatest (∅ : Set (Reached ℚ)) none := rfl
  rw [mergeResults_eq, Groups.value_collect, hset]
  simp only [Reached.nearer_eq_keep]
  exact hnone.foldl_keep Prod.snd _

variable {ops : Weighing} {q : ExpandRequest} {t : List (Relation ℚ)} {orders : ℕ → RowOrder}
  {failed : ℕ → Bool} {fleetIds : Option (List String)}

theorem unique_entityExpandGraph (order : RowOrder) :
    Keyed.Unique Prod.fst (entityExpandGraph ops q t order) := by
  have hstart : Keyed.Unique Prod.fst (startExpansion q).hops := by
    have hids : (startExpansion q).hops.map Prod.fst = q.seedEntityIds.dedup := by
      rw [startExpansion, List.map_map]
      exact List.map_id _
    rw [Keyed.Unique, hids]
    exact List.nodup_dedup _
  have hrun : ∀ n, Keyed.Unique Prod.fst (expandedTo ops q t order n).hops := by
    intro n
    induction n with
    | zero => exact hstart
    | succ n ih =>
      rw [expandedTo, expandHop]
      split
      · exact ih
      · exact Groups.collect_unique ih _
  exact hrun q.maxHops

theorem mem_resultItems {v : ℕ} {reached : Reached ℚ} :
    (v, reached) ∈ resultItems (fleetResults ops q t orders failed fleetIds) ↔
      ∃ hops, some hops ∈ fleetResults ops q t orders failed fleetIds ∧
        Groups.value hops v = some reached := by
  have hvalue : ∀ hops, some hops ∈ fleetResults ops q t orders failed fleetIds →
      ((v, reached) ∈ hops ↔ Groups.value hops v = some reached) := by
    intro hops hmem
    obtain ⟨i, hi, hresult⟩ := List.mem_mapIdx.mp hmem
    have hunique : Keyed.Unique Prod.fst hops := by
      split at hresult
      · exact absurd hresult.symm (Option.some_ne_none hops)
      · rw [← Option.some.inj hresult]
        exact unique_entityExpandGraph _
    rw [Groups.value, Option.map_eq_some_iff]
    constructor
    · exact fun hitem => ⟨(v, reached), get_of_mem hunique hitem, rfl⟩
    · rintro ⟨⟨v', reached'⟩, hget, rfl⟩
      obtain ⟨hitem, rfl⟩ := mem_of_get hget
      exact hitem
  rw [resultItems, List.mem_flatMap]
  constructor
  · rintro ⟨result, hmem, hitem⟩
    cases result with
    | none => exact absurd hitem List.not_mem_nil
    | some hops => exact ⟨hops, hmem, (hvalue hops hmem).mp hitem⟩
  · rintro ⟨hops, hmem, hv⟩
    exact ⟨some hops, hmem, (hvalue hops hmem).mpr hv⟩

/-- The relations of the tenant whose fleet is listed or null. -/
def ExpandRequest.listedGraph (q : ExpandRequest) (fleetIds : List String)
    (t : List (Relation ℚ)) : List (Relation ℚ) :=
  t.filter fun r => r.tenantId = q.tenantId &&
    (r.fleetId = none || fleetIds.any fun fleetId => r.fleetId = some fleetId)

def ExpandRequest.unionGraph (q : ExpandRequest) (fleetIds : Option (List String))
    (t : List (Relation ℚ)) : List (Relation ℚ) :=
  if fleetIds.getD [] = [] ∨ "" ∈ fleetIds.getD [] then t.filter fun r => r.tenantId = q.tenantId
  else q.listedGraph (fleetIds.getD []) t

def ExpandRequest.fleetGraph (q : ExpandRequest) (fid : Option String) (t : List (Relation ℚ)) :
    List (Relation ℚ) := { q with fleetId := fid }.graph t

theorem mem_unionGraph {r : Relation ℚ} {fid : Option String} (hfid : fid ∈ idsToExpand fleetIds)
    (h : r ∈ q.fleetGraph fid t) : r ∈ q.unionGraph fleetIds t := by
  obtain ⟨hr, hadmits⟩ := List.mem_filter.mp h
  obtain ⟨htenant, hfleet⟩ := Bool.and_eq_true_iff.mp hadmits
  unfold ExpandRequest.unionGraph
  split
  · exact List.mem_filter.mpr ⟨hr, htenant⟩
  · next hlist =>
    refine List.mem_filter.mpr ⟨hr, Bool.and_eq_true_iff.mpr ⟨htenant, ?_⟩⟩
    rcases fleetIds with - | - | ⟨fleetId, fleetIds⟩
    · exact absurd (.inl rfl) hlist
    · exact absurd (.inl rfl) hlist
    · obtain ⟨listed, hlisted, rfl⟩ := List.mem_map.mp hfid
      simp only [Bool.or_eq_true, decide_eq_true_eq] at hfleet
      rw [Bool.or_eq_true, decide_eq_true_eq, List.any_eq_true]
      rcases hfleet with (hempty | hfleet) | hnull
      · exact absurd (.inr (hempty ▸ hlisted)) hlist
      · exact .inr ⟨listed, hlisted, decide_eq_true hfleet⟩
      · exact .inl hnull

theorem Adjacent.mono {relations relations' : List (Relation ℚ)} (h : relations ⊆ relations')
    (u v : ℕ) : Adjacent relations u v → Adjacent relations' u v := by
  rintro ⟨r, hr, hends⟩
  exact ⟨r, h hr, hends⟩

theorem path_of_result {hops : Hops ℚ}
    (h : some hops ∈ fleetResults ops q t orders failed fleetIds) {v : ℕ} {reached : Reached ℚ}
    (hv : Groups.value hops v = some reached) :
    Path (Adjacent (q.unionGraph fleetIds t)) q.seed reached.hop v := by
  obtain ⟨i, hi, hresult⟩ := List.mem_mapIdx.mp h
  split at hresult
  · exact absurd hresult.symm (Option.some_ne_none hops)
  · rw [← Option.some.inj hresult] at hv
    have hhop := congrArg (Option.map Reached.hop) hv
    have hpath := ((sound_expandedTo q.maxHops).path v reached.hop hhop).2
    exact hpath.mono (Adjacent.mono fun r hr => mem_unionGraph (List.getElem_mem hi) hr)

def foundBy (results : List (Option (Hops ℚ))) (v : ℕ) : Set (Reached ℚ) :=
  {reached | ∃ hops, some hops ∈ results ∧ Groups.value hops v = some reached}

theorem greatest_merged {results : List (Option (Hops ℚ))}
    (hresults : results.Perm (fleetResults ops q t orders failed fleetIds)) (v : ℕ) :
    Greatest (foundBy (fleetResults ops q t orders failed fleetIds) v)
      (Groups.value (mergeResults results) v) := by
  have hitems : (resultItems results).Perm
      (resultItems (fleetResults ops q t orders failed fleetIds)) :=
    hresults.flatMap_right fun hops : Option (Hops ℚ) => hops.getD []
  have hset : foundBy (fleetResults ops q t orders failed fleetIds) v =
      {reached | (v, reached) ∈ resultItems results} := by
    ext reached
    rw [foundBy, Set.mem_ofPred_eq, Set.mem_ofPred_eq, ← mem_resultItems]
    exact hitems.mem_iff.symm
  rw [hset]
  exact greatest_mergeResults results v

theorem exists_result (hfailed : ∀ i, failed i = false)
    (huncapped : ∀ i, ∀ fid ∈ (idsToExpand fleetIds)[i]?,
      Uncapped ops { q with fleetId := fid } t (orders i) q.maxHops)
    {v d : ℕ} (hd : d ≤ q.maxHops) (hdist : Dist (Adjacent (q.unionGraph fleetIds t)) q.seed d v)
    {fid : Option String} (hfid : fid ∈ idsToExpand fleetIds)
    (hpath : Path (Adjacent (q.fleetGraph fid t)) q.seed d v) :
    ∃ reached ∈ foundBy (fleetResults ops q t orders failed fleetIds) v, reached.hop = d := by
  obtain ⟨i, hi, rfl⟩ := List.mem_iff_getElem.mp hfid
  have hexact := exact_expandedTo (huncapped i _ (List.getElem?_eq_getElem hi))
  have hfleet : Dist (Adjacent (q.fleetGraph (idsToExpand fleetIds)[i] t)) q.seed d v :=
    ⟨hpath, fun m hm => hdist.least m (hm.mono (Adjacent.mono fun r hr => mem_unionGraph hfid hr))⟩
  obtain ⟨reached, hv, hhop⟩ :=
    Option.map_eq_some_iff.mp ((hexact.found v d).mpr ⟨hd, hfleet⟩)
  refine ⟨reached, ⟨_, List.mem_mapIdx.mpr ⟨i, hi, if_neg ?_⟩, hv⟩, hhop⟩
  rw [hfailed i]
  exact Bool.false_ne_true

/-- The merge of several searches is the nearest of what they found, in every order. It is never
nearer than the distance along the relations of all of them, and that near where a shortest path
keeps to the relations of one. -/
theorem expandPerFleet_union (ops : Weighing) (q : ExpandRequest) (t : List (Relation ℚ))
    (orders : ℕ → RowOrder) (failed : ℕ → Bool) (fleetIds : Option (List String))
    (results : List (Option (Hops ℚ)))
    (hresults : results.Perm (fleetResults ops q t orders failed fleetIds)) :
    (∀ v, Groups.value (mergeResults results) v =
      Groups.value (expandPerFleet ops q t orders failed fleetIds) v) ∧
    (∀ v, NearestOf (foundBy (fleetResults ops q t orders failed fleetIds) v)
      (Groups.value (mergeResults results) v)) ∧
    (∀ v reached, Groups.value (mergeResults results) v = some reached →
      ∃ d ≤ reached.hop, Dist (Adjacent (q.unionGraph fleetIds t)) q.seed d v) ∧
    ((∀ i, failed i = false) →
      (∀ i, ∀ fid ∈ (idsToExpand fleetIds)[i]?,
        Uncapped ops { q with fleetId := fid } t (orders i) q.maxHops) →
      ∀ v, ∀ d ≤ q.maxHops, Dist (Adjacent (q.unionGraph fleetIds t)) q.seed d v →
        (∃ fid ∈ idsToExpand fleetIds, Path (Adjacent (q.fleetGraph fid t)) q.seed d v) →
        ∃ w, Groups.value (mergeResults results) v = some ⟨d, w⟩) := by
  have hgreatest := fun v => greatest_merged hresults v
  have hbound : ∀ v reached, Groups.value (mergeResults results) v = some reached →
      ∃ d ≤ reached.hop, Dist (Adjacent (q.unionGraph fleetIds t)) q.seed d v := by
    intro v reached hv
    obtain ⟨⟨hops, hmem, hfound⟩, -⟩ := (hgreatest v).eq_some_iff.mp hv
    exact (path_of_result hmem hfound).exists_dist
  refine ⟨fun v => (hgreatest v).unique (greatest_merged (List.Perm.refl _) v),
    fun v => nearestOf_of_greatest (hgreatest v), hbound, ?_⟩
  rintro hfailed huncapped v d hd hdist ⟨fid, hfid, hpath⟩
  obtain ⟨other, hother, rfl⟩ := exists_result hfailed huncapped hd hdist hfid hpath
  have hnearest := nearestOf_of_greatest (hgreatest v)
  cases hv : Groups.value (mergeResults results) v with
  | none =>
    rw [hv] at hnearest
    have hempty : foundBy (fleetResults ops q t orders failed fleetIds) v = ∅ := hnearest
    exact absurd hother (hempty ▸ Set.notMem_empty other)
  | some reached =>
    rw [hv] at hnearest
    obtain ⟨d, hle, hdist'⟩ := hbound v reached hv
    have hge : other.hop ≤ reached.hop := hdist.unique hdist' ▸ hle
    have heq : reached.hop = other.hop := le_antisymm (hnearest.2 other hother).1 hge
    exact ⟨reached.weight, by rw [← heq]⟩

/-- Two fleets that share the relations of none. -/
theorem expandPerFleet_union_sample :
    ∃ w, Groups.value (mergeResults (fleetResults exactWeighing sampleExpand sampleRelations
      (fun _ => storedOrder) (fun _ => false) (some ["west", "east"])).reverse) 12 =
        some ⟨2, w⟩ := by
  have hgraph : sampleExpand.unionGraph (some ["west", "east"]) sampleRelations =
      sampleRelations := rfl
  have huncapped : ∀ fid ∈ idsToExpand (some ["west", "east"]), ∀ m < 2,
      (expandedTo exactWeighing { sampleExpand with fleetId := fid } sampleRelations storedOrder
        m).frontier.length ≤ graphMaxExpandedEntities := by decide
  refine (expandPerFleet_union exactWeighing sampleExpand sampleRelations (fun _ => storedOrder)
    (fun _ => false) (some ["west", "east"]) _ (List.reverse_perm _)).2.2.2 (fun _ => rfl)
    (fun i fid hfid => huncapped fid (List.mem_of_getElem? (Option.mem_def.mp hfid))) 12 2 le_rfl
    ?_ ⟨some "east", by decide, sampleExpand_dist.path⟩
  rw [hgraph]
  exact sampleExpand_dist

/-- With no fleet listed the search also follows the relations of a fleet. -/
theorem not_listed_distance :
    ¬∀ v reached, Groups.value (expandPerFleet exactWeighing sampleExpand
        [sampleRelation 1 10 "manages" 11 1 (some "east")] (fun _ => storedOrder) (fun _ => false)
        (some [])) v = some reached →
      ∃ d ≤ reached.hop, Dist (Adjacent (sampleExpand.listedGraph []
        [sampleRelation 1 10 "manages" 11 1 (some "east")])) sampleExpand.seed d v := by
  intro h
  obtain ⟨d, -, hdist⟩ := h 11 ⟨1, 1⟩ (by decide +kernel)
  have hnone : ∀ d, ¬Path (Adjacent (sampleExpand.listedGraph []
      [sampleRelation 1 10 "manages" 11 1 (some "east")])) sampleExpand.seed d 11 := by
    intro d hpath
    cases d with
    | zero => exact absurd hpath (by decide : ¬ 11 ∈ sampleExpand.seedEntityIds)
    | succ d =>
      obtain ⟨u, -, r, hr, -⟩ := hpath
      exact absurd hr List.not_mem_nil
  exact hnone d hdist.path

end Memclaw.Entities

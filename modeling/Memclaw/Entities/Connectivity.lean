import Mathlib.Data.Finset.Sort
import Memclaw.Entities.Clusters
import Memclaw.Lib.Groups

/-! The clusters of duplicates over the two dictionaries of the code, whose search halves the path
that it walks. Every search ends, a cluster holds the ids that the pairs connect, and the entities
of a cluster have one type and one fleet. -/

namespace Memclaw.Entities

open Memclaw.Lib
open Memclaw.Lib.UnionFind (Forest)

/-- `parent` and `rank`. A missing key raises. -/
structure UfDicts where
  parent : ℕ → Option ℕ
  rank : ℕ → Option ℕ

def UfDicts.singletons (ids : Finset ℕ) : UfDicts where
  parent uid := if uid ∈ ids then some uid else none
  rank uid := if uid ∈ ids then some 0 else none

/-- `_entity_uf_find`, unless it raises or tests its condition more than `turns` times. -/
def findWithin : ℕ → (ℕ → Option ℕ) → ℕ → Option ((ℕ → Option ℕ) × ℕ)
  | 0, _, _ => none
  | turns + 1, parent, x => do
    let p ← parent x
    if p = x then some (parent, x)
    else
      let above ← parent p
      findWithin turns (Function.update parent x (some above)) above

def UfDicts.attach (dicts : UfDicts) (ra rb : ℕ) : Option UfDicts := do
  let rankA ← dicts.rank ra
  let rankB ← dicts.rank rb
  some
    { parent := Function.update dicts.parent rb (some ra)
      rank :=
        if rankA = rankB then Function.update dicts.rank ra (some (rankA + 1)) else dicts.rank }

def unionWithin (turns : ℕ) (dicts : UfDicts) (a b : ℕ) : Option UfDicts := do
  let (parent, ra) ← findWithin turns dicts.parent a
  let (parent, rb) ← findWithin turns parent b
  if ra = rb then some { dicts with parent := parent }
  else
    let rankA ← dicts.rank ra
    let rankB ← dicts.rank rb
    if rankA < rankB then UfDicts.attach { dicts with parent := parent } rb ra
    else UfDicts.attach { dicts with parent := parent } ra rb

def unionsWithin (turns : ℕ) : UfDicts → List (ℕ × ℕ) → Option UfDicts
  | dicts, [] => some dicts
  | dicts, pair :: pairs => do
    let dicts ← unionWithin turns dicts pair.1 pair.2
    unionsWithin turns dicts pairs

def collectWithin (turns : ℕ) : (ℕ → Option ℕ) → List ℕ → List Cluster → Option (List Cluster)
  | _, [], clusters => some clusters
  | parent, uid :: ids, clusters => do
    let (parent, root) ← findWithin turns parent uid
    collectWithin turns parent ids (appendTo root uid clusters)

def clustersWithin (turns : ℕ) (order : SetOrder) (pairs : List (ℕ × ℕ)) :
    Option (List Cluster) := do
  let dicts ← unionsWithin turns (UfDicts.singletons (allIds pairs)) pairs
  collectWithin turns dicts.parent (order.list (allIds pairs)) []

structure Shows (ids : Finset ℕ) (parent : ℕ → Option ℕ) (f : Forest ℕ) : Prop where
  parent : ∀ x ∈ ids, parent x = some (f.parent x)
  closed : ∀ x ∈ ids, f.parent x ∈ ids

structure Holds (ids : Finset ℕ) (dicts : UfDicts) (f : Forest ℕ) : Prop where
  shows : Shows ids dicts.parent f
  rank : ∀ x ∈ ids, dicts.rank x = some (f.rank x)

section Simulation

variable {ids : Finset ℕ} {parent : ℕ → Option ℕ} {dicts : UfDicts} {f : Forest ℕ}

theorem Shows.halve (h : Shows ids parent f) {x : ℕ} (hx : x ∈ ids) :
    Shows ids (Function.update parent x (some (f.parent (f.parent x)))) (f.halve x) where
  parent y hy := by
    by_cases hyx : y = x
    · rw [hyx, Function.update_self, f.halve_parent_self]
    · rw [Function.update_of_ne hyx, f.halve_parent_of_ne hyx]
      exact h.parent y hy
  closed y hy := by
    by_cases hyx : y = x
    · rw [hyx, f.halve_parent_self]
      exact h.closed _ (h.closed x hx)
    · rw [f.halve_parent_of_ne hyx]
      exact h.closed y hy

theorem Shows.find (h : Shows ids parent f) {x : ℕ} (hx : x ∈ ids) {turns : ℕ}
    (hturns : f.height - f.rank x < turns) :
    ∃ parent', findWithin turns parent x = some (parent', (f.find x).2) ∧
      Shows ids parent' (f.find x).1 ∧ (f.find x).2 ∈ ids := by
  -- A search ends in fewer turns than the ranks above its start allow.
  -- The recursion of the search carries both: each turn climbs at least one rank.
  induction f, x using Memclaw.Lib.UnionFind.Forest.find.induct generalizing parent turns with
  | case1 f x hroot =>
    obtain ⟨turns, rfl⟩ := Nat.exists_eq_add_one_of_ne_zero (Nat.ne_zero_of_lt hturns)
    have hp : parent x = some x := (h.parent x hx).trans (congrArg some hroot)
    refine ⟨parent, ?_, ?_⟩
    · rw [findWithin, hp, Forest.find_of_root hroot]
      exact if_pos rfl
    · rw [Forest.find_of_root hroot]
      exact ⟨h, hx⟩
  | case2 f x hroot ih =>
    obtain ⟨turns, rfl⟩ := Nat.exists_eq_add_one_of_ne_zero (Nat.ne_zero_of_lt hturns)
    have habove : f.parent (f.parent x) ∈ ids := h.closed _ (h.closed x hx)
    have hclimbs : f.height - f.rank (f.parent (f.parent x)) < turns :=
      lt_of_lt_of_le (f.search_lt hroot) (Nat.le_of_lt_succ hturns)
    obtain ⟨parent', hrun, hshows⟩ := ih (h.halve hx) habove hclimbs
    refine ⟨parent', ?_, ?_⟩
    · rw [findWithin, h.parent x hx, Option.bind_eq_bind, Option.bind_some, if_neg hroot,
        h.parent _ (h.closed x hx), Option.bind_some, hrun, Forest.find_of_ne hroot]
    · rwa [Forest.find_of_ne hroot]

theorem Holds.link (h : Holds ids dicts f) {upper lower : ℕ} (hupper : f.parent upper = upper)
    (hne : lower ≠ upper) (hrank : f.rank lower ≤ f.rank upper) (hin : upper ∈ ids)
    (hlower : lower ∈ ids) :
    ∃ dicts', dicts.attach upper lower = some dicts' ∧
      Holds ids dicts' (f.link upper lower hupper hne hrank) := by
  have hrun : dicts.attach upper lower = some
      { parent := Function.update dicts.parent lower (some upper)
        rank :=
          if f.rank upper = f.rank lower then
            Function.update dicts.rank upper (some (f.rank upper + 1))
          else dicts.rank } := by
    rw [UfDicts.attach, h.rank upper hin, h.rank lower hlower]
    rfl
  refine ⟨_, hrun, ⟨fun x hx => ?_, fun x hx => ?_⟩, fun x hx => ?_⟩
  · show Function.update dicts.parent lower (some upper) x =
      some (Function.update f.parent lower upper x)
    by_cases hxl : x = lower
    · rw [hxl, Function.update_self, Function.update_self]
    · rw [Function.update_of_ne hxl, Function.update_of_ne hxl]
      exact h.shows.parent x hx
  · show Function.update f.parent lower upper x ∈ ids
    by_cases hxl : x = lower
    · rw [hxl, Function.update_self]
      exact hin
    · rw [Function.update_of_ne hxl]
      exact h.shows.closed x hx
  · show (if f.rank upper = f.rank lower then
        Function.update dicts.rank upper (some (f.rank upper + 1)) else dicts.rank) x =
      some ((if f.rank upper = f.rank lower then
        Function.update f.rank upper (f.rank upper + 1) else f.rank) x)
    split
    · by_cases hxu : x = upper
      · rw [hxu, Function.update_self, Function.update_self]
      · rw [Function.update_of_ne hxu, Function.update_of_ne hxu]
        exact h.rank x hx
    · exact h.rank x hx

/-- The dictionaries follow the forest through a union. -/
theorem Holds.union (h : Holds ids dicts f) {a b : ℕ} (ha : a ∈ ids) (hb : b ∈ ids) {turns : ℕ}
    (hturns : f.height < turns) :
    ∃ dicts', unionWithin turns dicts a b = some dicts' ∧ Holds ids dicts' (f.union a b) := by
  obtain ⟨parent, hfirst, hshows, hin⟩ :=
    h.shows.find ha (lt_of_le_of_lt (Nat.sub_le _ _) hturns)
  obtain ⟨hrank, hheight⟩ := f.find_rank a
  have hturns' : (f.find a).1.height - (f.find a).1.rank b < turns :=
    lt_of_le_of_lt ((Nat.sub_le _ _).trans hheight.le) hturns
  obtain ⟨parent', hsecond, hshows', hin'⟩ := hshows.find hb hturns'
  have hrank' : ∀ x ∈ ids, dicts.rank x = some (((f.find a).1.find b).1.rank x) := fun x hx => by
    rw [((f.find a).1.find_rank b).1, hrank]
    exact h.rank x hx
  have hmoved : Holds ids { dicts with parent := parent' } ((f.find a).1.find b).1 :=
    ⟨hshows', hrank'⟩
  have hrun : unionWithin turns dicts a b =
      if (f.find a).2 = ((f.find a).1.find b).2 then some { dicts with parent := parent' }
      else if ((f.find a).1.find b).1.rank (f.find a).2 <
          ((f.find a).1.find b).1.rank ((f.find a).1.find b).2 then
        UfDicts.attach { dicts with parent := parent' } ((f.find a).1.find b).2 (f.find a).2
      else UfDicts.attach { dicts with parent := parent' } (f.find a).2
        ((f.find a).1.find b).2 := by
    rw [unionWithin, hfirst]
    simp only [Option.bind_eq_bind, Option.bind_some, hsecond, hrank' _ hin, hrank' _ hin']
  rw [hrun]
  unfold Forest.union
  dsimp only
  split
  · exact ⟨_, rfl, hmoved⟩
  · split
    · exact hmoved.link _ _ _ hin' hin
    · exact hmoved.link _ _ _ hin hin'

theorem Holds.unions {pairs : List (ℕ × ℕ)} (h : Holds ids dicts f)
    (hpairs : ∀ pair ∈ pairs, pair.1 ∈ ids ∧ pair.2 ∈ ids) {turns : ℕ}
    (hturns : f.height + pairs.length < turns) :
    ∃ dicts', unionsWithin turns dicts pairs = some dicts' ∧ Holds ids dicts' (f.unions pairs) ∧
      (f.unions pairs).height ≤ f.height + pairs.length := by
  induction pairs generalizing dicts f with
  | nil => exact ⟨dicts, rfl, h, le_rfl⟩
  | cons pair pairs ih =>
    obtain ⟨hfst, hsnd⟩ := hpairs pair List.mem_cons_self
    rw [List.length_cons] at hturns ⊢
    have hheight := f.union_height_le pair.1 pair.2
    obtain ⟨dicts', hrun, hholds⟩ := h.union hfst hsnd (by omega : f.height < turns)
    obtain ⟨dicts'', hrest, hholds', hle⟩ := ih hholds
      (fun p hp => hpairs p (List.mem_cons_of_mem pair hp)) (by omega)
    refine ⟨dicts'', ?_, hholds', ?_⟩
    · rw [unionsWithin, hrun]
      exact hrest
    · exact hle.trans (by omega)

theorem Shows.collect (h : Shows ids parent f) {uids : List ℕ} (huids : ∀ uid ∈ uids, uid ∈ ids)
    {turns : ℕ} (hturns : f.height < turns) (clusters : List Cluster) :
    collectWithin turns parent uids clusters = some (collectClusters f uids clusters) := by
  induction uids generalizing parent f clusters with
  | nil => rfl
  | cons uid uids ih =>
    obtain ⟨parent', hfind, hshows, -⟩ := h.find (huids uid List.mem_cons_self)
      (lt_of_le_of_lt (Nat.sub_le _ _) hturns)
    have hrest := ih hshows (fun u hu => huids u (List.mem_cons_of_mem uid hu))
      ((f.find_rank uid).2 ▸ hturns) (appendTo (f.find uid).2 uid clusters)
    rw [collectWithin, hfind]
    exact hrest

end Simulation

theorem singletons_holds (ids : Finset ℕ) : Holds ids (UfDicts.singletons ids) Forest.singletons :=
  ⟨⟨fun _ hx => if_pos hx, fun _ hx => hx⟩, fun _ hx => if_pos hx⟩

theorem mem_allIds {pairs : List (ℕ × ℕ)} {pair : ℕ × ℕ} (h : pair ∈ pairs) :
    pair.1 ∈ allIds pairs ∧ pair.2 ∈ allIds pairs := by
  constructor <;>
  · rw [allIds, List.mem_toFinset, List.mem_flatMap]
    exact ⟨pair, h, by simp⟩

theorem unionsWithin_some {before after : List (ℕ × ℕ)} {turns : ℕ}
    (hturns : (before ++ after).length < turns) :
    ∃ dicts, unionsWithin turns (UfDicts.singletons (allIds (before ++ after))) before =
        some dicts ∧
      Holds (allIds (before ++ after)) dicts (Forest.singletons.unions before) ∧
      (Forest.singletons.unions before).height < turns := by
  rw [List.length_append] at hturns
  obtain ⟨dicts, hrun, hholds, hle⟩ := (singletons_holds (allIds (before ++ after))).unions
    (fun pair hpair => mem_allIds (List.mem_append_left after hpair))
    (by omega : 0 + before.length < turns)
  refine ⟨dicts, hrun, hholds, lt_of_le_of_lt hle ?_⟩
  show 0 + before.length < turns
  omega

theorem clustersWithin_eq {pairs : List (ℕ × ℕ)} {turns : ℕ} (hturns : pairs.length < turns)
    (order : SetOrder) : clustersWithin turns order pairs = some (clustersOf order pairs) := by
  have hturns' : (pairs ++ []).length < turns := by rwa [List.append_nil]
  obtain ⟨dicts, hrun, hholds, hheight⟩ := unionsWithin_some hturns'
  rw [List.append_nil] at hrun hholds
  rw [clustersWithin, hrun]
  exact hholds.shows.collect (fun uid huid => (order.mem_list _ uid).mp huid) hheight []

def idsUnder (clusters : List Cluster) (root : ℕ) : List ℕ :=
  ((Keyed.get Prod.fst clusters root).map Prod.snd).getD []

structure Grouped (rootOf : ℕ → ℕ) (seen : List ℕ) (clusters : List Cluster) : Prop where
  unique : Keyed.Unique Prod.fst clusters
  ids : ∀ r, idsUnder clusters r = seen.filter fun uid => rootOf uid = r

theorem appendTo_eq_upsert (root uid : ℕ) (clusters : List Cluster) :
    appendTo root uid clusters = Groups.upsert root (fun ids => ids.getD [] ++ [uid]) clusters := by
  induction clusters with
  | nil => rfl
  | cons cluster clusters ih => rw [appendTo, Groups.upsert, ih, Option.getD_some]

theorem idsUnder_appendTo (root uid r : ℕ) (clusters : List Cluster) :
    idsUnder (appendTo root uid clusters) r =
      if root = r then idsUnder clusters r ++ [uid] else idsUnder clusters r := by
  have hvalue := Groups.value_upsert root r (fun ids => ids.getD [] ++ [uid]) clusters
  show (Groups.value (appendTo root uid clusters) r).getD [] = _
  rw [appendTo_eq_upsert, hvalue]
  split_ifs with hr
  · rw [← hr]
    rfl
  · rfl

theorem appendTo_unique {root uid : ℕ} {clusters : List Cluster}
    (h : Keyed.Unique Prod.fst clusters) : Keyed.Unique Prod.fst (appendTo root uid clusters) := by
  rw [appendTo_eq_upsert]
  exact Groups.upsert_unique h

theorem Grouped.append {rootOf : ℕ → ℕ} {seen : List ℕ} {clusters : List Cluster}
    (h : Grouped rootOf seen clusters) (uid : ℕ) :
    Grouped rootOf (seen ++ [uid]) (appendTo (rootOf uid) uid clusters) where
  unique := appendTo_unique h.unique
  ids r := by
    rw [idsUnder_appendTo, h.ids, List.filter_append]
    by_cases hr : rootOf uid = r
    · simp [hr]
    · simp [hr]

theorem collectClusters_grouped {forest : Forest ℕ} {rootOf : ℕ → ℕ} (hroots : forest.Roots rootOf)
    {seen ids : List ℕ} {clusters : List Cluster} (h : Grouped rootOf seen clusters) :
    Grouped rootOf (seen ++ ids) (collectClusters forest ids clusters) := by
  induction ids generalizing forest seen clusters with
  | nil => rwa [List.append_nil]
  | cons uid ids ih =>
    obtain ⟨hfound, hkept⟩ := hroots.find uid
    have hstep := ih hkept (h.append uid)
    rw [List.append_assoc, List.singleton_append] at hstep
    rw [collectClusters, entityUfFind, hfound]
    exact hstep

theorem Grouped.mem_iff {rootOf : ℕ → ℕ} {seen : List ℕ} {clusters : List Cluster}
    (h : Grouped rootOf seen clusters) {cluster : Cluster} (hcluster : cluster ∈ clusters) (x : ℕ) :
    x ∈ cluster.2 ↔ x ∈ seen ∧ rootOf x = cluster.1 := by
  have hids : idsUnder clusters cluster.1 = cluster.2 := by
    rw [idsUnder, Keyed.get_of_mem h.unique hcluster]
    rfl
  rw [← hids, h.ids, List.mem_filter, decide_eq_true_eq]

theorem appendTo_nonempty {root uid : ℕ} {clusters : List Cluster} (h : ∀ c ∈ clusters, c.2 ≠ []) :
    ∀ c ∈ appendTo root uid clusters, c.2 ≠ [] := by
  induction clusters with
  | nil =>
    intro c hc
    rw [List.mem_singleton.mp hc]
    exact List.cons_ne_nil _ _
  | cons first rest ih =>
    obtain ⟨hfirst, hrest⟩ := List.forall_mem_cons.mp h
    rw [appendTo]
    split
    · refine List.forall_mem_cons.mpr ⟨?_, hrest⟩
      exact List.append_ne_nil_of_right_ne_nil _ (List.cons_ne_nil _ _)
    · exact List.forall_mem_cons.mpr ⟨hfirst, ih hrest⟩

theorem collectClusters_nonempty {uids : List ℕ} {f : Forest ℕ} {clusters : List Cluster}
    (h : ∀ c ∈ clusters, c.2 ≠ []) : ∀ c ∈ collectClusters f uids clusters, c.2 ≠ [] := by
  induction uids generalizing f clusters with
  | nil => exact h
  | cons uid uids ih => exact ih (appendTo_nonempty h)

def Linked (pairs : List (ℕ × ℕ)) : ℕ → ℕ → Prop := Relation.EqvGen fun a b => (a, b) ∈ pairs

section Classes

variable {pairs : List (ℕ × ℕ)}

theorem clustersOf_grouped (order : SetOrder) (pairs : List (ℕ × ℕ)) : ∃ rootOf : ℕ → ℕ,
    (∀ a b, rootOf a = rootOf b ↔ Linked pairs a b) ∧
      Grouped rootOf (order.list (allIds pairs)) (clustersOf order pairs) := by
  obtain ⟨rootOf, hroots, hclasses⟩ := Forest.singletons_unions pairs
  refine ⟨rootOf, hclasses, ?_⟩
  have hnone : Grouped rootOf [] [] := ⟨List.nodup_nil, fun r => rfl⟩
  exact collectClusters_grouped hroots hnone

theorem mem_allIds_of_linked {a b : ℕ} (h : Linked pairs a b) :
    a = b ∨ a ∈ allIds pairs ∧ b ∈ allIds pairs := by
  induction h with
  | rel a b hab => exact .inr (mem_allIds hab)
  | refl a => exact .inl rfl
  | symm a b _ ih => exact ih.imp Eq.symm And.symm
  | trans a b c _ _ hab hbc =>
    rcases hab with rfl | hab
    · exact hbc
    · rcases hbc with rfl | hbc
      · exact .inr hab
      · exact .inr ⟨hab.1, hbc.2⟩

theorem mem_linked_iff {order : SetOrder} {cluster : Cluster}
    (h : cluster ∈ clustersOf order pairs) {d : ℕ} (hd : d ∈ cluster.2) (x : ℕ) :
    x ∈ cluster.2 ↔ Linked pairs x d := by
  obtain ⟨rootOf, hclasses, hgrouped⟩ := clustersOf_grouped order pairs
  rw [hgrouped.mem_iff h, order.mem_list] at hd ⊢
  rw [← hclasses, hd.2]
  refine ⟨And.right, fun hx => ⟨?_, hx⟩⟩
  rcases mem_allIds_of_linked ((hclasses x d).mp (hx.trans hd.2.symm)) with rfl | hboth
  · exact hd.1
  · exact hboth.1

theorem mem_allIds_of_cluster {order : SetOrder} {cluster : Cluster}
    (h : cluster ∈ clustersOf order pairs) {d : ℕ} (hd : d ∈ cluster.2) : d ∈ allIds pairs := by
  obtain ⟨rootOf, -, hgrouped⟩ := clustersOf_grouped order pairs
  exact (order.mem_list _ d).mp ((hgrouped.mem_iff h d).mp hd).1

theorem exists_cluster (order : SetOrder) {d : ℕ} (hd : d ∈ allIds pairs) :
    ∃ cluster ∈ clustersOf order pairs, d ∈ cluster.2 := by
  obtain ⟨rootOf, -, hgrouped⟩ := clustersOf_grouped order pairs
  have hmem : d ∈ idsUnder (clustersOf order pairs) (rootOf d) := by
    rw [hgrouped.ids, List.mem_filter, order.mem_list]
    exact ⟨hd, decide_eq_true rfl⟩
  unfold idsUnder at hmem
  cases hget : Keyed.get Prod.fst (clustersOf order pairs) (rootOf d) with
  | none =>
    rw [hget] at hmem
    exact absurd hmem List.not_mem_nil
  | some cluster =>
    rw [hget] at hmem
    exact ⟨cluster, (Keyed.mem_of_get hget).1, hmem⟩

theorem clustersOf_disjoint (order : SetOrder) (pairs : List (ℕ × ℕ)) :
    (clustersOf order pairs).Pairwise fun a b => ∀ id ∈ b.2, id ∉ a.2 := by
  obtain ⟨rootOf, -, hgrouped⟩ := clustersOf_grouped order pairs
  have hkeys : (clustersOf order pairs).Pairwise fun a b => a.1 ≠ b.1 :=
    List.pairwise_map.mp hgrouped.unique
  refine hkeys.imp_of_mem fun {a b} ha hb hne id hidb hida => hne ?_
  rw [← ((hgrouped.mem_iff ha id).mp hida).2, ((hgrouped.mem_iff hb id).mp hidb).2]

end Classes

def partition (clusters : List Cluster) : Set (Set ℕ) :=
  {ids | ∃ c ∈ clusters, ids = {id | id ∈ c.2}}

theorem partition_eq (order : SetOrder) (pairs : List (ℕ × ℕ)) :
    partition (clustersOf order pairs) =
      {ids | ∃ a ∈ allIds pairs, ids = {b | Linked pairs b a}} := by
  ext ids
  constructor
  · rintro ⟨c, hc, rfl⟩
    -- A cluster is made for an id, so that it is the class of one.
    obtain ⟨a, ha⟩ : ∃ a, a ∈ c.2 :=
      List.exists_mem_of_ne_nil _ (collectClusters_nonempty (List.forall_mem_nil _) c hc)
    refine ⟨a, mem_allIds_of_cluster hc ha, ?_⟩
    ext b
    exact mem_linked_iff hc ha b
  · rintro ⟨a, ha, rfl⟩
    obtain ⟨c, hc, hac⟩ := exists_cluster order ha
    refine ⟨c, hc, ?_⟩
    ext b
    exact (mem_linked_iff hc hac b).symm

theorem linked_of_perm {pairs pairs' : List (ℕ × ℕ)} (h : pairs'.Perm pairs) :
    Linked pairs' = Linked pairs := by
  unfold Linked
  simp only [h.mem_iff]

theorem allIds_of_perm {pairs pairs' : List (ℕ × ℕ)} (h : pairs'.Perm pairs) :
    allIds pairs' = allIds pairs := by
  ext uid
  simp only [allIds, List.mem_toFinset, List.mem_flatMap, h.mem_iff]

/-- The clustering ends, whatever is searched for between two unions or behind them, and its
clusters are the connected components of the pairs, in whatever order these come. -/
structure ByConnection (pairs : List (ℕ × ℕ)) : Prop where
  searches : ∀ before after, before ++ after = pairs → ∀ turns, pairs.length < turns →
    ∃ dicts, unionsWithin turns (UfDicts.singletons (allIds pairs)) before = some dicts ∧
      ∀ x ∈ allIds pairs, (findWithin turns dicts.parent x).isSome = true
  ends : ∀ turns, pairs.length < turns → ∀ order,
    clustersWithin turns order pairs = some (clustersOf order pairs)
  same : ∀ order, ∀ a ∈ allIds pairs, ∀ b ∈ allIds pairs,
    (∃ c ∈ clustersOf order pairs, a ∈ c.2 ∧ b ∈ c.2) ↔ Linked pairs a b
  anyOrder : ∀ order order' pairs', pairs'.Perm pairs →
    partition (clustersOf order' pairs') = partition (clustersOf order pairs)

theorem byConnection (pairs : List (ℕ × ℕ)) : ByConnection pairs where
  searches := by
    rintro before after rfl turns hturns
    obtain ⟨dicts, hrun, hholds, hheight⟩ := unionsWithin_some hturns
    refine ⟨dicts, hrun, fun x hx => ?_⟩
    obtain ⟨parent', hfind, -⟩ :=
      hholds.shows.find hx (lt_of_le_of_lt (Nat.sub_le _ _) hheight)
    rw [hfind]
    rfl
  ends turns hturns order := clustersWithin_eq hturns order
  same order a ha b hb := by
    constructor
    · rintro ⟨c, hc, hac, hbc⟩
      exact (mem_linked_iff hc hbc a).mp hac
    · intro hlinked
      obtain ⟨c, hc, hbc⟩ := exists_cluster order hb
      exact ⟨c, hc, (mem_linked_iff hc hbc a).mpr hlinked, hbc⟩
  anyOrder order order' pairs' hperm := by
    rw [partition_eq, partition_eq, linked_of_perm hperm, allIds_of_perm hperm]

section Entities

variable {V W D : Type} [LinearOrder D] {q : ResolveRequest V D} {t : Tables V W}

omit [LinearOrder D] in
theorem mem_embedded {row : Entity V × V} (h : row ∈ embedded q t) :
    row.1 ∈ t.entities ∧ q.inScope row.1 = true := by
  obtain ⟨e, he, hrow⟩ := List.mem_filterMap.mp h
  split at hrow
  · next hscope =>
    obtain ⟨v, -, rfl⟩ := Option.map_eq_some_iff.mp hrow
    exact ⟨he, hscope⟩
  · exact nomatch hrow

theorem rows_of_pair {pair : ℕ × ℕ} (h : pair ∈ similarPairs q t) :
    ∃ b ∈ t.entities, ∃ nb ∈ t.entities, b.id = pair.1 ∧ nb.id = pair.2 ∧
      q.inScope b = true ∧ q.inScope nb = true ∧ nb.entityType = b.entityType := by
  -- The two ends of a pair are rows of the scope, and of one type.
  obtain ⟨b, hb, hpair⟩ := List.mem_flatMap.mp h
  obtain ⟨nb, hnb, rfl⟩ := List.mem_map.mp hpair
  obtain ⟨hbrow, hbscope⟩ := mem_embedded (List.mem_mergeSort.mp (List.mem_of_mem_take hb))
  obtain ⟨hnear, hmatches⟩ :=
    List.mem_filter.mp (List.mem_mergeSort.mp (List.mem_of_mem_take hnb))
  obtain ⟨hnbrow, hnbscope⟩ := mem_embedded hnear
  simp only [Bool.and_eq_true, decide_eq_true_eq] at hmatches
  exact ⟨b.1, hbrow, nb.1, hnbrow, rfl, rfl, hbscope, hnbscope, hmatches.1.2⟩

theorem inScope_of_allIds (ht : Keyed.Unique Entity.id t.entities) {e : Entity V}
    (he : e ∈ t.entities) (hid : e.id ∈ allIds (similarPairs q t)) : q.inScope e = true := by
  obtain ⟨pair, hpair, hend⟩ := List.mem_flatMap.mp (List.mem_toFinset.mp hid)
  obtain ⟨b, hb, nb, hnb, hfst, hsnd, hbscope, hnbscope, -⟩ := rows_of_pair hpair
  rcases List.mem_cons.mp hend with hsame | hsame
  · rwa [List.inj_on_of_nodup_map ht he hb (hsame.trans hfst.symm)]
  · rwa [List.inj_on_of_nodup_map ht he hnb ((List.mem_singleton.mp hsame).trans hsnd.symm)]

theorem typeOf_linked (ht : Keyed.Unique Entity.id t.entities) {a b : ℕ}
    (h : Linked (similarPairs q t) a b) :
    (Keyed.get Entity.id t.entities a).map Entity.entityType =
      (Keyed.get Entity.id t.entities b).map Entity.entityType := by
  induction h with
  | rel a b hab =>
    obtain ⟨e, he, e', he', rfl, rfl, -, -, htype⟩ := rows_of_pair hab
    rw [Keyed.get_of_mem ht he, Keyed.get_of_mem ht he', Option.map_some, Option.map_some, htype]
  | refl a => rfl
  | symm a b _ ih => exact ih.symm
  | trans a b c _ _ hab hbc => exact hab.trans hbc

def OneKind (q : ResolveRequest V D) (entities : List (Entity V)) : Prop :=
  ∀ e ∈ entities, ∀ e' ∈ entities, e.entityType = e'.entityType ∧
    ∀ fleetId, q.fleetId = some fleetId → e.fleetId = some fleetId ∧ e'.fleetId = some fleetId

omit [LinearOrder D] in
theorem inScope_fleet {e : Entity V} (h : q.inScope e = true) {fleetId : String}
    (hfleet : q.fleetId = some fleetId) : e.fleetId = some fleetId := by
  rw [ResolveRequest.inScope, hfleet, Bool.and_eq_true] at h
  exact of_decide_eq_true h.2

theorem members_oneKind (ht : Keyed.Unique Entity.id t.entities) {order : SetOrder} {c : Cluster}
    (hc : c ∈ clustersOf order (similarPairs q t)) : OneKind q (t.members q.tenantId c.2) := by
  have hrow : ∀ e ∈ t.members q.tenantId c.2, e ∈ t.entities ∧ e.id ∈ c.2 := by
    intro e he
    obtain ⟨hmem, hboth⟩ := List.mem_filter.mp he
    exact ⟨hmem, of_decide_eq_true (Bool.and_eq_true_iff.mp hboth).1⟩
  intro e he e' he'
  obtain ⟨hmem, hin⟩ := hrow e he
  obtain ⟨hmem', hin'⟩ := hrow e' he'
  refine ⟨?_, fun fleetId hfleet => ?_⟩
  · have htypes := typeOf_linked ht ((mem_linked_iff hc hin' e.id).mp hin)
    rw [Keyed.get_of_mem ht hmem, Keyed.get_of_mem ht hmem'] at htypes
    exact Option.some.inj htypes
  · exact ⟨inScope_fleet (inScope_of_allIds ht hmem (mem_allIds_of_cluster hc hin)) hfleet,
      inScope_fleet (inScope_of_allIds ht hmem' (mem_allIds_of_cluster hc hin')) hfleet⟩

variable [LinearOrder W]

/-- The clusters of duplicates are connected components, found in finitely many turns, and what is
merged at the turn of a cluster has one type and one fleet. -/
theorem duplicates_by_connection (ht : t.WellKeyed) :
    (∀ pairs, ByConnection pairs) ∧
      ∀ order before c after, clustersOf order (similarPairs q t) = before ++ c :: after →
        OneKind q ((before.foldl (processCluster q.tenantId) ⟨t, 0, [], 0, 0⟩).tables.members
          q.tenantId c.2) := by
  refine ⟨byConnection, fun order before c after hsplit => ?_⟩
  have hdisjoint := clustersOf_disjoint order (similarPairs q t)
  rw [hsplit, List.pairwise_append] at hdisjoint
  obtain ⟨-, hmerged⟩ := processClusters_merged (t := t) (s := ⟨t, 0, [], 0, 0⟩)
    (Merged.refl ht []) q.tenantId hdisjoint.1 fun cluster _ id _ => List.not_mem_nil
  rw [hmerged.members q.tenantId]
  · exact members_oneKind ht.entities (hsplit ▸ List.mem_append_right _ List.mem_cons_self)
  · -- The merges so far were in other clusters.
    intro id hid htouched
    rw [List.nil_append] at htouched
    obtain ⟨other, hother, hin⟩ := List.mem_flatMap.mp htouched
    exact hdisjoint.2.2 other hother c List.mem_cons_self id hid hin

end Entities

def sortedOrder : SetOrder where
  list s := s.sort (· ≤ ·)
  nodup s := s.sort_nodup (· ≤ ·)
  mem_list _ _ := Finset.mem_sort (· ≤ ·)

def sampleRequest : ResolveRequest ℕ ℕ where
  tenantId := "t"
  fleetId := none
  batchSize := 10
  candidateLimit := 5
  distance a b := a - b + (b - a)
  similar distance := distance ≤ 1

def shortName : Entity ℕ := ⟨1, "t", none, "person", "Ada", none, some 4⟩

def longName : Entity ℕ := ⟨2, "t", none, "person", "Ada Lovelace", none, some 5⟩

def twoNames : Tables ℕ ℕ := ⟨[shortName, longName], [], [], []⟩

theorem twoNames_by_connection :
    clustersWithin 2 sortedOrder [(1, 2)] = some (clustersOf sortedOrder [(1, 2)]) ∧
      (∃ c ∈ clustersOf sortedOrder [(1, 2)], 1 ∈ c.2 ∧ 2 ∈ c.2) ∧
      ∀ order before c after,
        clustersOf order (similarPairs sampleRequest twoNames) = before ++ c :: after →
          OneKind sampleRequest ((before.foldl (processCluster sampleRequest.tenantId)
            ⟨twoNames, 0, [], 0, 0⟩).tables.members sampleRequest.tenantId c.2) := by
  have hkeyed : twoNames.WellKeyed := ⟨by decide, by decide, by decide⟩
  obtain ⟨hpairs, hkind⟩ := duplicates_by_connection (q := sampleRequest) hkeyed
  have hlinked : Linked [(1, 2)] 1 2 := .rel _ _ (List.mem_singleton.mpr rfl)
  refine ⟨(hpairs _).ends 2 (by decide) sortedOrder, ?_, hkind⟩
  exact ((hpairs [(1, 2)]).same sortedOrder 1 (by decide) 2 (by decide)).mpr hlinked

end Memclaw.Entities

import Mathlib.Algebra.Order.Ring.Rat
import Mathlib.Tactic.Linarith
import Memclaw.Lib.Keyed
import Memclaw.Lib.Nearest
import Memclaw.Search.LookupDefs

/-! The entity boost of `parallel_embed_entity_boost`: a factor for each memory that is linked to an
entity near the matched ones, in binary64 arithmetic. It rewards links exactly where no link has a
product below 1, no bonus takes from a factor, and no stronger link is cut off by one to a matched
entity. -/

namespace Memclaw.Search

open Memclaw.Lib
open Memclaw.Lib.Binary64 (nearest nearest_mono)
open Memclaw.Entities (MemoryEntityLink Reached)

-- A float is the rational that it stands for, and every literal and operation rounds to one.

/-- `GRAPH_HOP_BOOST`; a farther hop has the factor of the farthest in it. -/
def graphHopBoost : ℕ → ℚ
  | 0 => nearest (13 / 10)
  | 1 => nearest (12 / 10)
  | _ => nearest (11 / 10)

def recallBoostCap : ℚ := nearest (11 / 10)

def hopBoost (reached : Reached ℚ) : ℚ := nearest (graphHopBoost reached.hop * reached.weight)

abbrev BoostFactors := List (ℕ × ℚ)

/-- The loop over the links. It breaks with the memory that fills the cap. -/
def linkBoosts (hops : EntityHops ℚ) : List MemoryEntityLink → BoostFactors → BoostFactors
  | [], factors => factors
  | link :: links, factors =>
    match hops.get link.entityId with
    | none => linkBoosts hops links factors
    | some hop =>
      let factors := Groups.upsert link.memoryId (Keyed.keep (hopBoost hop)) factors
      if graphMaxBoostedMemories ≤ factors.length then factors else linkBoosts hops links factors

def memoryEntityCount (matched : List ℕ) (links : List MemoryEntityLink) : List (ℕ × ℕ) :=
  Groups.collect MemoryEntityLink.memoryId (fun _ count => count.getD 0 + 1) []
    (links.filter fun link => link.entityId ∈ matched)

def extra (count : ℕ) : ℚ := nearest ((min (count - 1) 4 : ℕ) * nearest (1 / 10))

def multiEntityBoost (count : ℕ) (factor : ℚ) : ℚ :=
  if 1 < count ∧ 1 < factor then
    min (nearest (factor * nearest (1 + extra count))) recallBoostCap
  else factor

def memoryBoostFactor (hops : EntityHops ℚ) (matched : List ℕ) (rawLinks : List MemoryEntityLink) :
    BoostFactors :=
  if matched = [] then []
  else
    let allLinks := rawLinks.insertionSort (byDistance hops)
    let factors := linkBoosts hops allLinks []
    if 1 < matched.length then
      let counts := memoryEntityCount matched allLinks
      factors.map fun entry =>
        (entry.1, multiEntityBoost ((Groups.value counts entry.1).getD 0) entry.2)
    else factors

/-- The factor of the scored search, which has the memories in tiers of equal factors. -/
def entityBoost (factors : BoostFactors) (memoryId : ℕ) : ℚ :=
  (Groups.value factors memoryId).getD 1

variable {hops : EntityHops ℚ} {matched : List ℕ} {links : List MemoryEntityLink}
  {factors : BoostFactors}

def matchCount (matched : List ℕ) (links : List MemoryEntityLink) (memoryId : ℕ) : ℕ :=
  links.countP fun link => link.memoryId = memoryId && decide (link.entityId ∈ matched)

def withBonus (matched : List ℕ) (count : ℕ) (factor : ℚ) : ℚ :=
  if 1 < matched.length then multiEntityBoost count factor else factor

theorem value_memoryEntityCount (matched : List ℕ) (links : List MemoryEntityLink) (m : ℕ) :
    (Groups.value (memoryEntityCount matched links) m).getD 0 = matchCount matched links m := by
  have hfold : ∀ (events : List MemoryEntityLink) (count : Option ℕ),
      (events.foldl (fun count _ => some (count.getD 0 + 1)) count).getD 0 =
        count.getD 0 + events.length := by
    intro events
    induction events with
    | nil => exact fun count => rfl
    | cons e events ih =>
      intro count
      rw [List.foldl_cons, ih, List.length_cons]
      show count.getD 0 + 1 + events.length = _
      omega
  rw [memoryEntityCount, Groups.value_collect, hfold, List.filter_filter, matchCount,
    List.countP_eq_length_filter]
  exact Nat.zero_add _

theorem matchCount_perm {links' : List MemoryEntityLink} (h : links.Perm links') (m : ℕ) :
    matchCount matched links m = matchCount matched links' m := h.countP_eq _

/-- The cap is a number of the format, and the bonus of a second entity already reaches it. -/
theorem recallBoostCap_facts : 1 < recallBoostCap ∧ nearest recallBoostCap = recallBoostCap ∧
    (0 : ℚ) ≤ nearest (1 / 10) ∧
      recallBoostCap ≤ nearest (1 + nearest ((1 : ℕ) * nearest (1 / 10))) := by
  decide +kernel

theorem one_lt_recallBoostCap : 1 < recallBoostCap := recallBoostCap_facts.1

theorem recallBoostCap_le_bonus {count : ℕ} (hcount : 1 < count) :
    recallBoostCap ≤ nearest (1 + extra count) := by
  obtain ⟨-, -, htenth, hone⟩ := recallBoostCap_facts
  refine hone.trans (nearest_mono (add_le_add_right (nearest_mono ?_) 1))
  refine mul_le_mul_of_nonneg_right ?_ htenth
  exact_mod_cast (by omega : 1 ≤ min (count - 1) 4)

theorem multiEntityBoost_of_lt {count : ℕ} {factor : ℚ} (hcount : 1 < count)
    (hfactor : 1 < factor) : multiEntityBoost count factor = recallBoostCap := by
  -- The bonus lifts a factor above 1 over the cap of the boost, so the cap is what is left.
  have hcap : nearest recallBoostCap = recallBoostCap := recallBoostCap_facts.2.1
  have hbonus := recallBoostCap_le_bonus hcount
  rw [multiEntityBoost, if_pos ⟨hcount, hfactor⟩]
  refine min_eq_right ?_
  calc recallBoostCap = nearest recallBoostCap := hcap.symm
    _ ≤ nearest (factor * nearest (1 + extra count)) := by
      refine nearest_mono (hbonus.trans (le_mul_of_one_le_left ?_ hfactor.le))
      exact (zero_le_one.trans one_lt_recallBoostCap.le).trans hbonus

theorem withBonus_eq (matched : List ℕ) (count : ℕ) (factor : ℚ) :
    withBonus matched count factor =
      if 1 < matched.length ∧ 1 < count ∧ 1 < factor then recallBoostCap else factor := by
  unfold withBonus
  by_cases hmatched : 1 < matched.length
  · rw [if_pos hmatched]
    by_cases hbonus : 1 < count ∧ 1 < factor
    · rw [if_pos ⟨hmatched, hbonus⟩, multiEntityBoost_of_lt hbonus.1 hbonus.2]
    · rw [if_neg fun h => hbonus h.2, multiEntityBoost, if_neg hbonus]
  · rw [if_neg hmatched, if_neg fun h => hmatched h.1]

theorem one_le_withBonus {count : ℕ} {factor : ℚ} (h : 1 ≤ factor) :
    1 ≤ withBonus matched count factor := by
  rw [withBonus_eq]
  split
  · exact one_lt_recallBoostCap.le
  · exact h

theorem entityBoost_eq (hmatched : matched ≠ []) (m : ℕ) :
    entityBoost (memoryBoostFactor hops matched links) m =
      ((Groups.value (linkBoosts hops (links.insertionSort (byDistance hops)) []) m).map
        (withBonus matched (matchCount matched links m))).getD 1 := by
  have hcount : (Groups.value (memoryEntityCount matched
      (links.insertionSort (byDistance hops))) m).getD 0 = matchCount matched links m := by
    rw [value_memoryEntityCount]
    exact matchCount_perm (List.perm_insertionSort _ _) m
  rw [entityBoost, memoryBoostFactor, if_neg hmatched]
  dsimp only
  unfold withBonus
  split
  · rw [← hcount]
    exact congrArg (Option.getD · 1) (Groups.value_map (fun k factor => multiEntityBoost
      ((Groups.value (memoryEntityCount matched (links.insertionSort (byDistance hops))) k).getD 0)
      factor) _ m)
  · exact congrArg (Option.getD · 1) Option.map_id'.symm

theorem entityBoost_of_value (hmatched : matched ≠ []) {m : ℕ} {factor : ℚ}
    (h : Groups.value (linkBoosts hops (links.insertionSort (byDistance hops)) []) m =
      some factor) :
    entityBoost (memoryBoostFactor hops matched links) m =
      withBonus matched (matchCount matched links m) factor := by
  rw [entityBoost_eq hmatched, h]
  rfl

theorem keep_mem (w : ℚ) (known : Option ℚ) :
    Keyed.keep w known = w ∨ some (Keyed.keep w known) = known := by
  cases known with
  | none => exact .inl rfl
  | some best =>
    by_cases h : best < w
    · exact .inl (if_pos h)
    · exact .inr (congrArg some (if_neg h))

theorem le_keep (w : ℚ) (known : Option ℚ) :
    w ≤ Keyed.keep w known ∧ ∀ best ∈ known, best ≤ Keyed.keep w known := by
  cases known with
  | none => exact ⟨le_rfl, fun best h => absurd h (Option.not_mem_none best)⟩
  | some best =>
    by_cases h : best < w
    · rw [Keyed.keep, if_pos h]
      exact ⟨le_rfl, fun b hb => Option.some.inj hb ▸ h.le⟩
    · rw [Keyed.keep, if_neg h]
      exact ⟨not_lt.mp h, fun b hb => (Option.some.inj hb).ge⟩

theorem le_linkBoosts {m : ℕ} {factor : ℚ} (h : Groups.value factors m = some factor) :
    ∃ factor', Groups.value (linkBoosts hops links factors) m = some factor' ∧
      factor ≤ factor' := by
  induction links generalizing factors factor with
  | nil => exact ⟨factor, h, le_rfl⟩
  | cons link links ih =>
    rw [linkBoosts.eq_def]
    dsimp only
    cases hops.get link.entityId with
    | none => exact ih h
    | some hop =>
      have hnext : ∃ next, Groups.value (Groups.upsert link.memoryId (Keyed.keep (hopBoost hop))
          factors) m = some next ∧ factor ≤ next := by
        rw [Groups.value_upsert]
        split
        · next hm =>
          rw [hm, h]
          exact ⟨_, rfl, (le_keep (hopBoost hop) (some factor)).2 factor rfl⟩
        · exact ⟨factor, h, le_rfl⟩
      obtain ⟨next, hnext, hle⟩ := hnext
      dsimp only
      split
      · exact ⟨next, hnext, hle⟩
      · obtain ⟨last, hlast, hle'⟩ := ih hnext
        exact ⟨last, hlast, hle.trans hle'⟩

theorem linkBoosts_source {m : ℕ} {factor : ℚ}
    (h : Groups.value (linkBoosts hops links factors) m = some factor) :
    Groups.value factors m = some factor ∨ ∃ link ∈ links, link.memoryId = m ∧
      ∃ hop, hops.get link.entityId = some hop ∧ hopBoost hop = factor := by
  -- A factor comes from a link of the memory.
  induction links generalizing factors with
  | nil => exact .inl h
  | cons link links ih =>
    rw [linkBoosts.eq_def] at h
    dsimp only at h
    cases hget : hops.get link.entityId with
    | none =>
      rw [hget] at h
      rcases ih h with hold | ⟨link', hlink', hsource⟩
      · exact .inl hold
      · exact .inr ⟨link', List.mem_cons_of_mem link hlink', hsource⟩
    | some hop =>
      rw [hget] at h
      dsimp only at h
      have hnext : Groups.value (Groups.upsert link.memoryId (Keyed.keep (hopBoost hop)) factors) m =
          some factor → Groups.value factors m = some factor ∨ link.memoryId = m ∧
            hopBoost hop = factor := by
        intro hvalue
        rw [Groups.value_upsert] at hvalue
        split at hvalue
        · next hm =>
          rcases keep_mem (hopBoost hop) (Groups.value factors link.memoryId) with hnew | hold
          · exact .inr ⟨hm, hnew.symm.trans (Option.some.inj hvalue)⟩
          · rw [hvalue] at hold
            exact .inl (hm ▸ hold.symm)
        · exact .inl hvalue
      have hfirst : Groups.value factors m = some factor ∨ link.memoryId = m ∧ hopBoost hop = factor →
          Groups.value factors m = some factor ∨ ∃ link' ∈ link :: links, link'.memoryId = m ∧
            ∃ hop, hops.get link'.entityId = some hop ∧ hopBoost hop = factor := by
        rintro (hold | ⟨hm, hboost⟩)
        · exact .inl hold
        · exact .inr ⟨link, List.mem_cons_self, hm, hop, hget, hboost⟩
      split at h
      · exact hfirst (hnext h)
      · rcases ih h with hold | ⟨link', hlink', hsource⟩
        · exact hfirst (hnext hold)
        · exact .inr ⟨link', List.mem_cons_of_mem link hlink', hsource⟩

theorem linkBoosts_append (front : List MemoryEntityLink) (factors : BoostFactors) :
    (∀ rest, linkBoosts hops (front ++ rest) factors = linkBoosts hops front factors) ∨
      ∀ rest, linkBoosts hops (front ++ rest) factors =
        linkBoosts hops rest (linkBoosts hops front factors) := by
  induction front generalizing factors with
  | nil => exact .inr fun rest => rfl
  | cons link front ih =>
    simp only [List.cons_append, linkBoosts]
    cases hops.get link.entityId with
    | none => exact ih factors
    | some hop =>
      dsimp only
      split
      · exact .inl fun rest => rfl
      · exact ih _

theorem le_linkBoosts_cons {link : MemoryEntityLink} {hop : Reached ℚ}
    (hget : hops.get link.entityId = some hop) (links : List MemoryEntityLink)
    (factors : BoostFactors) :
    ∃ factor, Groups.value (linkBoosts hops (link :: links) factors) link.memoryId = some factor ∧
      hopBoost hop ≤ factor ∧ ∀ old ∈ Groups.value factors link.memoryId, old ≤ factor := by
  have hnext : Groups.value (Groups.upsert link.memoryId (Keyed.keep (hopBoost hop)) factors)
      link.memoryId = some (Keyed.keep (hopBoost hop) (Groups.value factors link.memoryId)) := by
    rw [Groups.value_upsert, if_pos rfl]
  obtain ⟨hle, hold⟩ := le_keep (hopBoost hop) (Groups.value factors link.memoryId)
  rw [linkBoosts.eq_def]
  dsimp only
  rw [hget]
  dsimp only
  split
  · exact ⟨_, hnext, hle, hold⟩
  · obtain ⟨factor, hfactor, hge⟩ := le_linkBoosts hnext
    exact ⟨factor, hfactor, hle.trans hge, fun old h => (hold old h).trans hge⟩

/-- No product is below 1; where the bonus is paid, none is above the cap; and no entity as far as a
matched one or farther has a greater product, unless the bonus makes up for it. -/
structure Rewarding (hops : EntityHops ℚ) (matched : List ℕ) : Prop where
  product : ∀ e hop, hops.get e = some hop → 1 ≤ hopBoost hop
  bonus : 1 < matched.length → ∀ e hop, hops.get e = some hop → hopBoost hop ≤ recallBoostCap
  cut : ∀ e ∈ matched, ∀ hop, hops.get e = some hop → ∀ e' hop', hops.get e' = some hop' →
    hop.hop ≤ hop'.hop →
      hopBoost hop' ≤ hopBoost hop ∨ 1 < matched.length ∧ e' ∈ matched ∧ 1 < hopBoost hop

/-- A linked memory has a factor of at least 1, and one link more to a matched entity does not lower
the factor of its memory. -/
structure RewardsLinks (hops : EntityHops ℚ) (matched : List ℕ) : Prop where
  linked : ∀ links : List MemoryEntityLink, ∀ link ∈ links,
    (link.entityId ∈ matched ∨ (hops.get link.entityId).isSome) →
      1 ≤ entityBoost (memoryBoostFactor hops matched links) link.memoryId
  added : ∀ (front rest : List MemoryEntityLink) (link : MemoryEntityLink),
    link.entityId ∈ matched →
      entityBoost (memoryBoostFactor hops matched (front ++ rest)) link.memoryId ≤
        entityBoost (memoryBoostFactor hops matched (front ++ link :: rest)) link.memoryId

theorem Rewarding.one_le (h : Rewarding hops matched) (links : List MemoryEntityLink) (m : ℕ) :
    1 ≤ entityBoost (memoryBoostFactor hops matched links) m := by
  by_cases hmatched : matched = []
  · rw [memoryBoostFactor, if_pos hmatched]
    exact le_rfl
  · rw [entityBoost_eq hmatched]
    cases hvalue : Groups.value (linkBoosts hops (links.insertionSort (byDistance hops)) []) m with
    | none => exact le_rfl
    | some factor =>
      rcases linkBoosts_source hvalue with hold | ⟨link, -, -, hop, hget, rfl⟩
      · exact absurd hold.symm (Option.some_ne_none factor)
      · exact one_le_withBonus (h.product link.entityId hop hget)

theorem withBonus_le {count : ℕ} {factor factor' : ℚ}
    (hcap : 1 < matched.length → factor ≤ recallBoostCap)
    (h : factor ≤ factor' ∨ 1 < matched.length ∧ 0 < count ∧ 1 < factor') :
    withBonus matched count factor ≤ withBonus matched (count + 1) factor' := by
  -- One link more to a matched entity, with the factor of the links at least as great or the bonus
  -- paid for it.
  rw [withBonus_eq, withBonus_eq]
  by_cases hpaid : 1 < matched.length ∧ 1 < count + 1 ∧ 1 < factor'
  · rw [if_pos hpaid]
    split
    · exact le_rfl
    · exact hcap hpaid.1
  · rw [if_neg hpaid]
    have hle : factor ≤ factor' := by
      refine h.resolve_right fun hbonus => hpaid ⟨hbonus.1, ?_, hbonus.2.2⟩
      exact Nat.succ_lt_succ hbonus.2.1
    rw [if_neg]
    · exact hle
    · rintro ⟨hlength, hcount, hfactor⟩
      exact hpaid ⟨hlength, hcount.trans (Nat.lt_succ_self count), hfactor.trans_le hle⟩

theorem byDistance_trans (hops : EntityHops ℚ) : IsTrans MemoryEntityLink (byDistance hops) :=
  ⟨fun _ _ _ hab hbc => le_trans hab hbc⟩

theorem byDistance_total (hops : EntityHops ℚ) : Std.Total (byDistance hops) :=
  ⟨fun _ _ => le_total _ _⟩

theorem distanceOf_eq {link : MemoryEntityLink} {hop : Reached ℚ}
    (hget : hops.get link.entityId = some hop) : hops.distanceOf link = hop.hop := by
  rw [EntityHops.distanceOf, hget]
  rfl

theorem matchCount_insert (front rest : List MemoryEntityLink) {link : MemoryEntityLink}
    (h : link.entityId ∈ matched) :
    matchCount matched (front ++ link :: rest) link.memoryId =
      matchCount matched (front ++ rest) link.memoryId + 1 := by
  rw [matchCount_perm List.perm_middle, matchCount, List.countP_cons_of_pos (by simp [h])]
  rfl

/-- What the loop leaves for the memory of a link more, against what it left before. -/
theorem Rewarding.loop (h : Rewarding hops matched) {front rest : List MemoryEntityLink}
    {link : MemoryEntityLink} (hlink : link.entityId ∈ matched) {factor : ℚ}
    (hvalue : Groups.value (linkBoosts hops ((front ++ rest).insertionSort (byDistance hops)) [])
      link.memoryId = some factor) :
    ∃ factor', Groups.value (linkBoosts hops
      ((front ++ link :: rest).insertionSort (byDistance hops)) []) link.memoryId = some factor' ∧
        (factor ≤ factor' ∨ 1 < matched.length ∧
          0 < matchCount matched (front ++ rest) link.memoryId ∧ 1 < factor') := by
  have htrans := byDistance_trans hops
  have htotal := byDistance_total hops
  obtain ⟨s, s', hs, hs'⟩ :=
    StableSort.exists_insertionSort_insert (byDistance hops) front rest link
  have hafter : ∀ b ∈ s', byDistance hops link b := by
    have hsorted : (s ++ link :: s').Pairwise (byDistance hops) :=
      hs' ▸ List.pairwise_insertionSort _ _
    exact (List.pairwise_cons.mp (List.pairwise_append.mp hsorted).2.1).1
  have hmem : ∀ b ∈ s', b ∈ front ++ rest := fun b hb =>
    (List.perm_insertionSort (byDistance hops) _).mem_iff.mp
      (hs ▸ List.mem_append_right s hb)
  rw [hs] at hvalue
  rw [hs']
  have happend : (∀ tail, linkBoosts hops (s ++ tail) [] = linkBoosts hops s []) ∨ _ :=
    linkBoosts_append s []
  rcases happend with hbreak | hgo
  · rw [hbreak] at hvalue ⊢
    exact ⟨factor, hvalue, .inl le_rfl⟩
  · rw [hgo] at hvalue ⊢
    cases hget : hops.get link.entityId with
    | none =>
      refine ⟨factor, ?_, .inl le_rfl⟩
      rw [linkBoosts.eq_def]
      dsimp only
      rw [hget]
      exact hvalue
    | some hop =>
      obtain ⟨factor', hfactor', hboost, hold⟩ :=
        le_linkBoosts_cons hget s' (linkBoosts hops s [])
      refine ⟨factor', hfactor', ?_⟩
      rcases linkBoosts_source hvalue with hkept | ⟨other, hother, hm, hop', hget', rfl⟩
      · exact .inl (hold factor hkept)
      · have hdistance : hop.hop ≤ hop'.hop := by
          have hle := hafter other hother
          rw [byDistance, distanceOf_eq hget, distanceOf_eq hget'] at hle
          exact hle
        rcases h.cut _ hlink hop hget _ hop' hget' hdistance with hle | ⟨hlength, hother', hlt⟩
        · exact .inl (hle.trans hboost)
        · refine .inr ⟨hlength, ?_, hlt.trans_le hboost⟩
          exact List.countP_pos_iff.mpr ⟨other, hmem other hother, by simp [hm, hother']⟩

theorem Rewarding.added (h : Rewarding hops matched) (front rest : List MemoryEntityLink)
    {link : MemoryEntityLink} (hlink : link.entityId ∈ matched) :
    entityBoost (memoryBoostFactor hops matched (front ++ rest)) link.memoryId ≤
      entityBoost (memoryBoostFactor hops matched (front ++ link :: rest)) link.memoryId := by
  have hmatched : matched ≠ [] := List.ne_nil_of_mem hlink
  have hone := h.one_le (front ++ link :: rest) link.memoryId
  rw [entityBoost_eq hmatched] at hone ⊢
  rw [entityBoost_eq hmatched]
  cases hvalue : Groups.value (linkBoosts hops
      ((front ++ rest).insertionSort (byDistance hops)) []) link.memoryId with
  | none => exact hone
  | some factor =>
    obtain ⟨factor', hfactor', hle⟩ := h.loop hlink hvalue
    rw [hfactor', matchCount_insert front rest hlink]
    refine withBonus_le (fun hlength => ?_) hle
    rcases linkBoosts_source hvalue with hold | ⟨other, -, -, hop, hget, rfl⟩
    · exact absurd hold.symm (Option.some_ne_none factor)
    · exact h.bonus hlength _ hop hget

theorem Rewarding.rewardsLinks (h : Rewarding hops matched) : RewardsLinks hops matched :=
  ⟨fun links link _ _ => h.one_le links link.memoryId, fun front rest _ hlink =>
    h.added front rest hlink⟩

def linkOf (memoryId entityId : ℕ) : MemoryEntityLink := ⟨memoryId, entityId, ""⟩

theorem linkBoosts_one {m : ℕ} (hlinks : ∀ link ∈ links, link.memoryId = m)
    (hfactors : factors = [] ∨ ∃ factor, factors = [(m, factor)]) :
    ∀ link ∈ links, ∀ hop, hops.get link.entityId = some hop →
      ∃ factor, Groups.value (linkBoosts hops links factors) m = some factor ∧
        hopBoost hop ≤ factor := by
  -- With links of one memory only, the loop does not break.
  induction links generalizing factors with
  | nil => exact fun link hlink => absurd hlink List.not_mem_nil
  | cons first links ih =>
    obtain ⟨hfirst, hrest⟩ := List.forall_mem_cons.mp hlinks
    intro link hlink hop hget
    rcases List.mem_cons.mp hlink with rfl | hlink
    · obtain ⟨factor, hvalue, hle, -⟩ := le_linkBoosts_cons hget links factors
      exact ⟨factor, hfirst ▸ hvalue, hle⟩
    · rw [linkBoosts.eq_def]
      dsimp only
      cases hops.get first.entityId with
      | none => exact ih hrest hfactors link hlink hop hget
      | some hop' =>
        have hnext : ∃ factor, Groups.upsert first.memoryId (Keyed.keep (hopBoost hop')) factors =
            [(m, factor)] := by
          rw [hfirst]
          rcases hfactors with rfl | ⟨factor, rfl⟩
          · exact ⟨_, rfl⟩
          · exact ⟨_, if_pos rfl⟩
        obtain ⟨factor, hnext⟩ := hnext
        dsimp only
        have hroom : ¬graphMaxBoostedMemories ≤ [(m, factor)].length := by
          show ¬graphMaxBoostedMemories ≤ 1
          decide
        rw [hnext, if_neg hroom]
        exact ih hrest (.inr ⟨factor, rfl⟩) link hlink hop hget

theorem withBonus_of_le {count : ℕ} {factor : ℚ} (h : count ≤ 1 ∨ factor ≤ 1) :
    withBonus matched count factor = factor := by
  rw [withBonus_eq, if_neg]
  rintro ⟨-, hcount, hfactor⟩
  rcases h with h | h
  · exact absurd hcount (Nat.not_lt.mpr h)
  · exact absurd hfactor (not_lt.mpr h)

theorem RewardsLinks.first (h : RewardsLinks hops matched) {m e : ℕ} (he : e ∈ matched)
    {factor factor' : ℚ}
    (hvalue : Groups.value (linkBoosts hops (links.insertionSort (byDistance hops)) []) m =
      some factor)
    (hvalue' : Groups.value (linkBoosts hops
      ((linkOf m e :: links).insertionSort (byDistance hops)) []) m = some factor') :
    withBonus matched (matchCount matched links m) factor ≤
      withBonus matched (matchCount matched links m + 1) factor' := by
  have hmatched : matched ≠ [] := List.ne_nil_of_mem he
  have hadded : entityBoost (memoryBoostFactor hops matched links) m ≤
      entityBoost (memoryBoostFactor hops matched (linkOf m e :: links)) m :=
    h.added [] links (linkOf m e) he
  have hcount : matchCount matched (linkOf m e :: links) m = matchCount matched links m + 1 :=
    matchCount_insert [] links he
  rwa [entityBoost_of_value hmatched hvalue, entityBoost_of_value hmatched hvalue',
    hcount] at hadded

theorem RewardsLinks.product (h : RewardsLinks hops matched) (hmatched : matched ≠ []) (e : ℕ)
    (hop : Reached ℚ) (hget : hops.get e = some hop) : 1 ≤ hopBoost hop := by
  have hlinked := h.linked [linkOf 0 e] (linkOf 0 e) List.mem_cons_self
    (.inr (Option.isSome_iff_exists.mpr ⟨hop, hget⟩))
  have hvalue : Groups.value (linkBoosts hops ([linkOf 0 e].insertionSort (byDistance hops)) [])
      (linkOf 0 e).memoryId = some (hopBoost hop) := by
    show Groups.value (linkBoosts hops [linkOf 0 e] []) 0 = some (hopBoost hop)
    rw [linkBoosts]
    dsimp only [linkOf]
    rw [hget]
    rfl
  have hcount : matchCount matched [linkOf 0 e] (linkOf 0 e).memoryId ≤ 1 := List.countP_le_length
  rwa [entityBoost_of_value hmatched hvalue, withBonus_of_le (.inl hcount)] at hlinked

theorem exists_links (e : ℕ) (hmatched : matched ≠ []) :
    ∃ links : List MemoryEntityLink, (∀ link ∈ links, link.memoryId = 0) ∧ linkOf 0 e ∈ links ∧
      matchCount matched links 0 = 1 := by
  by_cases he : e ∈ matched
  · exact ⟨[linkOf 0 e], by simp [linkOf], List.mem_cons_self, by simp [matchCount, linkOf, he]⟩
  · obtain ⟨e', he'⟩ := List.exists_mem_of_ne_nil matched hmatched
    exact ⟨[linkOf 0 e, linkOf 0 e'], by simp [linkOf], List.mem_cons_self,
      by simp [matchCount, linkOf, he, he']⟩

theorem RewardsLinks.bonus (h : RewardsLinks hops matched) (hlength : 1 < matched.length) (e : ℕ)
    (hop : Reached ℚ) (hget : hops.get e = some hop) : hopBoost hop ≤ recallBoostCap := by
  have hmatched : matched ≠ [] := List.ne_nil_of_length_pos (Nat.zero_lt_of_lt hlength)
  obtain ⟨links, hlinks, hmem, hcount⟩ := exists_links e hmatched
  obtain ⟨e', he'⟩ := List.exists_mem_of_ne_nil matched hmatched
  by_contra hlt
  rw [not_le] at hlt
  have hsorted : ∀ links : List MemoryEntityLink, (∀ link ∈ links, link.memoryId = 0) →
      linkOf 0 e ∈ links → ∃ factor, Groups.value (linkBoosts hops
        (links.insertionSort (byDistance hops)) []) 0 = some factor ∧ hopBoost hop ≤ factor := by
    intro links hlinks hmem
    have hperm := List.perm_insertionSort (byDistance hops) links
    exact linkBoosts_one (fun link hlink => hlinks link (hperm.mem_iff.mp hlink)) (.inl rfl)
      (linkOf 0 e) (hperm.mem_iff.mpr hmem) hop hget
  obtain ⟨factor, hvalue, hle⟩ := hsorted links hlinks hmem
  obtain ⟨factor', hvalue', hle'⟩ := hsorted (linkOf 0 e' :: links)
    (List.forall_mem_cons.mpr ⟨rfl, hlinks⟩) (List.mem_cons_of_mem _ hmem)
  have hpaid : withBonus matched (matchCount matched links 0) factor ≤
      withBonus matched (matchCount matched links 0 + 1) factor' := h.first he' hvalue hvalue'
  rw [hcount, withBonus_of_le (.inl le_rfl), withBonus_eq,
    if_pos ⟨hlength, by decide, one_lt_recallBoostCap.trans (hlt.trans_le hle')⟩] at hpaid
  exact absurd (hlt.trans_le (hle.trans hpaid)) (lt_irrefl _)

theorem linkBoosts_fan {e : ℕ} {hop : Reached ℚ} (hget : hops.get e = some hop) (ids : List ℕ)
    (rest : List MemoryEntityLink) (hnodup : (factors.map Prod.fst ++ ids).Nodup)
    (hroom : factors.length + ids.length < graphMaxBoostedMemories) :
    linkBoosts hops (ids.map (fun id => linkOf id e) ++ rest) factors =
      linkBoosts hops rest (factors ++ ids.map fun id => (id, hopBoost hop)) := by
  -- Links of new memories to one entity fill the factors one by one.
  induction ids generalizing factors with
  | nil => rw [List.map_nil, List.map_nil, List.append_nil, List.nil_append]
  | cons id ids ih =>
    have hnew : id ∉ factors.map Prod.fst :=
      fun hmem => List.disjoint_of_nodup_append hnodup hmem List.mem_cons_self
    have hlength : (factors ++ [(id, hopBoost hop)]).length + ids.length <
        graphMaxBoostedMemories := by
      rw [List.length_append, List.length_singleton]
      rw [List.length_cons] at hroom
      omega
    have hnodup' : ((factors ++ [(id, hopBoost hop)]).map Prod.fst ++ ids).Nodup := by
      rw [List.map_append, List.append_assoc]
      exact hnodup
    have hget' : hops.get (linkOf id e).entityId = some hop := hget
    have hupsert : Groups.upsert (linkOf id e).memoryId (Keyed.keep (hopBoost hop)) factors =
        factors ++ [(id, hopBoost hop)] := Groups.upsert_new hnew
    rw [List.map_cons, List.cons_append, linkBoosts, hget']
    dsimp only
    rw [hupsert, if_neg (by omega), ih hnodup' hlength, List.append_assoc]
    rfl

theorem linkBoosts_last {e id : ℕ} {hop : Reached ℚ} (hget : hops.get e = some hop)
    (rest : List MemoryEntityLink) (hnew : id ∉ factors.map Prod.fst)
    (hfull : factors.length + 1 = graphMaxBoostedMemories) :
    linkBoosts hops (linkOf id e :: rest) factors = factors ++ [(id, hopBoost hop)] := by
  have hget' : hops.get (linkOf id e).entityId = some hop := hget
  have hupsert : Groups.upsert (linkOf id e).memoryId (Keyed.keep (hopBoost hop)) factors =
      factors ++ [(id, hopBoost hop)] := Groups.upsert_new hnew
  rw [linkBoosts, hget']
  dsimp only
  rw [hupsert, if_pos]
  rw [List.length_append, List.length_singleton, hfull]

section Fan

variable {e e' : ℕ} {hop hop' : Reached ℚ}

/-- 49 memories are linked to one entity, and the memory 0 to another one. -/
def fan (e e' : ℕ) : List MemoryEntityLink :=
  (List.range' 1 49).map (fun id => linkOf id e) ++ [linkOf 0 e']

theorem sorted_fan (hget : hops.get e = some hop) (hget' : hops.get e' = some hop')
    (hdistance : hop.hop ≤ hop'.hop) (ids : List ℕ) :
    (ids.map (fun id => linkOf id e) ++ [linkOf 0 e']).Pairwise (byDistance hops) := by
  have hle : ∀ id, hops.distanceOf (linkOf id e) = hop.hop := fun id => distanceOf_eq hget
  have hle' : hops.distanceOf (linkOf 0 e') = hop'.hop := distanceOf_eq hget'
  refine List.pairwise_append.mpr ⟨List.pairwise_map.mpr (List.pairwise_of_forall ?_),
    List.pairwise_singleton _ _, ?_⟩
  · exact fun a b => (hle a).trans_le (hle b).ge
  · intro a ha b hb
    obtain ⟨id, -, rfl⟩ := List.mem_map.mp ha
    rw [List.mem_singleton.mp hb, byDistance, hle id, hle']
    exact hdistance

theorem value_fan (hget : hops.get e = some hop) (hget' : hops.get e' = some hop')
    (hdistance : hop.hop ≤ hop'.hop) :
    Groups.value (linkBoosts hops ((fan e e').insertionSort (byDistance hops)) []) 0 =
      some (hopBoost hop') := by
  rw [fan, (sorted_fan hget hget' hdistance _).insertionSort_eq,
    linkBoosts_fan hget _ _ (by decide) (by decide), linkBoosts_last hget']
  · rfl
  · simp
  · rfl

/-- With a link of the memory 0 to the first entity the factors are full before its other link. -/
theorem value_cons_fan (hget : hops.get e = some hop) (hget' : hops.get e' = some hop')
    (hdistance : hop.hop ≤ hop'.hop) :
    Groups.value (linkBoosts hops ((linkOf 0 e :: fan e e').insertionSort (byDistance hops)) []) 0 =
      some (hopBoost hop) := by
  have hlinks : linkOf 0 e :: fan e e' =
      (List.range 49).map (fun id => linkOf id e) ++ [linkOf 49 e, linkOf 0 e'] := rfl
  have hall : linkOf 0 e :: fan e e' =
      (List.range 50).map (fun id => linkOf id e) ++ [linkOf 0 e'] := rfl
  rw [hall, (sorted_fan hget hget' hdistance _).insertionSort_eq, ← hall, hlinks,
    linkBoosts_fan hget _ _ (by decide) (by decide), linkBoosts_last hget]
  · rfl
  · simp
  · rfl

theorem matchCount_fan :
    matchCount matched (fan e e') 0 = matchCount matched [linkOf 0 e'] 0 := by
  have hothers : matchCount matched ((List.range' 1 49).map fun id => linkOf id e) 0 = 0 := by
    refine List.countP_eq_zero.mpr fun link hlink => ?_
    obtain ⟨id, hid, rfl⟩ := List.mem_map.mp hlink
    have hne : id ≠ 0 := by
      rintro rfl
      exact absurd hid (by decide)
    simp [linkOf, hne]
  rw [matchCount, fan, List.countP_append]
  exact (congrArg (· + _) hothers).trans (Nat.zero_add _)

theorem RewardsLinks.cut (h : RewardsLinks hops matched) (he : e ∈ matched)
    (hget : hops.get e = some hop) (hget' : hops.get e' = some hop')
    (hdistance : hop.hop ≤ hop'.hop) :
    hopBoost hop' ≤ hopBoost hop ∨ 1 < matched.length ∧ e' ∈ matched ∧ 1 < hopBoost hop := by
  by_contra hnot
  rw [not_or, not_le] at hnot
  obtain ⟨hlt, hbonus⟩ := hnot
  have hpaid : withBonus matched (matchCount matched (fan e e') 0) (hopBoost hop') ≤
      withBonus matched (matchCount matched (fan e e') 0 + 1) (hopBoost hop) :=
    h.first he (value_fan hget hget' hdistance) (value_cons_fan hget hget' hdistance)
  rw [matchCount_fan] at hpaid
  have hone : matchCount matched [linkOf 0 e'] 0 ≤ 1 := List.countP_le_length
  have hfactor : withBonus matched (matchCount matched [linkOf 0 e'] 0 + 1) (hopBoost hop) =
      hopBoost hop := by
    by_cases he' : e' ∈ matched
    · rw [withBonus_eq, if_neg fun hpaid => hbonus ⟨hpaid.1, he', hpaid.2.2⟩]
    · exact withBonus_of_le (.inl (by simp [matchCount, linkOf, he']))
  rw [withBonus_of_le (.inl hone), hfactor] at hpaid
  exact absurd hlt (not_lt.mpr hpaid)

end Fan

/-- Links are rewarded exactly under the condition, and always where nothing is matched. -/
theorem rewardsLinks_iff (hops : EntityHops ℚ) (matched : List ℕ) :
    RewardsLinks hops matched ↔ matched = [] ∨ Rewarding hops matched := by
  constructor
  · intro h
    by_cases hmatched : matched = []
    · exact .inl hmatched
    · exact .inr ⟨h.product hmatched, h.bonus, fun e he hop hget e' hop' hget' =>
        h.cut he hget hget'⟩
  · rintro (rfl | h)
    · have hone : ∀ links m, entityBoost (memoryBoostFactor hops [] links) m = 1 := fun _ _ => rfl
      refine ⟨fun links link _ _ => (hone links link.memoryId).ge, fun front rest link hlink => ?_⟩
      exact absurd hlink List.not_mem_nil
    · exact h.rewardsLinks

theorem relatedHops_unique :
    Keyed.Unique Prod.fst [(10, (⟨0, 1⟩ : Reached ℚ)), (11, ⟨1, 1 / 2⟩)] := by
  show List.Nodup [10, 11]
  decide

def relatedHops : EntityHops ℚ where
  entries := [(10, ⟨0, 1⟩), (11, ⟨1, 1 / 2⟩)]
  unique := relatedHops_unique

/-- A memory that is linked to the related entity falls behind one without links. -/
theorem not_rewardsLinks_related : ¬RewardsLinks relatedHops [10] := by
  intro h
  have hlinked := h.linked [linkOf 7 11] (linkOf 7 11) List.mem_cons_self (.inr rfl)
  have hboost : entityBoost (memoryBoostFactor relatedHops [10] [linkOf 7 11]) 7 < 1 := by
    decide +kernel
  exact absurd hboost (not_lt.mpr hlinked)

end Memclaw.Search

import Memclaw.Search.LookupDefs

/-! What an entity lookup makes of the memories linked to its entities: rows come from those that
the caller sees, and the cap keeps those that weigh most. Below the cap, what the caller cannot
see leaves no trace. -/

namespace Memclaw.Search

open Memclaw.Lib
open Memclaw.Entities (MemoryEntityLink Reached)
open Memclaw.Memories (Memory Table)

variable {V F : Type} [LinearOrder F]

theorem ofTenants_forwarded (f : Filters) (m : Memory V) :
    f.forwarded.ofTenants m = f.ofTenants m := by
  unfold Filters.ofTenants Filters.forwarded
  rcases f.readableTenantIds with - | - | ⟨tenant, tenants⟩
  · rfl
  · rfl
  · by_cases hhome : tenant :: tenants = [f.tenantId]
    · rw [Option.filter_some, if_neg (by simp [hhome]), hhome]
      simp
    · rw [Option.filter_some, if_pos (by simp [hhome])]

theorem loadWhere_forwarded (f : Filters) (engine : Engine V) (m : Memory V) :
    f.forwarded.loadWhere engine m = f.loadWhere engine m := by
  unfold Filters.loadWhere
  rw [ofTenants_forwarded]
  rfl

def Store.shows (store : Store V) (f : Filters) (engine : Engine V) (id : ℕ) : Bool :=
  store.memories.any fun m => m.id = id && f.loadWhere engine m

/-- What is left of a store when the rows that the filters exclude are removed with their
links. -/
def Store.seen (store : Store V) (f : Filters) (engine : Engine V) : Store V where
  memories := store.memories.filter (f.loadWhere engine)
  links := store.links.filter fun l => store.shows f engine l.memoryId
  memoriesUnique := store.memoriesUnique.filter _
  linksUnique := store.linksUnique.filter _
  linksMemory := fun l hl => by
    obtain ⟨m, hm, hshown⟩ := List.any_eq_true.mp (List.mem_filter.mp hl).2
    rw [Bool.and_eq_true, decide_eq_true_eq] at hshown
    exact ⟨m, List.mem_filter.mpr ⟨hm, hshown.2⟩, hshown.1⟩

variable {store : Store V} {f : Filters} {engine : Engine V}

theorem shows_iff {id : ℕ} :
    store.shows f engine id = true ↔ ∃ m ∈ (store.seen f engine).memories, m.id = id := by
  simp only [Store.shows, Store.seen, List.any_eq_true, List.mem_filter, Bool.and_eq_true,
    decide_eq_true_eq]
  exact exists_congr fun m => by tauto

theorem shows_seen (id : ℕ) : (store.seen f engine).shows f engine id = store.shows f engine id := by
  simp only [Store.shows, Store.seen, List.any_filter]
  refine congrArg store.memories.any (funext fun m => ?_)
  cases f.loadWhere engine m <;> simp

theorem seen_seen : (store.seen f engine).seen f engine = store.seen f engine := by
  refine Store.ext ?_ ?_
  · exact List.filter_eq_self.mpr fun m hm => (List.mem_filter.mp hm).2
  · refine List.filter_eq_self.mpr fun l hl => ?_
    rw [shows_seen]
    exact (List.mem_filter.mp hl).2

def seenRow (memories : Table V) (c : ℕ × Candidate F) : Option (LookupRow V F) :=
  (Keyed.get Memory.id memories c.1).map fun m => ⟨m, c.2.boost, c.2.entityLinks⟩

theorem byId_load {ids : List ℕ} {id : ℕ} (h : id ∈ ids) :
    byId (memoryLoadByIds store engine f.forwarded ids) id =
      Keyed.get Memory.id (store.seen f engine).memories id := by
  have hloaded : Keyed.Unique Memory.id (memoryLoadByIds store engine f.forwarded ids) :=
    store.memoriesUnique.filter _
  have hreversed : Keyed.Unique Memory.id (memoryLoadByIds store engine f.forwarded ids).reverse := by
    rw [Keyed.Unique, List.map_reverse]
    exact List.nodup_reverse.mpr hloaded
  refine Option.ext fun m => ?_
  show Keyed.get Memory.id _ id = some m ↔ _
  rw [Keyed.get_eq_some hreversed, Keyed.get_eq_some (store.seen f engine).memoriesUnique,
    List.mem_reverse]
  simp only [memoryLoadByIds, Store.seen, List.mem_filter, loadWhere_forwarded, Bool.and_eq_true,
    List.contains_iff_mem]
  constructor
  · rintro ⟨⟨hm, -, hwhere⟩, hid⟩
    exact ⟨⟨hm, hwhere⟩, hid⟩
  · rintro ⟨⟨hm, hwhere⟩, hid⟩
    exact ⟨⟨hm, hid ▸ h, hwhere⟩, hid⟩

omit [LinearOrder F] in
theorem lookupRows_load (cands : List (ℕ × Candidate F)) :
    lookupRows (memoryLoadByIds store engine f.forwarded (cands.map Prod.fst)) cands =
      cands.filterMap (seenRow (store.seen f engine).memories) := by
  refine List.filterMap_congr fun c hc => ?_
  rw [seenRow, byId_load (List.mem_map_of_mem hc)]

variable {lexicon : Lexicon F} {hops : EntityHops F} {topK : ℕ} {query : String}

def Store.candidates (store : Store V) (lexicon : Lexicon F) (hops : EntityHops F) :
    List (ℕ × Candidate F) :=
  Search.candidates lexicon hops (entityGetMemoryIdsByEntityIds store hops.lookedUp)

theorem collectMemories_eq :
    collectMemories store engine lexicon hops f topK query =
      (((capCandidates (store.candidates lexicon hops)).filterMap
        (seenRow (store.seen f engine).memories)).insertionSort (bestFirst lexicon query)).take
        topK := by
  unfold collectMemories
  dsimp only
  split
  · next hnone => simp [Store.candidates, hnone, capCandidates]
  · rw [lookupRows_load]
    rfl

omit [LinearOrder F] in
theorem seenRow_eq_none {c : ℕ × Candidate F} (h : store.shows f engine c.1 = false) :
    seenRow (store.seen f engine).memories c = none := by
  rw [seenRow, Option.map_eq_none_iff, Keyed.get_eq_none]
  intro m hm hid
  exact Bool.eq_false_iff.mp h (shows_iff.mpr ⟨m, hm, hid⟩)

omit [LinearOrder F] in
theorem filterMap_seenRow (cands : List (ℕ × Candidate F)) :
    (cands.filter fun c => store.shows f engine c.1).filterMap
        (seenRow (store.seen f engine).memories) =
      cands.filterMap (seenRow (store.seen f engine).memories) := by
  rw [List.filterMap_filter]
  refine List.filterMap_congr fun c _ => ?_
  split
  · rfl
  · next h => exact (seenRow_eq_none (Bool.eq_false_iff.mpr h)).symm

omit [LinearOrder F] in
theorem resolve_filter (p : ℕ → Bool) (links : List MemoryEntityLink) :
    hops.resolve (links.filter fun l => p l.memoryId) =
      (hops.resolve links).filter fun link => p link.1.memoryId := by
  rw [EntityHops.resolve, EntityHops.resolve, List.filterMap_filter, List.filter_filterMap]
  refine List.filterMap_congr fun l _ => ?_
  cases hops.get l.entityId <;> simp [Option.filter_some]

omit [LinearOrder F] in
theorem mem_resolve {links : List MemoryEntityLink} {link : MemoryEntityLink × Reached F} :
    link ∈ hops.resolve links ↔ link.1 ∈ links ∧ hops.get link.1.entityId = some link.2 := by
  simp only [EntityHops.resolve, List.mem_filterMap, Option.map_eq_some_iff]
  constructor
  · rintro ⟨l, hl, hop, hhop, rfl⟩
    exact ⟨hl, hhop⟩
  · rintro ⟨hl, hhop⟩
    exact ⟨link.1, hl, link.2, hhop, rfl⟩

instance : IsTrans MemoryEntityLink (byDistance hops) := ⟨fun _ _ _ => Nat.le_trans⟩

instance : Std.Total (byDistance hops) := ⟨fun _ _ => Nat.le_total _ _⟩

theorem candidates_filter (p : ℕ → Bool) (links : List MemoryEntityLink) :
    candidates lexicon hops (links.filter fun l => p l.memoryId) =
      (candidates lexicon hops links).filter fun c => p c.1 := by
  -- The links of memories outside a set leave no trace on the candidates in it.
  rw [candidates, candidates, ← StableSort.filter_insertionSort, resolve_filter,
    Groups.filter_collect]
  rfl

theorem candidates_seen :
    (store.seen f engine).candidates lexicon hops =
      (store.candidates lexicon hops).filter fun c => store.shows f engine c.1 := by
  rw [Store.candidates, Store.candidates, ← candidates_filter]
  congr 1
  simp only [entityGetMemoryIdsByEntityIds, Store.seen, List.filter_filter, Bool.and_comm]

omit [LinearOrder F] in
theorem EntityHops.exists_get {id : ℕ} (h : id ∈ hops.entries.map Prod.fst) :
    ∃ hop, hops.get id = some hop := by
  obtain ⟨entry, hentry, rfl⟩ := List.mem_map.mp h
  exact ⟨entry.2, congrArg (Option.map Prod.snd) (Keyed.get_of_mem hops.unique hentry)⟩

theorem EntityHops.lookedUp_subset {id : ℕ} (h : id ∈ hops.lookedUp) :
    id ∈ hops.entries.map Prod.fst := by
  unfold EntityHops.lookedUp at h
  split at h
  · obtain ⟨entry, hentry, rfl⟩ := List.mem_map.mp h
    exact List.mem_map_of_mem ((List.mem_insertionSort _).mp (List.mem_of_mem_take hentry))
  · exact h

theorem mem_keys_candidates {k : ℕ} :
    k ∈ (store.candidates lexicon hops).map Prod.fst ↔
      ∃ l ∈ store.links, l.entityId ∈ hops.lookedUp ∧ l.memoryId = k := by
  rw [Store.candidates, candidates, Groups.mem_keys_collect]
  simp only [List.map_nil, List.not_mem_nil, false_or, mem_resolve, List.mem_insertionSort,
    entityGetMemoryIdsByEntityIds, List.mem_filter, List.contains_iff_mem]
  constructor
  · rintro ⟨link, ⟨⟨hl, hentity⟩, -⟩, hk⟩
    exact ⟨link.1, hl, hentity, hk⟩
  · rintro ⟨l, hl, hentity, hk⟩
    obtain ⟨hop, hhop⟩ := EntityHops.exists_get (EntityHops.lookedUp_subset hentity)
    exact ⟨(l, hop), ⟨⟨hl, hentity⟩, hhop⟩, hk⟩

def Store.linkedIds (store : Store V) (hops : EntityHops F) : List ℕ :=
  ((entityGetMemoryIdsByEntityIds store hops.lookedUp).map MemoryEntityLink.memoryId).dedup

theorem candidates_length (lexicon : Lexicon F) :
    (store.candidates lexicon hops).length = (store.linkedIds hops).length := by
  have hkeys : ((store.candidates lexicon hops).map Prod.fst).Nodup := Groups.collect_nil_unique _
  have hperm : ((store.candidates lexicon hops).map Prod.fst).Perm (store.linkedIds hops) := by
    refine (List.perm_ext_iff_of_nodup hkeys (List.nodup_dedup _)).mpr fun k => ?_
    rw [mem_keys_candidates]
    simp only [List.mem_dedup, List.mem_map, entityGetMemoryIdsByEntityIds, List.mem_filter,
      List.contains_iff_mem, and_assoc]
  rw [← hperm.length_eq, List.length_map]

theorem collectMemories_seen (hfew : (store.linkedIds hops).length ≤ graphMaxBoostedMemories) :
    collectMemories store engine lexicon hops f topK query =
      collectMemories (store.seen f engine) engine lexicon hops f topK query := by
  have hall : capCandidates (store.candidates lexicon hops) = store.candidates lexicon hops :=
    if_neg (by rw [candidates_length]; exact Nat.not_lt.mpr hfew)
  have hseen : capCandidates ((store.seen f engine).candidates lexicon hops) =
      (store.seen f engine).candidates lexicon hops := by
    refine if_neg (Nat.not_lt.mpr (Nat.le_trans ?_ hfew))
    rw [candidates_seen, ← candidates_length lexicon]
    exact List.length_filter_le _ _
  rw [collectMemories_eq, collectMemories_eq, hall, hseen, seen_seen, candidates_seen,
    filterMap_seenRow]

theorem foldl_addLink (lexicon : Lexicon F) (links : List (MemoryEntityLink × Reached F))
    (c : Candidate F) :
    ∃ c', links.foldl (fun s link => some (addLink lexicon link s)) (some c) = some c' ∧
      c'.matchCount = c.matchCount + (links.filter fun link => link.2.hop = 0).length ∧
      (c'.boost = c.boost ∨ ∃ link ∈ links, c'.boost = lexicon.boost link.2) ∧
      c.boost ≤ c'.boost ∧ ∀ link ∈ links, lexicon.boost link.2 ≤ c'.boost := by
  induction links generalizing c with
  | nil => exact ⟨c, rfl, rfl, .inl rfl, le_rfl, fun link hlink => absurd hlink List.not_mem_nil⟩
  | cons link links ih =>
    obtain ⟨c', hfold, hcount, hboost, hle, hall⟩ := ih (addLink lexicon link (some c))
    have hnew : lexicon.boost link.2 ≤ (addLink lexicon link (some c)).boost ∧
        c.boost ≤ (addLink lexicon link (some c)).boost ∧
        ((addLink lexicon link (some c)).boost = c.boost ∨
          (addLink lexicon link (some c)).boost = lexicon.boost link.2) := by
      rw [addLink]
      dsimp only
      split
      · next hlt => exact ⟨le_rfl, hlt.le, .inr rfl⟩
      · next hge => exact ⟨not_lt.mp hge, le_rfl, .inl rfl⟩
    refine ⟨c', hfold, ?_, ?_, hnew.2.1.trans hle, List.forall_mem_cons.mpr ⟨hnew.1.trans hle, hall⟩⟩
    · rw [hcount]
      simp only [addLink]
      by_cases hdirect : link.2.hop = 0
      · rw [List.filter_cons_of_pos (by simpa using hdirect), List.length_cons, if_pos hdirect]
        omega
      · rw [List.filter_cons_of_neg (by simpa using hdirect), if_neg hdirect]
    · rcases hboost with hkept | ⟨link', hlink', hboost⟩
      · rw [hkept]
        refine hnew.2.2.imp_right fun h => ⟨link, List.mem_cons_self, h⟩
      · exact .inr ⟨link', List.mem_cons_of_mem link hlink', hboost⟩

def eventsOf (hops : EntityHops F) (links : List MemoryEntityLink) (id : ℕ) :
    List (MemoryEntityLink × Reached F) :=
  (hops.resolve (links.insertionSort (byDistance hops))).filter fun link => link.1.memoryId = id

theorem candidate_weight {links : List MemoryEntityLink} {k : ℕ} {c : Candidate F}
    (h : (k, c) ∈ candidates lexicon hops links) :
    c.matchCount = ((eventsOf hops links k).filter fun link => link.2.hop = 0).length ∧
      (∃ link ∈ eventsOf hops links k, c.boost = lexicon.boost link.2) ∧
      ∀ link ∈ eventsOf hops links k, lexicon.boost link.2 ≤ c.boost := by
  have hvalue : Groups.value (candidates lexicon hops links) k = some c :=
    congrArg (Option.map Prod.snd) (Keyed.get_of_mem (Groups.collect_nil_unique _) h)
  rw [candidates, Groups.value_collect] at hvalue
  unfold eventsOf
  cases hevents : (hops.resolve (links.insertionSort (byDistance hops))).filter
      fun link => link.1.memoryId = k with
  | nil =>
    rw [hevents] at hvalue
    exact absurd hvalue.symm (Option.some_ne_none c)
  | cons link events =>
    rw [hevents, List.foldl_cons] at hvalue
    obtain ⟨c', hfold, hcount, hboost, hle, hall⟩ :=
      foldl_addLink lexicon events (addLink lexicon link none)
    obtain rfl : c' = c := Option.some.inj (hfold.symm.trans hvalue)
    refine ⟨?_, ?_, List.forall_mem_cons.mpr ⟨hle, hall⟩⟩
    · rw [hcount, addLink, List.filter_cons]
      by_cases hdirect : link.2.hop = 0
      · simp [hdirect, Nat.add_comm]
      · simp [hdirect]
    · rcases hboost with hfirst | ⟨link', hlink', hboost⟩
      · exact ⟨link, List.mem_cons_self, hfirst⟩
      · exact ⟨link', List.mem_cons_of_mem link hlink', hboost⟩

omit [LinearOrder F] in
theorem mem_eventsOf {links : List MemoryEntityLink} {k : ℕ} {link : MemoryEntityLink × Reached F} :
    link ∈ eventsOf hops links k ↔
      link.1 ∈ links ∧ hops.get link.1.entityId = some link.2 ∧ link.1.memoryId = k := by
  rw [eventsOf, List.mem_filter, mem_resolve, List.mem_insertionSort, decide_eq_true_eq, and_assoc]

omit [LinearOrder F] in
theorem eventsOf_nodup (hops : EntityHops F) {links : List MemoryEntityLink}
    (hunique : Keyed.Unique MemoryEntityLink.key links) (k : ℕ) :
    ((eventsOf hops links k).map fun link => link.1.entityId).Nodup := by
  have hsorted : Keyed.Unique MemoryEntityLink.key (links.insertionSort (byDistance hops)) :=
    ((List.perm_insertionSort (byDistance hops) links).map _).nodup_iff.mpr hunique
  have hresolved : (hops.resolve (links.insertionSort (byDistance hops))).Pairwise
      fun a b => a.1.key ≠ b.1.key := by
    refine List.Pairwise.filterMap _ ?_ (List.pairwise_map.mp hsorted)
    intro l l' hne link hlink link' hlink'
    obtain ⟨hop, -, rfl⟩ := Option.map_eq_some_iff.mp hlink
    obtain ⟨hop', -, rfl⟩ := Option.map_eq_some_iff.mp hlink'
    exact hne
  refine List.pairwise_map.mpr ((hresolved.filter _).imp_of_mem ?_)
  intro a b ha hb hne hentity
  have hmemory : a.1.memoryId = b.1.memoryId :=
    (mem_eventsOf.mp ha).2.2.trans (mem_eventsOf.mp hb).2.2.symm
  exact hne (Prod.ext hmemory hentity)

theorem heavier_of_linked {links : List MemoryEntityLink}
    (hunique : Keyed.Unique MemoryEntityLink.key links) {a b : ℕ × Candidate F}
    (ha : a ∈ candidates lexicon hops links) (hb : b ∈ candidates lexicon hops links)
    (hlinked : ∀ l ∈ links, ∃ l' ∈ links, l'.memoryId = a.1 ∧ l'.entityId = l.entityId) :
    heavier a b := by
  -- A memory that is linked to all entities looked up comes before every other one.
  obtain ⟨hcountA, -, hboostA⟩ := candidate_weight ha
  obtain ⟨hcountB, ⟨top, htop, hboostB⟩, -⟩ := candidate_weight hb
  have hevent : ∀ link ∈ eventsOf hops links b.1, ∃ link' ∈ eventsOf hops links a.1,
      link'.2 = link.2 ∧ link'.1.entityId = link.1.entityId := by
    intro link hlink
    obtain ⟨hl, hhop, -⟩ := mem_eventsOf.mp hlink
    obtain ⟨l', hl', hid, hentity⟩ := hlinked link.1 hl
    exact ⟨(l', link.2), mem_eventsOf.mpr ⟨hl', hentity ▸ hhop, hid⟩, rfl, hentity⟩
  have hboost : b.2.boost ≤ a.2.boost := by
    obtain ⟨link', hlink', hhop, -⟩ := hevent top htop
    rw [hboostB, ← hhop]
    exact hboostA link' hlink'
  have hcount : b.2.matchCount ≤ a.2.matchCount := by
    have hsubset : ((eventsOf hops links b.1).filter fun link => link.2.hop = 0).map
        (fun link => link.1.entityId) ⊆
        ((eventsOf hops links a.1).filter fun link => link.2.hop = 0).map
          fun link => link.1.entityId := by
      intro e he
      obtain ⟨link, hlink, rfl⟩ := List.mem_map.mp he
      obtain ⟨hlink, hdirect⟩ := List.mem_filter.mp hlink
      obtain ⟨link', hlink', hhop, hentity⟩ := hevent link hlink
      refine List.mem_map.mpr ⟨link', List.mem_filter.mpr ⟨hlink', ?_⟩, hentity⟩
      rw [hhop]
      exact hdirect
    have hnodup := (eventsOf_nodup hops hunique b.1).sublist
      ((List.filter_sublist (p := fun link => link.2.hop = 0)).map _)
    have hle := (List.subperm_of_subset hnodup hsubset).length_le
    rwa [List.length_map, List.length_map, ← hcountA, ← hcountB] at hle
  rcases hcount.lt_or_eq with hmore | hsame
  · exact .inl hmore
  · exact .inr ⟨hsame.symm, hboost⟩

end Memclaw.Search

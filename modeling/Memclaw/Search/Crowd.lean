import Mathlib.Data.List.MinMax
import Memclaw.Memories.Statements
import Memclaw.Search.Lookup

/-! The cap counts every linked memory, whoever may see it: a crowd of deleted ones that weigh
most drives all others out. -/

namespace Memclaw.Search

open Memclaw.Lib
open Memclaw.Entities (MemoryEntityLink Reached)
open Memclaw.Memories (Memory NewMemory)

variable {V F : Type} [LinearOrder F] {store : Store V} {f : Filters} {engine : Engine V}

def hidden (m : Memory V) (id : ℕ) : Memory V := { m with id := id, deletedAt := some 0 }

theorem loadWhere_hidden (m : Memory V) (id : ℕ) : f.loadWhere engine (hidden m id) = false := by
  have hdeleted : f.admits (hidden m id) = false := by
    simp [Filters.admits, hidden, Memory.live]
  simp [Filters.loadWhere, hdeleted]

def crowdLinks (ids entities : List ℕ) : List MemoryEntityLink :=
  entities.flatMap fun e => ids.map fun id => ⟨id, e, ""⟩

theorem mem_crowdLinks {ids entities : List ℕ} {l : MemoryEntityLink} :
    l ∈ crowdLinks ids entities ↔ l.memoryId ∈ ids ∧ l.entityId ∈ entities ∧ l.role = "" := by
  simp only [crowdLinks, List.mem_flatMap, List.mem_map]
  constructor
  · rintro ⟨e, he, id, hid, rfl⟩
    exact ⟨hid, he, rfl⟩
  · rintro ⟨hid, he, hrole⟩
    exact ⟨l.entityId, he, l.memoryId, hid, by rw [← hrole]⟩

theorem crowdLinks_unique {ids entities : List ℕ} (hids : ids.Nodup) (hentities : entities.Nodup) :
    Keyed.Unique MemoryEntityLink.key (crowdLinks ids entities) := by
  rw [Keyed.Unique, crowdLinks, List.map_flatMap]
  refine List.nodup_flatMap.mpr ⟨fun e _ => ?_, hentities.imp fun hne => ?_⟩
  · rw [List.map_map]
    exact hids.map fun id id' hsame => congrArg Prod.fst hsame
  · intro k hk hk'
    obtain ⟨l, hl, rfl⟩ := List.mem_map.mp hk
    obtain ⟨l', hl', hsame⟩ := List.mem_map.mp hk'
    obtain ⟨id, -, rfl⟩ := List.mem_map.mp hl
    obtain ⟨id', -, rfl⟩ := List.mem_map.mp hl'
    exact hne (congrArg Prod.snd hsame).symm

theorem crowded_memories_unique {store : Store V} {m : Memory V} {ids : List ℕ} (hids : ids.Nodup)
    (hfresh : ∀ old ∈ store.memories, old.id ∉ ids) :
    Keyed.Unique Memory.id (ids.map (hidden m) ++ store.memories) := by
  have hnew : (ids.map (hidden m)).map Memory.id = ids := by
    rw [List.map_map]
    exact List.map_id ids
  rw [Keyed.Unique, List.map_append, hnew]
  refine List.Nodup.append hids store.memoriesUnique fun id hid hold => ?_
  obtain ⟨old, hmem, rfl⟩ := List.mem_map.mp hold
  exact hfresh old hmem hid

theorem crowded_links_unique {store : Store V} {ids entities : List ℕ} (hids : ids.Nodup)
    (hentities : entities.Nodup) (hfresh : ∀ old ∈ store.memories, old.id ∉ ids) :
    Keyed.Unique MemoryEntityLink.key (crowdLinks ids entities ++ store.links) := by
  rw [Keyed.Unique, List.map_append]
  refine List.Nodup.append (crowdLinks_unique hids hentities) store.linksUnique ?_
  intro k hk hold
  obtain ⟨l, hl, rfl⟩ := List.mem_map.mp hk
  obtain ⟨l', hl', hsame⟩ := List.mem_map.mp hold
  obtain ⟨old, hmem, hid⟩ := store.linksMemory l' hl'
  refine hfresh old hmem ?_
  rw [hid, show l'.memoryId = l.memoryId from congrArg Prod.fst hsame]
  exact (mem_crowdLinks.mp hl).1

theorem crowded_links_memory {store : Store V} {m : Memory V} {ids entities : List ℕ} :
    ∀ l ∈ crowdLinks ids entities ++ store.links,
      ∃ m' ∈ ids.map (hidden m) ++ store.memories, m'.id = l.memoryId := by
  intro l hl
  rcases List.mem_append.mp hl with hl | hl
  · have hid := (mem_crowdLinks.mp hl).1
    exact ⟨hidden m l.memoryId, List.mem_append_left _ (List.mem_map_of_mem hid), rfl⟩
  · obtain ⟨old, hmem, hid⟩ := store.linksMemory l hl
    exact ⟨old, List.mem_append_right _ hmem, hid⟩

def Store.crowded (store : Store V) (m : Memory V) {ids entities : List ℕ} (hids : ids.Nodup)
    (hentities : entities.Nodup) (hfresh : ∀ old ∈ store.memories, old.id ∉ ids) : Store V where
  memories := ids.map (hidden m) ++ store.memories
  links := crowdLinks ids entities ++ store.links
  memoriesUnique := crowded_memories_unique hids hfresh
  linksUnique := crowded_links_unique hids hentities hfresh
  linksMemory := crowded_links_memory

section Crowded

variable {m : Memory V} {ids entities : List ℕ} {hids : ids.Nodup} {hentities : entities.Nodup}
  {hfresh : ∀ old ∈ store.memories, old.id ∉ ids}

theorem shows_crowded (id : ℕ) :
    (store.crowded m hids hentities hfresh).shows f engine id = store.shows f engine id := by
  have hnone : (ids.map (hidden m)).any (fun m => m.id = id && f.loadWhere engine m) = false := by
    rw [List.any_map, List.any_eq_false]
    intro id' _
    simp [loadWhere_hidden]
  simp only [Store.shows, Store.crowded, List.any_append, hnone, Bool.false_or]

theorem shows_fresh {id : ℕ} (hid : id ∈ ids) (hfresh : ∀ old ∈ store.memories, old.id ∉ ids) :
    store.shows f engine id = false := by
  refine Bool.eq_false_iff.mpr fun hshown => ?_
  obtain ⟨old, hold, rfl⟩ := shows_iff.mp hshown
  exact hfresh old (List.mem_of_mem_filter hold) hid

theorem seen_crowded :
    (store.crowded m hids hentities hfresh).seen f engine = store.seen f engine := by
  refine Store.ext ?_ ?_
  · show (ids.map (hidden m) ++ store.memories).filter _ = _
    rw [List.filter_append, List.filter_eq_nil_iff.mpr, List.nil_append]
    · rfl
    · intro m' hm'
      obtain ⟨id, -, rfl⟩ := List.mem_map.mp hm'
      rw [loadWhere_hidden]
      exact Bool.false_ne_true
  · simp only [Store.seen, shows_crowded]
    show (crowdLinks ids entities ++ store.links).filter _ = _
    rw [List.filter_append, List.filter_eq_nil_iff.mpr, List.nil_append]
    intro l hl
    rw [shows_fresh (mem_crowdLinks.mp hl).1 hfresh]
    exact Bool.false_ne_true

variable {lexicon : Lexicon F} {hops : EntityHops F} {topK : ℕ} {query : String}

theorem capCandidates_of_heavier {cands : List (ℕ × Candidate F)}
    (h : ∀ a ∈ cands.take graphMaxBoostedMemories, ∀ b ∈ cands, heavier a b) :
    capCandidates cands = cands.take graphMaxBoostedMemories := by
  unfold capCandidates
  split
  · next hmany =>
    have hsorted : cands.insertionSort heavier = cands.take graphMaxBoostedMemories ++
        (cands.drop graphMaxBoostedMemories).insertionSort heavier := by
      rw [← StableSort.insertionSort_append, List.take_append_drop]
      rwa [List.take_append_drop]
    rw [hsorted, List.take_left' (List.length_take_of_le hmany.le)]
  · next hfew => rw [List.take_of_length_le (Nat.not_lt.mp hfew)]

theorem links_crowded (hlinked : ∀ e, e ∈ entities ↔ e ∈ hops.lookedUp) :
    entityGetMemoryIdsByEntityIds (store.crowded m hids hentities hfresh) hops.lookedUp =
      crowdLinks ids entities ++ entityGetMemoryIdsByEntityIds store hops.lookedUp := by
  show (crowdLinks ids entities ++ store.links).filter _ = _
  rw [List.filter_append, List.filter_eq_self.mpr]
  · rfl
  · intro l hl
    exact List.contains_iff_mem.mpr ((hlinked _).mp (mem_crowdLinks.mp hl).2.1)

/-- The first candidates are those with a link to the closest entity that comes first. -/
theorem prefix_candidates {e : ℕ} {hop : Reached F} (hhop : hops.get e = some hop)
    {links : List MemoryEntityLink} (hids : ids.Nodup)
    (hclosest : ∀ l ∈ links, hops.distanceOf ⟨0, e, ""⟩ ≤ hops.distanceOf l) :
    ids <+: (candidates lexicon hops
      (ids.map (fun id => ⟨id, e, ""⟩) ++ links)).map Prod.fst := by
  have hfront : ∀ a ∈ ids.map (fun id => (⟨id, e, ""⟩ : MemoryEntityLink)),
      hops.distanceOf a = hops.distanceOf ⟨0, e, ""⟩ := by
    intro a ha
    obtain ⟨id, -, rfl⟩ := List.mem_map.mp ha
    rfl
  have hsorted : (ids.map (fun id => (⟨id, e, ""⟩ : MemoryEntityLink)) ++ links).insertionSort
      (byDistance hops) = ids.map (fun id => ⟨id, e, ""⟩) ++
        links.insertionSort (byDistance hops) := by
    refine StableSort.insertionSort_append _ fun a ha b hb => ?_
    show hops.distanceOf a ≤ hops.distanceOf b
    rcases List.mem_append.mp hb with hb | hb
    · rw [hfront a ha, hfront b hb]
    · rw [hfront a ha]
      exact hclosest b hb
  have hresolved : hops.resolve (ids.map fun id => (⟨id, e, ""⟩ : MemoryEntityLink)) =
      ids.map fun id => (⟨id, e, ""⟩, hop) := by
    rw [EntityHops.resolve, List.filterMap_map, ← List.filterMap_eq_map]
    refine List.filterMap_congr fun id _ => ?_
    rw [Function.comp_apply, hhop]
    rfl
  have hkeys : (ids.map fun id => ((⟨id, e, ""⟩ : MemoryEntityLink), hop)).map
      (fun link => link.1.memoryId) = ids := by
    rw [List.map_map]
    exact List.map_id ids
  rw [candidates, hsorted, EntityHops.resolve, List.filterMap_append, ← EntityHops.resolve,
    ← EntityHops.resolve, hresolved, Groups.collect, List.foldl_append, ← Groups.collect,
    ← Groups.collect]
  refine List.IsPrefix.trans ?_ (Groups.keys_prefix_collect _ _)
  rw [Groups.keys_collect, hkeys]
  · exact List.prefix_rfl
  · rw [hkeys]
    exact hids

/-- A crowd as large as the cap, linked to all entities looked up, leaves nothing to the caller. -/
theorem collectMemories_crowded (hlength : ids.length = graphMaxBoostedMemories)
    (hlinked : ∀ e, e ∈ entities ↔ e ∈ hops.lookedUp) {e : ℕ} {others : List ℕ}
    (hfirst : entities = e :: others)
    (hclosest : ∀ e' ∈ hops.lookedUp, hops.distanceOf ⟨0, e, ""⟩ ≤ hops.distanceOf ⟨0, e', ""⟩) :
    collectMemories (store.crowded m hids hentities hfresh) engine lexicon hops f topK query =
      [] := by
  obtain ⟨hop, hhop⟩ : ∃ hop, hops.get e = some hop := by
    refine EntityHops.exists_get (EntityHops.lookedUp_subset ((hlinked e).mp ?_))
    rw [hfirst]
    exact List.mem_cons_self
  have hlookedUp : ∀ l ∈ entityGetMemoryIdsByEntityIds (store.crowded m hids hentities hfresh)
      hops.lookedUp, l.entityId ∈ hops.lookedUp :=
    fun l hl => List.contains_iff_mem.mp (List.mem_filter.mp hl).2
  have hprefix : ids <+:
      ((store.crowded m hids hentities hfresh).candidates lexicon hops).map Prod.fst := by
    have hlinks : crowdLinks ids entities =
        ids.map (fun id => ⟨id, e, ""⟩) ++ crowdLinks ids others := by
      rw [hfirst]
      rfl
    rw [Store.candidates, links_crowded hlinked, hlinks, List.append_assoc]
    refine prefix_candidates hhop hids fun l hl => hclosest l.entityId (hlookedUp l ?_)
    rw [links_crowded hlinked, hlinks, List.append_assoc]
    exact List.mem_append_right _ hl
  have htaken : (((store.crowded m hids hentities hfresh).candidates lexicon hops).take
      graphMaxBoostedMemories).map Prod.fst = ids := by
    rw [List.map_take, ← hlength]
    exact (List.prefix_iff_eq_take.mp hprefix).symm
  have hkept : capCandidates ((store.crowded m hids hentities hfresh).candidates lexicon hops) =
      ((store.crowded m hids hentities hfresh).candidates lexicon hops).take
        graphMaxBoostedMemories := by
    refine capCandidates_of_heavier fun a ha b hb => ?_
    have hid : a.1 ∈ ids := htaken ▸ List.mem_map_of_mem ha
    refine heavier_of_linked ?_ (List.mem_of_mem_take ha) hb fun l hl => ?_
    · exact (store.crowded m hids hentities hfresh).linksUnique.filter _
    · refine ⟨⟨a.1, l.entityId, ""⟩, ?_, rfl, rfl⟩
      rw [links_crowded hlinked]
      refine List.mem_append_left _ (mem_crowdLinks.mpr ⟨hid, ?_, rfl⟩)
      exact (hlinked _).mpr (hlookedUp l hl)
  have hrows : (((store.crowded m hids hentities hfresh).candidates lexicon hops).take
      graphMaxBoostedMemories).filterMap (seenRow (store.seen f engine).memories) = [] := by
    refine List.filterMap_eq_nil_iff.mpr fun c hc => seenRow_eq_none ?_
    exact shows_fresh (htaken ▸ List.mem_map_of_mem hc) hfresh
  rw [collectMemories_eq, hkept, seen_crowded, hrows, List.insertionSort_nil, List.take_nil]

end Crowded

variable {lexicon : Lexicon F} {hops : EntityHops F} {topK : ℕ} {query : String}

theorem exists_closest (h : hops.lookedUp ≠ []) :
    ∃ e ∈ hops.lookedUp, ∀ e' ∈ hops.lookedUp,
      hops.distanceOf ⟨0, e, ""⟩ ≤ hops.distanceOf ⟨0, e', ""⟩ := by
  obtain ⟨e, he⟩ := Option.ne_none_iff_exists'.mp
    (mt (List.argmin_eq_none (f := fun e => hops.distanceOf ⟨0, e, ""⟩)).mp h)
  exact ⟨e, List.argmin_mem he,
    fun e' he' => List.le_of_mem_argmin (f := fun e => hops.distanceOf ⟨0, e, ""⟩) he' he⟩

theorem lookedUp_nodup : hops.lookedUp.Nodup := by
  unfold EntityHops.lookedUp
  split
  · have hsorted : Keyed.Unique Prod.fst (hops.entries.insertionSort closer) :=
      ((List.perm_insertionSort closer hops.entries).map Prod.fst).nodup_iff.mpr hops.unique
    exact hsorted.sublist ((List.take_sublist _ _).map Prod.fst)
  · exact hops.unique

theorem exists_fresh (store : Store V) (n : ℕ) : ∃ ids : List ℕ, ids.Nodup ∧ ids.length = n ∧
    ∀ old ∈ store.memories, old.id ∉ ids := by
  refine ⟨List.range' ((store.memories.map Memory.id).foldr max 0 + 1) n, List.nodup_range',
    List.length_range', fun old hold hid => ?_⟩
  have hle : old.id ≤ (store.memories.map Memory.id).foldr max 0 :=
    List.le_max_of_le' 0 (List.mem_map_of_mem hold) le_rfl
  have hge := (List.mem_range'_1.mp hid).1
  omega

theorem exists_empty (store : Store V) (m : Memory V) (h : hops.lookedUp ≠ []) :
    ∃ store' : Store V, store'.seen f engine = store.seen f engine ∧
      collectMemories store' engine lexicon hops f topK query = [] := by
  obtain ⟨ids, hids, hlength, hfresh⟩ := exists_fresh store graphMaxBoostedMemories
  obtain ⟨e, he, hclosest⟩ := exists_closest h
  have hentities : (e :: hops.lookedUp.erase e).Nodup :=
    (List.perm_cons_erase he).nodup_iff.mp lookedUp_nodup
  have hlinked : ∀ e', e' ∈ e :: hops.lookedUp.erase e ↔ e' ∈ hops.lookedUp :=
    fun e' => (List.perm_cons_erase he).mem_iff.symm
  exact ⟨store.crowded m hids hentities hfresh, seen_crowded,
    collectMemories_crowded hlength hlinked rfl hclosest⟩

theorem mem_capCandidates {cands : List (ℕ × Candidate F)} {c : ℕ × Candidate F}
    (h : c ∈ capCandidates cands) : c ∈ cands := by
  unfold capCandidates at h
  split at h
  · exact (List.mem_insertionSort _).mp (List.mem_of_mem_take h)
  · exact h

theorem capCandidates_ne_nil {cands : List (ℕ × Candidate F)} (h : cands ≠ []) :
    capCandidates cands ≠ [] := by
  unfold capCandidates
  split
  · intro hnone
    have hlength := congrArg List.length hnone
    rw [List.length_take, List.length_insertionSort, List.length_nil,
      graphMaxBoostedMemories] at hlength
    have hpos := List.length_pos_of_ne_nil h
    omega
  · exact h

theorem collectMemories_eq_nil
    (h : ∀ l ∈ (store.seen f engine).links, l.entityId ∉ hops.lookedUp) :
    collectMemories store engine lexicon hops f topK query = [] := by
  have hrows : (capCandidates (store.candidates lexicon hops)).filterMap
      (seenRow (store.seen f engine).memories) = [] := by
    refine List.filterMap_eq_nil_iff.mpr fun c hc => seenRow_eq_none ?_
    obtain ⟨l, hl, hentity, hid⟩ :=
      mem_keys_candidates.mp (List.mem_map_of_mem (mem_capCandidates hc))
    refine Bool.eq_false_iff.mpr fun hshown => ?_
    exact h l (List.mem_filter.mpr ⟨hl, hid ▸ hshown⟩) hentity
  rw [collectMemories_eq, hrows, List.insertionSort_nil, List.take_nil]

theorem collectMemories_seen_ne_nil (lexicon : Lexicon F) (query : String) (htop : topK ≠ 0)
    {l : MemoryEntityLink} (hl : l ∈ (store.seen f engine).links) (hentity : l.entityId ∈ hops.lookedUp) :
    collectMemories (store.seen f engine) engine lexicon hops f topK query ≠ [] := by
  have hcands : (store.seen f engine).candidates lexicon hops ≠ [] := by
    intro hnone
    have hkey : l.memoryId ∈ ((store.seen f engine).candidates lexicon hops).map Prod.fst :=
      mem_keys_candidates.mpr ⟨l, hl, hentity, rfl⟩
    rw [hnone] at hkey
    exact List.not_mem_nil hkey
  obtain ⟨c, hc⟩ := List.exists_mem_of_ne_nil _ (capCandidates_ne_nil hcands)
  have hrow : ∃ row, seenRow (store.seen f engine).memories c = some row := by
    obtain ⟨l', hl', -, hid⟩ :=
      mem_keys_candidates.mp (List.mem_map_of_mem (mem_capCandidates hc))
    obtain ⟨m, hm, hsame⟩ := (store.seen f engine).linksMemory l' hl'
    refine ⟨_, congrArg (Option.map _) ((Keyed.get_eq_some
      (store.seen f engine).memoriesUnique).mpr ⟨hm, hsame.trans hid⟩)⟩
  obtain ⟨row, hrow⟩ := hrow
  rw [collectMemories_eq, seen_seen, Ne, List.take_eq_nil_iff, not_or]
  refine ⟨htop, List.ne_nil_of_mem (a := row) ?_⟩
  exact (List.mem_insertionSort _).mpr (List.mem_filterMap.mpr ⟨c, hc, hrow⟩)

/-- The answer to a caller who sees a memory of the entities depends on what the caller does not
see; it does not as long as no more memories are linked to them than the cap lets pass. -/
theorem lookup_independent_iff (store : Store V) (engine : Engine V) (lexicon : Lexicon F)
    (hops : EntityHops F) (f : Filters) (topK : ℕ) (query : String) :
    ((∀ store' : Store V, store'.seen f engine = store.seen f engine →
        collectMemories store' engine lexicon hops f topK query =
          collectMemories store engine lexicon hops f topK query) ↔
      topK = 0 ∨ ∀ l ∈ (store.seen f engine).links, l.entityId ∉ hops.lookedUp) ∧
    ∀ store' : Store V, store'.seen f engine = store.seen f engine →
      (store.linkedIds hops).length ≤ graphMaxBoostedMemories →
      (store'.linkedIds hops).length ≤ graphMaxBoostedMemories →
      collectMemories store' engine lexicon hops f topK query =
        collectMemories store engine lexicon hops f topK query := by
  refine ⟨⟨fun h => ?_, fun h store' hsame => ?_⟩, fun store' hsame hfew hfew' => ?_⟩
  · by_contra hlinked
    rw [not_or, not_forall] at hlinked
    obtain ⟨htop, l, hl⟩ := hlinked
    rw [Classical.not_imp, not_not] at hl
    obtain ⟨m, -, -⟩ := (store.seen f engine).linksMemory l hl.1
    obtain ⟨store', hsame, hempty⟩ :=
      exists_empty store m (List.ne_nil_of_mem hl.2)
    refine collectMemories_seen_ne_nil lexicon query htop hl.1 hl.2 ?_
    rw [h _ seen_seen, ← h _ hsame, hempty]
  · rcases h with rfl | hnone
    · rw [collectMemories_eq, collectMemories_eq, List.take_zero, List.take_zero]
    · rw [collectMemories_eq_nil hnone, collectMemories_eq_nil]
      rwa [hsame]
  · rw [collectMemories_seen hfew, collectMemories_seen hfew', hsame]

def sampleHops : EntityHops ℕ := ⟨[(1, ⟨0, 1⟩)], by decide⟩

def sampleFilters : Filters := ⟨"t", none, none, some "a", none, none, none, none⟩

def linkedStore : Store ℕ where
  memories := [Memories.sampleMemory.row 7 0]
  links := [⟨7, 1, "subject"⟩]
  memoriesUnique := by decide
  linksUnique := by decide
  linksMemory := by simp [NewMemory.row]

def crowdedStore : Store ℕ :=
  linkedStore.crowded (Memories.sampleMemory.row 7 0)
    (List.nodup_range' : (List.range' 8 50).Nodup) (List.nodup_singleton 1)
    (by simp [linkedStore, NewMemory.row])

/-- Fifty deleted memories of an entity hide the one that the caller sees. -/
theorem lookup_depends_on_unseen :
    ¬ ∀ (store store' : Store ℕ) (engine : Engine ℕ) (lexicon : Lexicon ℕ) (hops : EntityHops ℕ)
      (f : Filters) (topK : ℕ) (query : String),
      store'.seen f engine = store.seen f engine →
        (collectMemories store' engine lexicon hops f topK query).map LookupRow.memory =
          (collectMemories store engine lexicon hops f topK query).map LookupRow.memory := by
  intro h
  have hsame := congrArg List.length (h linkedStore crowdedStore ⟨fun _ => false, id⟩
    ⟨fun _ => [], Reached.weight⟩ sampleHops sampleFilters 5 "john smith" seen_crowded)
  exact absurd hsame (by decide)

end Memclaw.Search

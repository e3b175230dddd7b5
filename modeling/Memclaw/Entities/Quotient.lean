import Mathlib.Data.String.Basic
import Memclaw.Entities.Merge
import Memclaw.Memories.Statements

/-! What a merge leaves of the tables: their image under the map that sends the duplicate to the
canonical entity. -/

namespace Memclaw.Entities

open Memclaw.Lib
open Memclaw.Memories (Memory)

variable {V W : Type} [LinearOrder W]

theorem mergeId_ne {c d : ℕ} (hne : c ≠ d) (id : ℕ) : mergeId c d id ≠ d := by
  unfold mergeId
  split
  · exact hne
  · assumption

def MemoryEntityLink.image (c d : ℕ) (l : MemoryEntityLink) : MemoryEntityLink :=
  { l with entityId := mergeId c d l.entityId }

namespace Tables

variable {t : Tables V W} {tenantId : String} {c d : ℕ}

structure Scoped (t : Tables V W) (tenantId : String) (id : ℕ) : Prop where
  links : ∀ l ∈ t.links, l.entityId = id → t.memoryOf tenantId l.memoryId = true
  relations : ∀ r ∈ t.relations, r.fromEntityId = id ∨ r.toEntityId = id → r.tenantId = tenantId

omit [LinearOrder W] in
theorem repointLinks_some (hne : c ≠ d) (hunique : Keyed.Unique MemoryEntityLink.key t.links)
    (hscope : t.Scoped tenantId d) :
    ∃ links, (t.dropDoubleLinks tenantId c d).repointLinks tenantId c d =
        some { t with links := links } ∧
      Keyed.Unique MemoryEntityLink.key links ∧
      (∀ l' ∈ links, ∃ l ∈ t.links, l' = l.image c d) ∧
      ∀ l ∈ t.links, ∃ l' ∈ links, l'.key = (l.image c d).key := by
  have himage : ∀ l ∈ t.links, repointLink tenantId c d t l = l.image c d := by
    intro l hl
    unfold repointLink MemoryEntityLink.image mergeId
    by_cases hd : l.entityId = d
    · rw [if_pos hd, hscope.links l hl hd, Bool.and_true, if_pos (decide_eq_true hd)]
    · rw [if_neg hd, decide_eq_false hd, Bool.false_and, if_neg Bool.false_ne_true]
  refine ⟨_, repointLinks_eq hunique, repointLinks_unique hunique, ?_, ?_⟩
  · intro l' hl'
    obtain ⟨l, hl, rfl⟩ := List.mem_map.mp hl'
    have hl'' : l ∈ t.links := List.mem_of_mem_filter hl
    exact ⟨l, hl'', himage l hl''⟩
  · intro l hl
    by_cases hstays : l ∈ (t.dropDoubleLinks tenantId c d).links
    · exact ⟨_, List.mem_map_of_mem hstays, by rw [himage l hl]⟩
    · -- the canonical entity has a link to the memory, and that one stays
      rw [mem_dropDoubleLinks] at hstays
      push Not at hstays
      obtain ⟨hd, -, mel, hmel, hkey⟩ := hstays hl
      have hc : mel.entityId = c := congrArg Prod.snd hkey
      have hmel' : mel ∈ (t.dropDoubleLinks tenantId c d).links :=
        mem_dropDoubleLinks.mpr ⟨hmel, fun hd' => absurd (hc.symm.trans hd') hne⟩
      refine ⟨_, List.mem_map_of_mem hmel', ?_⟩
      rw [himage mel hmel]
      have hmemory : mel.memoryId = l.memoryId := congrArg Prod.fst hkey
      refine Prod.ext hmemory ?_
      show mergeId c d mel.entityId = mergeId c d l.entityId
      rw [mergeId, mergeId, if_pos hd, if_neg (hc ▸ hne), hc]

end Tables

def Relation.image (c d : ℕ) (weight : W) (r : Relation W) : Relation W :=
  { r with
    fromEntityId := mergeId c d r.fromEntityId
    toEntityId := mergeId c d r.toEntityId
    weight := weight }

def Relation.imageEnd (c d : ℕ) (e : End) (weight : W) (r : Relation W) : Relation W :=
  { r.setNear e (mergeId c d (r.key.near e)) with weight := weight }

namespace Tables

variable {t : Tables V W} {tenantId : String} {c d : ℕ}

def weightsTo (t : Tables V W) (c d : ℕ) (k : RelationKey) : Set W :=
  {v | ∃ r ∈ t.relations, r.key.image c d = k ∧ r.weight = v}

theorem keepWeight_eq (e : End) (r : Relation W) :
    keepWeight tenantId c d e t r = { r with weight := (keepWeight tenantId c d e t r).weight } := by
  unfold keepWeight
  split
  · split <;> rfl
  · rfl

theorem repointRelations_rows {e : End} {t' : Tables V W}
    (h : t.repointRelations tenantId c d e = some t')
    (hscope : ∀ r ∈ t.relations, r.key.near e = d → r.tenantId = tenantId) :
    ∀ r' ∈ t'.relations, ∃ r ∈ t.relations, r' = r.imageEnd c d e r'.weight := by
  rw [repointRelations_eq h]
  intro r' hr'
  obtain ⟨s, hs, rfl⟩ := List.mem_map.mp hr'
  have hs' : s ∈ (t.keepWeights tenantId c d e).relations := List.mem_of_mem_filter hs
  obtain ⟨r, hr, rfl⟩ := List.mem_map.mp hs'
  refine ⟨r, hr, ?_⟩
  rw [repoint_weight, Relation.imageEnd, mergeId, repoint, keepWeight_key, keepWeight_eq]
  by_cases hd : r.key.near e = d
  · have hmoved : (r.key.near e = d && r.tenantId = tenantId) = true := by
      rw [Bool.and_eq_true, decide_eq_true_eq, decide_eq_true_eq]
      exact ⟨hd, hscope r hr hd⟩
    rw [if_pos hd, if_pos hmoved]
    cases e <;> rfl
  · rw [if_neg hd, decide_eq_false hd, Bool.false_and, if_neg Bool.false_ne_true]
    cases e <;> rfl

theorem fold_greatest (hne : c ≠ d) (h : Keyed.Unique Relation.key t.relations) (k : RelationKey) :
    Keyed.Greatest (t.weightsTo c d k)
      (foldWeights c d .target (foldWeights c d .source t.weightAt) k) := by
  have hsource := foldWeights_greatest hne .source fun k => Keyed.Greatest.of_option (t.weightAt k)
  have htarget := foldWeights_greatest hne .target hsource k
  have hset : {v | ∃ k', k'.imageEnd c d .target = k ∧
      v ∈ {v | ∃ k'', k''.imageEnd c d .source = k' ∧ v ∈ {v | t.weightAt k'' = some v}}} =
        t.weightsTo c d k := by
    ext v
    simp only [weightsTo, Set.mem_ofPred_eq, weightAt_eq_some h]
    constructor
    · rintro ⟨k', rfl, k'', rfl, r, hr, rfl, hv⟩
      exact ⟨r, hr, rfl, hv⟩
    · rintro ⟨r, hr, rfl, hv⟩
      exact ⟨_, rfl, _, rfl, r, hr, rfl, hv⟩
  rwa [hset] at htarget

omit [LinearOrder W] in
theorem weightsTo_of_other (h : Keyed.Unique Relation.key t.relations)
    (hscope : t.Scoped tenantId d) {k : RelationKey} (hk : k.tenantId ≠ tenantId) :
    t.weightsTo c d k = {v | t.weightAt k = some v} := by
  have hsame : ∀ r ∈ t.relations, r.tenantId ≠ tenantId → r.key.image c d = r.key := by
    intro r hr hother
    have hfrom : r.fromEntityId ≠ d := fun hd => hother (hscope.relations r hr (.inl hd))
    have hto : r.toEntityId ≠ d := fun hd => hother (hscope.relations r hr (.inr hd))
    show RelationKey.mk _ (mergeId c d r.fromEntityId) _ (mergeId c d r.toEntityId) = r.key
    rw [mergeId, mergeId, if_neg hfrom, if_neg hto]
    rfl
  ext v
  rw [weightsTo, Set.mem_ofPred_eq, Set.mem_ofPred_eq, weightAt_eq_some h]
  constructor
  · rintro ⟨r, hr, rfl, hv⟩
    exact ⟨r, hr, (hsame r hr hk).symm, hv⟩
  · rintro ⟨r, hr, rfl, hv⟩
    exact ⟨r, hr, hsame r hr hk, hv⟩

theorem repointBoth_quotient (hne : c ≠ d) (h : Keyed.Unique Relation.key t.relations)
    (hscope : t.Scoped tenantId d) :
    ∃ t' t'', t.repointRelations tenantId c d .source = some t' ∧
      t'.repointRelations tenantId c d .target = some t'' ∧
      Keyed.Unique Relation.key t''.relations ∧
      (∀ k v, (∃ r' ∈ t''.relations, r'.key = k ∧ r'.weight = v) ↔
        IsGreatest (t.weightsTo c d k) v ∧
          (k.fromEntityId = c ∧ k.toEntityId = c → ∃ r ∈ t.relations, r.key = k)) ∧
      ∀ r' ∈ t''.relations, ∃ r ∈ t.relations, r' = r.image c d r'.weight := by
  obtain ⟨t', t'', ht', ht'', hunique, hweight⟩ := repointBoth_some tenantId hne h
  have hrows' := repointRelations_rows ht' fun r hr hd => hscope.relations r hr (.inl hd)
  have hscope' : ∀ r' ∈ t'.relations, r'.key.near .target = d → r'.tenantId = tenantId := by
    intro r' hr' hd
    obtain ⟨r, hr, hrow⟩ := hrows' r' hr'
    rw [hrow] at hd ⊢
    exact hscope.relations r hr (.inr hd)
  have hrows'' := repointRelations_rows ht'' hscope'
  refine ⟨t', t'', ht', ht'', hunique, fun k v => ?_, fun r'' hr'' => ?_⟩
  · rw [← weightAt_eq_some hunique, hweight, ← weightAt_isSome, Option.isSome_iff_ne_none]
    have hgreatest := (fold_greatest hne h k).eq_some_iff (v := v)
    by_cases htenant : k.tenantId = tenantId
    · rw [if_neg (not_not.mpr htenant), ← hgreatest]
      by_cases hloop : k.fromEntityId = c ∧ k.toEntityId = c ∧ t.weightAt k = none
      · rw [if_pos hloop]
        constructor
        · intro hnone
          exact nomatch hnone
        · intro hthere
          exact absurd hloop.2.2 (hthere.2 ⟨hloop.1, hloop.2.1⟩)
      · rw [if_neg hloop]
        refine ⟨fun hv => ⟨hv, fun hends hnone => hloop ⟨hends.1, hends.2, hnone⟩⟩, And.left⟩
    · rw [if_pos htenant, weightsTo_of_other h hscope htenant,
        ← (Keyed.Greatest.of_option (t.weightAt k)).eq_some_iff]
      refine ⟨fun hv => ⟨hv, fun _ => ?_⟩, And.left⟩
      rw [hv]
      exact Option.some_ne_none v
  · obtain ⟨r', hr', hrow''⟩ := hrows'' r'' hr''
    obtain ⟨r, hr, hrow'⟩ := hrows' r' hr'
    refine ⟨r, hr, ?_⟩
    rw [hrow'', hrow']
    rfl

/-- The tables after a merge are the image of those before it: the canonical entity takes the
duplicate's links and relations, and the duplicate is gone. A memory may have lost a subject. -/
structure IsQuotient (c d : ℕ) (attributes : Dict) (t t' : Tables V W) : Prop where
  linkKeys : ∀ k, (∃ l' ∈ t'.links, l'.key = k) ↔ ∃ l ∈ t.links, (l.image c d).key = k
  linksUnique : Keyed.Unique MemoryEntityLink.key t'.links
  linkRows : ∀ l' ∈ t'.links, ∃ l ∈ t.links, l' = l.image c d
  relationWeights : ∀ k v, (∃ r' ∈ t'.relations, r'.key = k ∧ r'.weight = v) ↔
    IsGreatest (t.weightsTo c d k) v ∧
      (k.fromEntityId = c ∧ k.toEntityId = c → ∃ r ∈ t.relations, r.key = k)
  relationsUnique : Keyed.Unique Relation.key t'.relations
  relationRows : ∀ r' ∈ t'.relations, ∃ r ∈ t.relations, r' = r.image c d r'.weight
  entities : t'.entities = (t.entities.filter fun e => e.id ≠ d).map fun e =>
    if e.id = c then { e with attributes := some attributes } else e
  memories : List.Forall₂ (fun m m' => m' = m ∨ m.subjectEntityId = some d ∧
    m' = { m with subjectEntityId := m'.subjectEntityId }) t.memories t'.memories
  unreferenced : (∀ e ∈ t'.entities, e.id ≠ d) ∧ (∀ l ∈ t'.links, l.entityId ≠ d) ∧
    (∀ r ∈ t'.relations, r.fromEntityId ≠ d ∧ r.toEntityId ≠ d) ∧
    ∀ m ∈ t'.memories, m.subjectEntityId ≠ some d

end Tables

theorem merge_isQuotient {t : Tables V W} {canonical dupe : Entity V} {tenantId : String}
    {attributes : Dict} (hne : canonical.id ≠ dupe.id)
    (hlinks : Keyed.Unique MemoryEntityLink.key t.links)
    (hrelations : Keyed.Unique Relation.key t.relations) (hscope : t.Scoped tenantId dupe.id)
    (hattributes : mergedAttributes canonical dupe = some attributes) :
    ∃ t', entityMergeDupeIntoCanonical t canonical dupe tenantId = some t' ∧
      t.IsQuotient canonical.id dupe.id attributes t' := by
  obtain ⟨links, hrepoint, hunique, hrows, himage⟩ := Tables.repointLinks_some hne hlinks hscope
  have hscope' : Tables.Scoped { t with links := links } tenantId dupe.id :=
    ⟨fun l hl hd => by
      obtain ⟨old, -, rfl⟩ := hrows l hl
      exact absurd hd (mergeId_ne hne _), hscope.relations⟩
  obtain ⟨t', t'', ht', ht'', hunique', hweights, hrelationRows⟩ :=
    Tables.repointBoth_quotient hne (t := { t with links := links }) hrelations hscope'
  obtain ⟨hentities, hmemories, hlinks''⟩ := Tables.repointBoth_frame ht' ht''
  have hlinksLeft : ∀ l' ∈ links, l'.entityId ≠ dupe.id := by
    intro l' hl'
    obtain ⟨l, -, rfl⟩ := hrows l' hl'
    exact mergeId_ne hne _
  have hrelationsLeft : ∀ r' ∈ t''.relations,
      r'.fromEntityId ≠ dupe.id ∧ r'.toEntityId ≠ dupe.id := by
    intro r' hr'
    obtain ⟨r, -, hrow⟩ := hrelationRows r' hr'
    rw [hrow]
    exact ⟨mergeId_ne hne _, mergeId_ne hne _⟩
  let merged := (t''.setAttributes canonical.id attributes).deleteEntity dupe.id
  have hmerge : entityMergeDupeIntoCanonical t canonical dupe tenantId = some merged := by
    simp only [entityMergeDupeIntoCanonical, Option.bind_eq_bind, hrepoint, ht', ht'',
      hattributes, Option.bind_some]
    rfl
  have hlinks' : merged.links = links := by
    show t''.links.filter _ = links
    rw [hlinks'']
    exact List.filter_eq_self.mpr fun l hl => decide_eq_true (hlinksLeft l hl)
  have hrelations' : merged.relations = t''.relations := by
    refine List.filter_eq_self.mpr fun r hr => ?_
    rw [Bool.and_eq_true]
    exact ⟨decide_eq_true (hrelationsLeft r hr).1, decide_eq_true (hrelationsLeft r hr).2⟩
  have hmemories' : merged.memories = t.memories.map fun m =>
      if m.subjectEntityId = some dupe.id then { m with subjectEntityId := none } else m := by
    show t''.memories.map _ = _
    rw [hmemories]
  have hentities' : merged.entities = (t.entities.filter fun e => e.id ≠ dupe.id).map fun e =>
      if e.id = canonical.id then { e with attributes := some attributes } else e := by
    rw [← hentities]
    exact t''.entities_of_merge canonical.id dupe.id attributes
  refine ⟨merged, hmerge, ?_, ?_, ?_, ?_, ?_, ?_, hentities', ?_, ?_, ?_, ?_, ?_⟩
  · intro k
    rw [hlinks']
    constructor
    · rintro ⟨l', hl', rfl⟩
      obtain ⟨l, hl, rfl⟩ := hrows l' hl'
      exact ⟨l, hl, rfl⟩
    · rintro ⟨l, hl, rfl⟩
      exact himage l hl
  · rw [hlinks']
    exact hunique
  · rw [hlinks']
    exact hrows
  · rw [hrelations']
    exact hweights
  · rw [hrelations']
    exact hunique'
  · rw [hrelations']
    exact hrelationRows
  · rw [hmemories', List.forall₂_map_right_iff, List.forall₂_same]
    intro m _
    split
    · next hsubject => exact .inr ⟨hsubject, rfl⟩
    · exact .inl rfl
  · intro e he
    exact of_decide_eq_true (List.mem_filter.mp he).2
  · rw [hlinks']
    exact hlinksLeft
  · rw [hrelations']
    exact hrelationsLeft
  · intro m' hm'
    rw [hmemories'] at hm'
    obtain ⟨m, -, rfl⟩ := List.mem_map.mp hm'
    split
    · intro hnone
      exact nomatch hnone
    · assumption

theorem mem_sortedSet {texts : List String} {a : String} : a ∈ sortedSet texts ↔ a ∈ texts := by
  rw [sortedSet, List.mem_mergeSort, List.mem_dedup]

theorem sortedSet_sorted (texts : List String) : (sortedSet texts).Pairwise (· < ·) := by
  have hle : (sortedSet texts).Pairwise fun a b => (!(b < a)) = true := by
    refine List.pairwise_mergeSort (fun a b c hab hbc => ?_) (fun a b => ?_) _
    · simp only [Bool.not_eq_true', decide_eq_false_iff_not, not_lt] at hab hbc ⊢
      exact hab.trans hbc
    · simp only [Bool.or_eq_true, Bool.not_eq_true', decide_eq_false_iff_not, not_lt]
      exact le_total a b
  have hnodup : (sortedSet texts).Nodup :=
    (List.mergeSort_perm _ _).nodup_iff.mpr (List.nodup_dedup texts)
  refine (hle.and hnodup).imp fun {a b} h => ?_
  have hnot : ¬ b < a := by simpa using h.1
  exact lt_of_le_of_ne (not_lt.mp hnot) h.2

/-- A merge leaves the image of the tables, with the aliases and the names of both entities as
the canonical entity's aliases. -/
theorem merge_quotient {t : Tables V W} {canonical dupe : Entity V} {tenantId : String}
    {ofCanonical ofDupe : List String} (hne : canonical.id ≠ dupe.id)
    (hlinks : Keyed.Unique MemoryEntityLink.key t.links)
    (hrelations : Keyed.Unique Relation.key t.relations) (hscope : t.Scoped tenantId dupe.id)
    (hcanonical : canonical.aliases = some ofCanonical) (hdupe : dupe.aliases = some ofDupe) :
    ∃ (t' : Tables V W) (aliases : List String),
      entityMergeDupeIntoCanonical t canonical dupe tenantId = some t' ∧
      aliases.Pairwise (· < ·) ∧
      (∀ a, a ∈ aliases ↔ a ∈ ofCanonical ∨ a = canonical.canonicalName ∨
        a = dupe.canonicalName ∨ a ∈ ofDupe) ∧
      t.IsQuotient canonical.id dupe.id (Dict.set (canonical.attributes.getD []) "_aliases"
        (.arr (aliases.map .str))) t' := by
  have hattributes : mergedAttributes canonical dupe = some (Dict.set
      (canonical.attributes.getD []) "_aliases" (.arr ((sortedSet (ofCanonical ++
        [canonical.canonicalName, dupe.canonicalName] ++ ofDupe)).map .str))) := by
    rw [mergedAttributes, mergedAliases, hcanonical, hdupe]
    rfl
  obtain ⟨t', hmerge, hquotient⟩ := merge_isQuotient hne hlinks hrelations hscope hattributes
  refine ⟨t', _, hmerge, sortedSet_sorted _, fun a => ?_, hquotient⟩
  rw [mem_sortedSet]
  simp only [List.mem_append, List.mem_cons, List.not_mem_nil, or_false, or_assoc]

def lovelace : Entity ℕ where
  id := 1
  tenantId := "t"
  fleetId := none
  entityType := "person"
  canonicalName := "Ada Lovelace"
  attributes := none
  nameEmbedding := none

def ada : Entity ℕ := { lovelace with id := 2, canonicalName := "Ada" }

def sampleGraph : Tables ℕ ℕ where
  entities := [lovelace, ada, { lovelace with id := 3, canonicalName := "Charles Babbage" }]
  memories := [Memories.sampleMemory.row 7 0]
  links := [⟨7, 1, "subject"⟩, ⟨7, 2, "mentioned"⟩]
  relations := [⟨1, "t", none, 1, "knows", 3, 2, some 7⟩, ⟨2, "t", none, 2, "knows", 3, 5, none⟩,
    ⟨3, "t", none, 2, "same_as", 1, 1, none⟩, ⟨4, "t", none, 2, "likes", 2, 4, none⟩,
    ⟨5, "t", none, 3, "knows", 2, 3, none⟩]

theorem merge_quotient_sample : ∃ (t' : Tables ℕ ℕ) (aliases : List String),
    entityMergeDupeIntoCanonical sampleGraph lovelace ada "t" = some t' ∧
      aliases.Pairwise (· < ·) ∧
      (∀ a, a ∈ aliases ↔ a ∈ ([] : List String) ∨ a = "Ada Lovelace" ∨ a = "Ada" ∨
        a ∈ ([] : List String)) ∧
      sampleGraph.IsQuotient 1 2 (Dict.set [] "_aliases" (.arr (aliases.map .str))) t' :=
  merge_quotient (by decide) (by decide) (by decide) ⟨by decide, by decide⟩ rfl rfl

/-- A merge writes the canonical entity's attributes, and raises where an entity's aliases are no
texts. -/
theorem merge_beyond_image :
    (∃ t', entityMergeDupeIntoCanonical sampleGraph lovelace ada "t" = some t' ∧
      t'.entities.map (·.attributes) ≠
        (sampleGraph.entities.filter fun e => e.id ≠ 2).map (·.attributes)) ∧
    (entityMergeDupeIntoCanonical sampleGraph lovelace
      { ada with attributes := some [("_aliases", .bool true)] } "t").isNone = true := by
  have hscope : sampleGraph.Scoped "t" ada.id := ⟨by decide, by decide⟩
  have hattributes : mergedAttributes lovelace ada = some _ := rfl
  obtain ⟨t', hmerge, hquotient⟩ :=
    merge_isQuotient (by decide) (by decide) (by decide) hscope hattributes
  refine ⟨⟨t', hmerge, ?_⟩, by decide⟩
  rw [hquotient.entities]
  intro hsame
  exact nomatch (List.cons.inj hsame).1

end Memclaw.Entities

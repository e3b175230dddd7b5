import Memclaw.Entities.Connectivity
import Memclaw.Memories.Statements

/-! Which entities a run of `entity_resolve_duplicates` merges, told from the tables before it, and
what becomes of the memories about them. -/

namespace Memclaw.Entities

open Memclaw.Lib
open Memclaw.Lib.UnionFind (Forest)
open Memclaw.Memories (Memory)

variable {V W D : Type} [LinearOrder D]

variable (q : ResolveRequest V D) (t : Tables V W)

def Joined : ℕ → ℕ → Prop := Relation.EqvGen fun a b => (a, b) ∈ similarPairs q t

variable {q t}

theorem mem_cluster_iff {order : SetOrder} {cluster : Cluster}
    (h : cluster ∈ clustersOf order (similarPairs q t)) {d : ℕ} (hd : d ∈ cluster.2) (x : ℕ) :
    x ∈ cluster.2 ↔ Joined q t x d := mem_linked_iff h hd x

theorem better_iff {a b : Entity V} : a.better b = true ↔
    b.canonicalName.length < a.canonicalName.length ∨
      a.canonicalName.length = b.canonicalName.length ∧ a.id < b.id := by
  rw [Entity.better, Bool.or_eq_true, Bool.and_eq_true, decide_eq_true_eq, decide_eq_true_eq,
    decide_eq_true_eq]

theorem not_better_trans {a b c : Entity V} (hab : ¬ a.better b = true)
    (hbc : ¬ b.better c = true) : ¬ a.better c = true := by
  rw [better_iff] at hab hbc ⊢
  omega

theorem better_of_not {a b : Entity V} (hne : a.id ≠ b.id) (h : ¬ b.better a = true) :
    a.better b = true := by
  rw [better_iff] at h ⊢
  omega

theorem not_better_of_better {a b : Entity V} (h : a.better b = true) : ¬ b.better a = true := by
  rw [better_iff] at h ⊢
  omega

theorem foldl_better_best (best : Entity V) (rest : List (Entity V)) :
    ∀ e ∈ best :: rest,
      ¬ e.better (rest.foldl (fun best e => if e.better best then e else best) best) = true := by
  induction rest generalizing best with
  | nil =>
    intro e he
    rw [List.mem_singleton.mp he, List.foldl_nil, better_iff]
    omega
  | cons next rest ih =>
    have hkept := ih (if next.better best then next else best)
    have hover : ¬ best.better (if next.better best then next else best) = true ∧
        ¬ next.better (if next.better best then next else best) = true := by
      split
      · next hbetter =>
        refine ⟨not_better_of_better hbetter, ?_⟩
        rw [better_iff]
        omega
      · next hbetter =>
        refine ⟨?_, hbetter⟩
        rw [better_iff]
        omega
    intro e he
    rw [List.foldl_cons]
    rcases List.mem_cons.mp he with rfl | he
    · exact not_better_trans hover.1 (hkept _ List.mem_cons_self)
    · rcases List.mem_cons.mp he with rfl | he
      · exact not_better_trans hover.2 (hkept _ List.mem_cons_self)
      · exact hkept e (List.mem_cons_of_mem _ he)

theorem pickCanonical_eq_some {entities : List (Entity V)} (hunique : Keyed.Unique Entity.id entities)
    {c : Entity V} : pickCanonical entities = some c ↔
      c ∈ entities ∧ ∀ e ∈ entities, e.id ≠ c.id → c.better e = true := by
  have hbest : ∀ {r}, pickCanonical entities = some r →
      ∀ e ∈ entities, e.id ≠ r.id → r.better e = true := by
    intro r hr e he hne
    cases entities with
    | nil => exact nomatch hr
    | cons first rest =>
      obtain rfl := Option.some.inj hr
      exact better_of_not hne.symm (foldl_better_best first rest e he)
  constructor
  · intro h
    exact ⟨pickCanonical_mem h, hbest h⟩
  · rintro ⟨hmem, hc⟩
    cases hpick : pickCanonical entities with
    | none =>
      cases entities with
      | nil => exact absurd hmem List.not_mem_nil
      | cons first rest => exact nomatch hpick
    | some r =>
      by_cases hsame : r.id = c.id
      · rw [List.inj_on_of_nodup_map hunique (pickCanonical_mem hpick) hmem hsame]
      · have hover := hbest hpick c hmem (Ne.symm hsame)
        exact absurd hover (not_better_of_better (hc r (pickCanonical_mem hpick) hsame))

variable (q t)

structure Canonical (d : ℕ) (c : Entity V) : Prop where
  mem : c ∈ t.entities
  tenant : c.tenantId = q.tenantId
  joined : Joined q t c.id d
  best : ∀ e ∈ t.entities, e.tenantId = q.tenantId → Joined q t e.id d → e.id ≠ c.id →
    c.better e = true

/-- An entity is displaced by the canonical one of its class, unless the aliases of one of them, or
of another of the class before it in the table, cannot be read. -/
def Displaced (d : Entity V) : Prop :=
  d.tenantId = q.tenantId ∧ ∃ c, Canonical q t d.id c ∧ c.id ≠ d.id ∧
    c.aliases.isSome = true ∧ d.aliases.isSome = true ∧
    ∃ before after, t.entities = before ++ d :: after ∧ ∀ e ∈ before, e.tenantId = q.tenantId →
      Joined q t e.id d.id → e.id ≠ c.id → e.aliases.isSome = true

variable {q t}

theorem mem_takeWhile_filter {α : Type} {p r : α → Bool} {l : List α} {a : α} :
    a ∈ (l.filter p).takeWhile r ↔ p a = true ∧ r a = true ∧
      ∃ before after, l = before ++ a :: after ∧ ∀ b ∈ before, p b = true → r b = true := by
  induction l with
  | nil => simp
  | cons x l ih =>
    constructor
    · intro h
      by_cases hx : p x = true
      · rw [List.filter_cons_of_pos hx, List.takeWhile_cons] at h
        split at h
        · next hr =>
          rcases List.mem_cons.mp h with rfl | h
          · exact ⟨hx, hr, [], l, rfl, fun b hb => absurd hb List.not_mem_nil⟩
          · obtain ⟨hpa, hra, before, after, rfl, hbefore⟩ := ih.mp h
            refine ⟨hpa, hra, x :: before, after, rfl, fun b hb hpb => ?_⟩
            rcases List.mem_cons.mp hb with rfl | hb
            · exact hr
            · exact hbefore b hb hpb
        · exact absurd h List.not_mem_nil
      · rw [List.filter_cons_of_neg hx] at h
        obtain ⟨hpa, hra, before, after, rfl, hbefore⟩ := ih.mp h
        refine ⟨hpa, hra, x :: before, after, rfl, fun b hb hpb => ?_⟩
        rcases List.mem_cons.mp hb with rfl | hb
        · exact absurd hpb hx
        · exact hbefore b hb hpb
    · rintro ⟨hpa, hra, before, after, hl, hbefore⟩
      cases before with
      | nil =>
        obtain ⟨rfl, -⟩ := List.cons.inj hl
        rw [List.filter_cons_of_pos hpa, List.takeWhile_cons, if_pos hra]
        exact List.mem_cons_self
      | cons y before =>
        obtain ⟨rfl, rfl⟩ := List.cons.inj hl
        have hrest := ih.mpr ⟨hpa, hra, before, after, rfl,
          fun b hb => hbefore b (List.mem_cons_of_mem _ hb)⟩
        by_cases hx : p x = true
        · rw [List.filter_cons_of_pos hx, List.takeWhile_cons,
            if_pos (hbefore x List.mem_cons_self hx)]
          exact List.mem_cons_of_mem _ hrest
        · rwa [List.filter_cons_of_neg hx]

theorem mem_members {tenantId : String} {ids : List ℕ} {e : Entity V} :
    e ∈ t.members tenantId ids ↔ e ∈ t.entities ∧ e.id ∈ ids ∧ e.tenantId = tenantId := by
  rw [Tables.members, List.mem_filter, Bool.and_eq_true, decide_eq_true_eq, decide_eq_true_eq]

theorem pickCanonical_iff (ht : Keyed.Unique Entity.id t.entities) {ids : List ℕ} {d : ℕ}
    (hids : ∀ x, x ∈ ids ↔ Joined q t x d) {c : Entity V} :
    pickCanonical (t.members q.tenantId ids) = some c ↔ Canonical q t d c := by
  have hunique : Keyed.Unique Entity.id (t.members q.tenantId ids) := ht.filter _
  rw [pickCanonical_eq_some hunique, mem_members, hids]
  constructor
  · rintro ⟨⟨hmem, hjoined, htenant⟩, hbest⟩
    exact ⟨hmem, htenant, hjoined, fun e he htenant' hjoined' hne =>
      hbest e (mem_members.mpr ⟨he, (hids e.id).mpr hjoined', htenant'⟩) hne⟩
  · intro hc
    refine ⟨⟨hc.mem, hc.joined, hc.tenant⟩, fun e he hne => ?_⟩
    obtain ⟨he', hin, htenant⟩ := mem_members.mp he
    exact hc.best e he' htenant ((hids e.id).mp hin) hne

theorem mem_mergeableMembers (ht : Keyed.Unique Entity.id t.entities) {ids : List ℕ}
    {d : Entity V} (hids : ∀ x, x ∈ ids ↔ Joined q t x d.id) :
    d ∈ mergeableMembers (t.members q.tenantId ids) ↔ Displaced q t d := by
  -- The entities that the merge of a class takes out are those displaced.
  have hclass : ∀ c : Entity V,
      d ∈ ((t.members q.tenantId ids).filter fun e => e.id ≠ c.id).takeWhile
          (fun e => e.aliases.isSome) ↔
        d.tenantId = q.tenantId ∧ c.id ≠ d.id ∧ d.aliases.isSome = true ∧
          ∃ before after, t.entities = before ++ d :: after ∧ ∀ e ∈ before,
            e.tenantId = q.tenantId → Joined q t e.id d.id → e.id ≠ c.id →
              e.aliases.isSome = true := by
    intro c
    rw [Tables.members, List.filter_filter, mem_takeWhile_filter]
    simp only [Bool.and_eq_true, decide_eq_true_eq, hids]
    constructor
    · rintro ⟨⟨hne, -, htenant⟩, halias, before, after, hsplit, hbefore⟩
      exact ⟨htenant, Ne.symm hne, halias, before, after, hsplit,
        fun e he htenant' hjoined hne' => hbefore e he ⟨hne', hjoined, htenant'⟩⟩
    · rintro ⟨htenant, hne, halias, before, after, hsplit, hbefore⟩
      exact ⟨⟨hne.symm, .refl _, htenant⟩, halias, before, after, hsplit,
        fun e he h => hbefore e he h.2.2 h.2.1 h.1⟩
  unfold mergeableMembers
  constructor
  · intro h
    cases hpick : pickCanonical (t.members q.tenantId ids) with
    | none =>
      rw [hpick] at h
      exact absurd h List.not_mem_nil
    | some c =>
      rw [hpick] at h
      dsimp only [mergeable] at h
      split at h
      · next hc =>
        obtain ⟨htenant, hne, halias, hbefore⟩ := (hclass c).mp h
        exact ⟨htenant, c, (pickCanonical_iff ht hids).mp hpick, hne, hc, halias, hbefore⟩
      · exact absurd h List.not_mem_nil
  · rintro ⟨htenant, c, hcanonical, hne, hc, halias, hbefore⟩
    rw [(pickCanonical_iff ht hids).mpr hcanonical]
    dsimp only [mergeable]
    rw [if_pos hc, hclass]
    exact ⟨htenant, hne, halias, hbefore⟩

theorem mergeableMembers_subset (entities : List (Entity V)) :
    ∀ e ∈ mergeableMembers entities, e ∈ entities := by
  intro e he
  unfold mergeableMembers mergeable at he
  split at he
  · exact absurd he List.not_mem_nil
  · split at he
    · exact List.mem_of_mem_filter (List.takeWhile_subset _ he)
    · exact absurd he List.not_mem_nil

theorem mem_merged_iff (ht : Keyed.Unique Entity.id t.entities) (order : SetOrder)
    {d : Entity V} :
    d ∈ (clustersOf order (similarPairs q t)).flatMap (t.mergedIn q.tenantId) ↔
      Displaced q t d := by
  rw [List.mem_flatMap]
  constructor
  · rintro ⟨cluster, hcluster, hd⟩
    unfold Tables.mergedIn at hd
    split at hd
    · exact absurd hd List.not_mem_nil
    · have hin := (mem_members.mp (mergeableMembers_subset _ d hd)).2.1
      exact (mem_mergeableMembers ht (mem_cluster_iff hcluster hin)).mp hd
  · intro hd
    obtain ⟨-, c, hcanonical, hne, -⟩ := id hd
    obtain ⟨cluster, hcluster, hin⟩ := exists_cluster order
      ((mem_allIds_of_linked hcanonical.joined).resolve_left hne).2
    have hids := mem_cluster_iff hcluster hin
    refine ⟨cluster, hcluster, ?_⟩
    have htwo : ¬ cluster.2.length < 2 := by
      have hc : c.id ∈ cluster.2 := (hids c.id).mpr hcanonical.joined
      intro hshort
      rcases hlist : cluster.2 with - | ⟨x, - | ⟨y, rest⟩⟩
      · rw [hlist] at hc
        exact absurd hc List.not_mem_nil
      · rw [hlist, List.mem_singleton] at hc hin
        exact hne (hc.trans hin.symm)
      · rw [hlist] at hshort
        exact absurd hshort (by simp)
    rw [Tables.mergedIn, if_neg htwo]
    exact (mem_mergeableMembers ht hids).mpr hd

variable [LinearOrder W]

theorem entityResolveDuplicates_tables (q : ResolveRequest V D) (t : Tables V W)
    (order : SetOrder) :
    (entityResolveDuplicates q t order).1 = (processClusters q t order).tables := by
  unfold entityResolveDuplicates
  split
  · next hnone =>
    have hids : order.list (allIds []) = [] :=
      List.eq_nil_iff_forall_not_mem.mpr fun x hx => by
        rw [order.mem_list] at hx
        exact absurd (List.mem_toFinset.mp hx) List.not_mem_nil
    rw [processClusters, hnone, clustersOf, hids]
    rfl
  · dsimp only
    split <;> rfl

theorem resolve_merged (ht : t.WellKeyed) (order : SetOrder) :
    ∃ ids touched, Merged ids touched t (entityResolveDuplicates q t order).1 ∧
      ∀ id, id ∈ ids ↔ ∃ d ∈ t.entities, d.id = id ∧ Displaced q t d := by
  obtain ⟨hids, hmerged⟩ := processClusters_merged (t := t) (s := ⟨t, 0, [], 0, 0⟩)
    (Merged.refl ht []) q.tenantId (clustersOf_disjoint order _)
    fun cluster _ id _ => List.not_mem_nil
  rw [entityResolveDuplicates_tables]
  refine ⟨_, _, hmerged, fun id => ?_⟩
  rw [hids, List.nil_append, List.mem_map]
  constructor
  · rintro ⟨d, hd, rfl⟩
    have hdisplaced := (mem_merged_iff ht.entities order).mp hd
    obtain ⟨-, -, -, -, -, -, before, after, hsplit, -⟩ := id hdisplaced
    exact ⟨d, hsplit ▸ List.mem_append_right before List.mem_cons_self, rfl, hdisplaced⟩
  · rintro ⟨d, -, rfl, hd⟩
    exact ⟨d, (mem_merged_iff ht.entities order).mpr hd, rfl⟩

def MergedAway (t t' : Tables V W) (id : ℕ) : Prop :=
  (∃ e ∈ t.entities, e.id = id) ∧ ∀ e ∈ t'.entities, e.id ≠ id

/-- A memory about a merged entity is about the canonical one of its class, and every other
memory is about what it was about. -/
def SubjectsKept (q : ResolveRequest V D) (t t' : Tables V W) : Prop :=
  List.Forall₂ (fun m m' : Memory V =>
    (∀ id, m.subjectEntityId = some id → MergedAway t t' id →
      ∃ c, Canonical q t id c ∧ m'.subjectEntityId = some c.id) ∧
    ((∀ id, m.subjectEntityId = some id → ¬ MergedAway t t' id) →
      m'.subjectEntityId = m.subjectEntityId)) t.memories t'.memories

def ConflictsKept (sqlLower lower : String → String) (t t' : Tables V W) : Prop :=
  ∀ (i j : ℕ) (m m' o o' : Memory V) (subject : ℕ), t.memories[i]? = some m →
    t'.memories[i]? = some m' → t.memories[j]? = some o → t'.memories[j]? = some o' →
    m.subjectEntityId = some subject → ∀ tenantId predicate objectValue fleetId,
      o ∈ memoryFindRdfConflicts sqlLower lower t.memories tenantId subject predicate objectValue
        m.id fleetId →
      ∃ subject', m'.subjectEntityId = some subject' ∧
        o' ∈ memoryFindRdfConflicts sqlLower lower t'.memories tenantId subject' predicate
          objectValue m'.id fleetId

omit [LinearOrder W] in
theorem Merged.gone_iff {ids : List ℕ} {touched : List ℕ} {t' : Tables V W}
    (h : Merged ids touched t t') {id : ℕ} (hid : ∃ e ∈ t.entities, e.id = id) :
    (∀ e ∈ t'.entities, e.id ≠ id) ↔ id ∈ ids := by
  have hthere : id ∈ t'.entities.map Entity.id ↔ id ∉ ids := by
    rw [h.entityIds, List.mem_filter, decide_eq_true_eq]
    exact and_iff_right (List.mem_map.mpr hid)
  rw [← not_iff_not, ← hthere, List.mem_map]
  push Not
  rfl

theorem subject_lost (order : SetOrder) (ht : t.WellKeyed) {m : Memory V} (hm : m ∈ t.memories)
    {d : Entity V} (hd : d ∈ t.entities) (hsubject : m.subjectEntityId = some d.id)
    (hdisplaced : Displaced q t d) : ¬ SubjectsKept q t (entityResolveDuplicates q t order).1 := by
  obtain ⟨ids, touched, hmerged, hids⟩ := resolve_merged ht (q := q) order
  have hin : d.id ∈ ids := (hids d.id).mpr ⟨d, hd, rfl, hdisplaced⟩
  have haway : MergedAway t (entityResolveDuplicates q t order).1 d.id :=
    ⟨⟨d, hd, rfl⟩, (hmerged.gone_iff ⟨d, hd, rfl⟩).mpr hin⟩
  intro hsubjects
  unfold SubjectsKept at hsubjects
  rw [hmerged.memories, List.forall₂_map_right_iff, List.forall₂_same] at hsubjects
  obtain ⟨c, -, hkept⟩ := (hsubjects m hm).1 d.id hsubject haway
  rw [clearSubject, hsubject, Option.any_some, if_pos (decide_eq_true hin)] at hkept
  exact Option.some_ne_none _ hkept.symm

/-- A run keeps the subjects of memories exactly where none of them is displaced. -/
theorem subjects_kept_iff (sqlLower lower : String → String) (order : SetOrder)
    (ht : t.WellKeyed) :
    SubjectsKept q t (entityResolveDuplicates q t order).1 ∧
        ConflictsKept sqlLower lower t (entityResolveDuplicates q t order).1 ↔
      ∀ m ∈ t.memories, ∀ d ∈ t.entities, m.subjectEntityId = some d.id → ¬ Displaced q t d := by
  constructor
  · rintro ⟨hsubjects, -⟩ m hm d hd hsubject hdisplaced
    exact subject_lost order ht hm hd hsubject hdisplaced hsubjects
  · intro hnone
    obtain ⟨ids, touched, hmerged, hids⟩ := resolve_merged ht (q := q) order
    generalize (entityResolveDuplicates q t order).1 = t' at hmerged ⊢
    have hclear : ∀ m ∈ t.memories, ∀ id, m.subjectEntityId = some id → id ∉ ids := by
      intro m hm id hsubject hin
      obtain ⟨d, hd, rfl, hdisplaced⟩ := (hids id).mp hin
      exact hnone m hm d hd hsubject hdisplaced
    have hmemories : t'.memories = t.memories := by
      rw [hmerged.memories]
      refine (List.map_congr_left fun m hm => ?_).trans (List.map_id _)
      rw [clearSubject, if_neg, id_eq]
      rw [Option.any_eq_true]
      rintro ⟨id, hsubject, hin⟩
      exact hclear m hm id hsubject (of_decide_eq_true hin)
    refine ⟨?_, ?_⟩
    · unfold SubjectsKept
      rw [hmemories, List.forall₂_same]
      refine fun m hm => ⟨fun id hsubject haway => ?_, fun _ => rfl⟩
      exact absurd ((hmerged.gone_iff haway.1).mp haway.2) (hclear m hm id hsubject)
    · intro i j m m' o o' subject hm hm' ho ho' hsubject tenantId predicate objectValue fleetId hmem
      rw [hmemories] at hm' ho' ⊢
      obtain rfl := Option.some.inj (hm.symm.trans hm')
      obtain rfl := Option.some.inj (ho.symm.trans ho')
      exact ⟨subject, hsubject, hmem⟩

def sampleNames : Tables ℕ ℕ where
  entities := [shortName, longName]
  memories := [{ Memories.sampleMemory.row 7 0 with subjectEntityId := some 1 }]
  links := []
  relations := []

theorem sampleNames_wellKeyed : sampleNames.WellKeyed := ⟨by decide, by decide, by decide⟩

theorem shortName_displaced : Displaced sampleRequest sampleNames shortName := by
  have hpair : (1, 2) ∈ similarPairs sampleRequest sampleNames := by
    have hbatch : batch sampleRequest sampleNames = [(shortName, 4), (longName, 5)] := by
      have hrows : embedded sampleRequest sampleNames = [(shortName, 4), (longName, 5)] := by rfl
      rw [batch, hrows, List.mergeSort_of_pairwise (by simp [shortName, longName])]
      rfl
    have hnear : neighbours sampleRequest sampleNames (shortName, 4) = [(longName, 5)] := by
      have hrows : (embedded sampleRequest sampleNames).filter (fun e =>
          shortName.id < e.1.id && e.1.entityType = shortName.entityType &&
            sampleRequest.similar (sampleRequest.distance e.2 4)) = [(longName, 5)] := by rfl
      rw [neighbours, hrows, List.mergeSort_singleton]
      rfl
    rw [similarPairs, hbatch, List.flatMap_cons, hnear]
    exact List.mem_cons_self
  refine ⟨rfl, longName, ⟨by simp [sampleNames], rfl, .symm _ _ (.rel _ _ hpair), ?_⟩, by decide,
    rfl, rfl, [], [longName], rfl, fun e he => absurd he List.not_mem_nil⟩
  intro e he _ _ hne
  rcases List.mem_cons.mp he with rfl | he
  · rfl
  · exact absurd (congrArg Entity.id (List.mem_singleton.mp he)) hne

theorem subjects_kept_iff_sample :
    SubjectsKept sampleRequest sampleNames
        (entityResolveDuplicates sampleRequest sampleNames sortedOrder).1 ∧
        ConflictsKept id id sampleNames
          (entityResolveDuplicates sampleRequest sampleNames sortedOrder).1 ↔
      ∀ m ∈ sampleNames.memories, ∀ d ∈ sampleNames.entities, m.subjectEntityId = some d.id →
        ¬ Displaced sampleRequest sampleNames d :=
  subjects_kept_iff id id sortedOrder sampleNames_wellKeyed

theorem merge_drops_subject :
    ¬ (SubjectsKept sampleRequest sampleNames
        (entityResolveDuplicates sampleRequest sampleNames sortedOrder).1 ∧
      ConflictsKept id id sampleNames
        (entityResolveDuplicates sampleRequest sampleNames sortedOrder).1) := fun h =>
  subject_lost sortedOrder sampleNames_wellKeyed List.mem_cons_self List.mem_cons_self rfl
    shortName_displaced h.1

end Memclaw.Entities

import Memclaw.Contradiction.Attribution

/-! Which supersession edges a detection run may overwrite: none on the RDF and the
semantic path, the trigger's own on the entity-overlap path. The candidate queries find other rows of
the trigger's tenant, each once. -/

namespace Memclaw.Contradiction

open Memclaw.Lib

section Candidates

variable {store : Store} {newMemory : Memory}

namespace Conflicts

def filter (conflicts : Conflicts store newMemory) (p : Memory → Bool) :
    Conflicts store newMemory where
  list := conflicts.list.filter p
  stored c hc := conflicts.stored c (List.mem_of_mem_filter hc)
  tenant c hc := conflicts.tenant c (List.mem_of_mem_filter hc)
  ne c hc := conflicts.ne c (List.mem_of_mem_filter hc)
  nodup := conflicts.nodup.sublist (List.filter_sublist.map _)

def take (conflicts : Conflicts store newMemory) (limit : ℕ) : Conflicts store newMemory where
  list := conflicts.list.take limit
  stored c hc := conflicts.stored c (List.mem_of_mem_take hc)
  tenant c hc := conflicts.tenant c (List.mem_of_mem_take hc)
  ne c hc := conflicts.ne c (List.mem_of_mem_take hc)
  nodup := conflicts.nodup.sublist ((List.take_sublist limit _).map _)

def ofQuery (rt : Runtime) (store : Store) (newMemory : Memory) (p : Memory → Bool)
    (hp : ∀ m, p m = true → m.tenantId = newMemory.tenantId ∧ m.id ≠ newMemory.id) :
    Conflicts store newMemory where
  list := rt.order (store.rows.filter p)
  stored c hc := List.mem_of_mem_filter ((rt.order_perm _).mem_iff.mp hc)
  tenant c hc := (hp c (List.of_mem_filter ((rt.order_perm _).mem_iff.mp hc))).1
  ne c hc := (hp c (List.of_mem_filter ((rt.order_perm _).mem_iff.mp hc))).2
  nodup := by
    have hperm := (rt.order_perm (store.rows.filter p)).map (·.id)
    rw [hperm.nodup_iff]
    exact store.nodup.sublist (List.filter_sublist.map _)

end Conflicts

section

variable (rt : Runtime) (store : Store) (newMemory : Memory)

def rdfCandidates : Conflicts store newMemory :=
  Conflicts.ofQuery rt store newMemory (rdfWhere rt newMemory) fun m hm => by
    simp only [rdfWhere, Bool.and_eq_true, decide_eq_true_eq] at hm
    exact ⟨hm.1.1.1.1.1.1.1, hm.1.2⟩

def similarCandidates (similar : Memory → Bool) : Conflicts store newMemory :=
  (Conflicts.ofQuery rt store newMemory (similarWhere similar newMemory) fun m hm => by
    simp only [similarWhere, Bool.and_eq_true, decide_eq_true_eq] at hm
    exact ⟨hm.1.1.1.1.1.1, hm.1.1.2⟩).take 20

def overlapCandidates (sharesEntity : Memory → Bool) (fleetId : Option String) :
    Conflicts store newMemory :=
  (Conflicts.ofQuery rt store newMemory (overlapWhere sharesEntity newMemory fleetId) fun m hm => by
    simp only [overlapWhere, Bool.and_eq_true, decide_eq_true_eq] at hm
    exact ⟨hm.1.1.1.1.1.2, hm.1.1.1.1.2⟩).take 8

def pathAConflicts (input : PathAInput) : Status × Conflicts store newMemory :=
  if rdfApplies rt newMemory ∧ (rdfCandidates rt store newMemory).list ≠ [] then
    (.outdated, rdfCandidates rt store newMemory)
  else
    (.conflicted,
      (similarCandidates rt store newMemory input.similar).filter fun c => (input.judge c).isConflict)

def entityConflicts (input : PathCInput) (fleetId : Option String) : Conflicts store newMemory :=
  let candidates := (overlapCandidates rt store newMemory input.sharesEntity fleetId).filter fun c =>
    !subjectsDifferWithCertainty newMemory.subjectEntityId c.subjectEntityId
  match pathCContexts input newMemory candidates.list with
  | none => candidates.filter fun c => (input.judge .base c).isConflict
  | some contexts => (candidates.filter (entityLinksKeep rt contexts newMemory)).filter fun c =>
      let kind := if (contexts newMemory.id).isEmpty || (contexts c.id).isEmpty then JudgeKind.base
        else .entityAware
      (input.judge kind c).isConflict

end

variable {rt : Runtime}

theorem detect_eq (input : PathAInput) : detect rt input store newMemory =
    attributeAll rt (pathAConflicts rt store newMemory input).1 newMemory
      (pathAConflicts rt store newMemory input).2.list := by
  unfold detect pathAConflicts
  have hrdf : findRdfConflicts rt store newMemory = (rdfCandidates rt store newMemory).list := rfl
  rw [hrdf]
  by_cases happlies : rdfApplies rt newMemory
  · by_cases hnil : (rdfCandidates rt store newMemory).list = []
    · simp only [happlies, hnil, if_true, ne_eq, not_true_eq_false, if_false, and_false]
      rfl
    · simp only [happlies, hnil, if_true, ne_eq, not_false_eq_true, and_true]
  · simp only [happlies, Bool.false_eq_true, if_false, ne_eq, not_true_eq_false, false_and]
    rfl

theorem entityConflicts_list (input : PathCInput) (fleetId : Option String) :
    (entityConflicts rt store newMemory input fleetId).list =
      pathCConflicts rt input store newMemory fleetId := by
  have hfound : findEntityOverlapCandidates rt input.sharesEntity store newMemory fleetId =
    (overlapCandidates rt store newMemory input.sharesEntity fleetId).list := rfl
  have hfilter : ∀ p, ((overlapCandidates rt store newMemory input.sharesEntity fleetId).filter p).list =
    (overlapCandidates rt store newMemory input.sharesEntity fleetId).list.filter p := fun _ => rfl
  unfold entityConflicts pathCConflicts
  rw [hfound]
  dsimp only
  rw [hfilter]
  -- both sides now branch on the same fetched contexts
  cases pathCContexts input newMemory
      ((overlapCandidates rt store newMemory input.sharesEntity fleetId).list.filter fun c =>
        !subjectsDifferWithCertainty newMemory.subjectEntityId c.subjectEntityId) with
  | none => rfl
  | some contexts => rfl

end Candidates

variable {rt : Runtime} {store : Store} {newMemory : Memory}

inductive DetectionPath
  | rdf
  | semantic
  | entityOverlap
deriving DecidableEq

/-- The writes of one path, for its candidates and the judge's answers to them. RDF
candidates are conflicts without a judge. -/
def runPath (rt : Runtime) (judge : Memory → JudgeResult) (store : Store) (newMemory : Memory)
    (candidates : List Memory) (path : DetectionPath) : Store :=
  store.batchUpdateStatus newMemory.tenantId <|
    match path with
    | .rdf => attributeAll rt .outdated newMemory candidates
    | .semantic =>
      attributeAll rt .conflicted newMemory (candidates.filter fun c => (judge c).isConflict)
    | .entityOverlap =>
      attributeAllByEntities rt newMemory (candidates.filter fun c => (judge c).isConflict)

def pathRow (rt : Runtime) (judge : Memory → JudgeResult) (newMemory : Memory)
    (candidates : List Memory) (path : DetectionPath) : Memory → Memory :=
  match path with
  | .rdf => attributedRow rt .outdated newMemory candidates
  | .semantic =>
    attributedRow rt .conflicted newMemory (candidates.filter fun c => (judge c).isConflict)
  | .entityOverlap =>
    attributedRowByEntities rt newMemory (candidates.filter fun c => (judge c).isConflict)

theorem runPath_rows (hnew : newMemory ∈ store.rows) (hset : newMemory.tenantId ≠ "")
    (candidates : Conflicts store newMemory) (judge : Memory → JudgeResult) (path : DetectionPath) :
    (runPath rt judge store newMemory candidates.list path).rows =
      store.rows.map (pathRow rt judge newMemory candidates.list path) := by
  cases path with
  | rdf => exact attributeAll_rows hnew hset candidates
  | semantic => exact attributeAll_rows hnew hset (candidates.filter _)
  | entityOverlap => exact attributeAllByEntities_rows hnew hset (candidates.filter _)

theorem runPath_no_tenant (hempty : newMemory.tenantId = "") (candidates : List Memory)
    (judge : Memory → JudgeResult) (path : DetectionPath) :
    runPath rt judge store newMemory candidates path = store := by
  unfold runPath
  rw [hempty]
  exact batchUpdateStatus_empty store _

def EdgesKept (store store' : Store) : Prop :=
  ∀ m ∈ store.rows, m.supersedesId ≠ none →
    ∀ m' ∈ store'.rows, m'.id = m.id → m'.supersedesId = m.supersedesId

theorem attributedRow_id (mark : Status) (conflicts : List Memory) (m : Memory) :
    (attributedRow rt mark newMemory conflicts m).id = m.id := by
  unfold attributedRow
  split_ifs <;> rfl

theorem attributedRowByEntities_id (conflicts : List Memory) (m : Memory) :
    (attributedRowByEntities rt newMemory conflicts m).id = m.id := by
  unfold attributedRowByEntities
  split_ifs <;> rfl

theorem pathRow_id (judge : Memory → JudgeResult) (candidates : List Memory) (path : DetectionPath)
    (m : Memory) : (pathRow rt judge newMemory candidates path m).id = m.id := by
  cases path with
  | rdf => exact attributedRow_id _ _ _
  | semantic => exact attributedRow_id _ _ _
  | entityOverlap => exact attributedRowByEntities_id _ _

theorem forall_rewritten_iff {store' : Store} {f : Memory → Memory} (hf : ∀ m, (f m).id = m.id)
    (hrows : store'.rows = store.rows.map f) {m : Memory} (hm : m ∈ store.rows)
    {P : Memory → Prop} : (∀ m' ∈ store'.rows, m'.id = m.id → P m') ↔ P (f m) := by
  rw [hrows]
  constructor
  · intro h
    exact h (f m) (List.mem_map_of_mem hm) (hf m)
  · intro h m' hm' hid
    obtain ⟨n, hn, rfl⟩ := List.mem_map.mp hm'
    rw [hf] at hid
    rw [Store.eq_of_id_eq hn hm hid]
    exact h

theorem attributedRow_keeps_edge {mark : Status} {conflicts : List Memory} {m : Memory}
    (hedge : m.supersedesId ≠ none) :
    (attributedRow rt mark newMemory conflicts m).supersedesId = m.supersedesId := by
  obtain ⟨s, hs⟩ := Option.ne_none_iff_exists'.mp hedge
  unfold attributedRow
  split_ifs <;> simp [hs]

/-- The entity-overlap path replaces the trigger's edge: the first conflict is older and
is not what the trigger supersedes. -/
def ReplacesTriggerEdge (rt : Runtime) (newMemory : Memory) (conflicts : List Memory) : Prop :=
  ∃ c rest, conflicts = c :: rest ∧ isOlder rt newMemory c = true ∧
    ∃ s, newMemory.supersedesId = some s ∧ s ≠ c.id

theorem headEdge_eq_some {conflicts : List Memory} {id : Uuid} :
    headEdge rt newMemory conflicts = some id ↔
      ∃ c rest, conflicts = c :: rest ∧ isOlder rt newMemory c = true ∧ c.id = id := by
  cases conflicts with
  | nil => simp [headEdge]
  | cons c rest => simp [headEdge]

theorem attributedRowByEntities_keeps_edges_iff (hnew : newMemory ∈ store.rows)
    (conflicts : List Memory) :
    (∀ m ∈ store.rows, m.supersedesId ≠ none →
        (attributedRowByEntities rt newMemory conflicts m).supersedesId = m.supersedesId) ↔
      ¬ ReplacesTriggerEdge rt newMemory conflicts := by
  constructor
  · rintro hkeep ⟨c, rest, hconflicts, hold, s, hs, hne⟩
    have hhead : headEdge rt newMemory conflicts = some c.id :=
      headEdge_eq_some.mpr ⟨c, rest, hconflicts, hold, rfl⟩
    have htrigger := hkeep newMemory hnew (by rw [hs]; simp)
    have hrow : (attributedRowByEntities rt newMemory conflicts newMemory).supersedesId =
        some c.id := by
      unfold attributedRowByEntities
      rw [if_pos rfl, hhead]
      rfl
    rw [hrow, hs] at htrigger
    exact hne (Option.some.inj htrigger).symm
  · intro hnot m hm hedge
    obtain ⟨s, hs⟩ := Option.ne_none_iff_exists'.mp hedge
    unfold attributedRowByEntities
    by_cases hid : m.id = newMemory.id
    · obtain rfl := Store.eq_of_id_eq hm hnew hid
      rw [if_pos rfl]
      cases hhead : headEdge rt m conflicts with
      | none => simp [hs]
      | some t =>
        -- the edge written is the one the trigger has
        obtain ⟨c, rest, hconflicts, hold, rfl⟩ := headEdge_eq_some.mp hhead
        have hsame : s = c.id := by
          by_contra hne
          exact hnot ⟨c, rest, hconflicts, hold, s, hs, hne⟩
        simp [hs, hsame]
    · rw [if_neg hid]
      split_ifs <;> simp [hs]

/-- A run keeps every edge that was there, except that the entity-overlap path replaces
the trigger's edge when its first conflict is older and is not the row superseded. -/
theorem runPath_edges_kept_iff (hnew : newMemory ∈ store.rows)
    (candidates : Conflicts store newMemory) (judge : Memory → JudgeResult) (path : DetectionPath) :
    EdgesKept store (runPath rt judge store newMemory candidates.list path) ↔
      ¬ (path = .entityOverlap ∧ newMemory.tenantId ≠ "" ∧ ReplacesTriggerEdge rt newMemory
        (candidates.list.filter fun c => (judge c).isConflict)) := by
  by_cases hset : newMemory.tenantId = ""
  · -- the route refuses the write
    rw [runPath_no_tenant hset]
    refine iff_of_true ?_ fun h => h.2.1 hset
    intro m hm _ m' hm' hid
    rw [Store.eq_of_id_eq hm' hm hid]
  have hclosed : EdgesKept store (runPath rt judge store newMemory candidates.list path) ↔
      ∀ m ∈ store.rows, m.supersedesId ≠ none →
        (pathRow rt judge newMemory candidates.list path m).supersedesId = m.supersedesId := by
    refine forall₂_congr fun m hm => imp_congr_right fun _ => ?_
    exact forall_rewritten_iff (pathRow_id judge candidates.list path)
      (runPath_rows hnew hset candidates judge path) hm
  rw [hclosed]
  cases path with
  | rdf =>
    refine iff_of_true (fun m _ hedge => attributedRow_keeps_edge hedge) ?_
    rintro ⟨hpath, -⟩
    cases hpath
  | semantic =>
    refine iff_of_true (fun m _ hedge => attributedRow_keeps_edge hedge) ?_
    rintro ⟨hpath, -⟩
    cases hpath
  | entityOverlap =>
    simp only [true_and, ne_eq, hset, not_false_eq_true]
    exact attributedRowByEntities_keeps_edges_iff hnew _

def plainRuntime : Runtime := ⟨fun _ => none, fun s => s, fun s => s, fun rows => rows, fun _ => .rfl⟩

def sampleId (k : ℕ) : Uuid := ⟨k % 8, by omega⟩

def sampleMemory (k : ℕ) (edge : Option Uuid) : Memory where
  id := sampleId k
  tenantId := "t"
  fleetId := none
  visibility := .scopeTeam
  status := .active
  createdAt := .datetime k
  supersedesId := edge
  subjectEntityId := none
  predicate := none
  objectValue := none
  deleted := false

def chainedStore : Store where
  rows := [sampleMemory 1 none, sampleMemory 2 none, sampleMemory 3 (some (sampleId 1))]
  nodup := by decide

def secondAsCandidate : Conflicts chainedStore (sampleMemory 3 (some (sampleId 1))) where
  list := [sampleMemory 2 none]
  stored := by decide
  tenant := by decide
  ne := by decide
  nodup := by decide

/-- The entity-overlap path moves the last memory's edge from the first to the second. -/
theorem entity_overlap_replaces_edge :
    ¬ EdgesKept chainedStore (runPath plainRuntime (fun _ => .verdict true 1) chainedStore
      (sampleMemory 3 (some (sampleId 1))) secondAsCandidate.list .entityOverlap) := by
  intro hkept
  have hedge := hkept (sampleMemory 3 (some (sampleId 1))) (by decide) (by decide)
    (sampleMemory 3 (some (sampleId 2))) (by decide) rfl
  exact absurd hedge (by decide)

theorem runPath_edges_kept_semantic :
    EdgesKept chainedStore (runPath plainRuntime (fun _ => .verdict true 1) chainedStore
      (sampleMemory 3 (some (sampleId 1))) secondAsCandidate.list .semantic) := by
  refine (runPath_edges_kept_iff (by decide) secondAsCandidate _ .semantic).mpr ?_
  rintro ⟨hpath, -⟩
  cases hpath

end Memclaw.Contradiction

import Memclaw.Contradiction.Edges

/-! Scope isolation. The three candidate queries filter by fleet and visibility in
different ways, and a run of Path C begins with a retraction that filters by neither; a run stays
within the trigger's scope exactly when the rows it writes to would pass the filters that it
leaves out. -/

namespace Memclaw.Contradiction

open Memclaw.Lib

inductive Detection
  | pathA (input : PathAInput)
  | pathC (retraction : RetractionInput) (input : PathCInput)

/-- Detection for a stored trigger. Entity extraction hands its memory's own fleet to Path C. -/
def Detection.run (rt : Runtime) (store : Store) (newMemory : Memory) : Detection → Store
  | pathA input => detectContradictionsAsync rt input store newMemory.id
  | pathC retraction input =>
    detectContradictionsByEntitiesAsync rt retraction input store newMemory.id newMemory.fleetId

def SameScope (newMemory m : Memory) : Prop :=
  m.tenantId = newMemory.tenantId ∧ m.fleetId = newMemory.fleetId ∧
    m.visibility = newMemory.visibility

def Changed (m m' : Memory) : Prop := m'.status ≠ m.status ∨ m'.supersedesId ≠ m.supersedesId

def ChangesInScope (store store' : Store) (newMemory : Memory) : Prop :=
  ∀ m ∈ store.rows, ∀ m' ∈ store'.rows, m'.id = m.id → Changed m m' → SameScope newMemory m

def Touches (rt : Runtime) (newMemory c : Memory) : Prop :=
  isOlder rt newMemory c = true ∨ c.supersedesId = none

def TouchesByEntities (rt : Runtime) (newMemory : Memory) (conflicts : List Memory) (c : Memory) :
    Prop :=
  isOlder rt newMemory c = true ∨ (isFirst conflicts c = true ∧ c.supersedesId = none)

variable {rt : Runtime} {store : Store} {newMemory : Memory}

theorem Runtime.where_of_mem_order {rows : List Memory} {p : Memory → Bool} {c : Memory}
    (hc : c ∈ rt.order (rows.filter p)) : p c = true :=
  List.of_mem_filter ((rt.order_perm _).mem_iff.mp hc)

theorem fleet_of_sameFleetOrNull {fleetId : Option String} {c : Memory}
    (h : sameFleetOrNull fleetId c = true) : c.fleetId = fleetId ↔ fleetId ≠ some "" := by
  unfold sameFleetOrNull truthyText at h
  cases fleetId with
  | none => simpa using h
  | some fleet =>
    by_cases hfleet : fleet = ""
    · simp_all
    · simp_all

theorem pathAConflicts_where (input : PathAInput) {c : Memory}
    (hc : c ∈ (pathAConflicts rt store newMemory input).2.list) :
    liveStatus c.status = true ∧ sameFleetOrNull newMemory.fleetId c = true := by
  unfold pathAConflicts at hc
  split_ifs at hc
  · have hwhere : rdfWhere rt newMemory c = true := rt.where_of_mem_order hc
    simp only [rdfWhere, Bool.and_eq_true] at hwhere
    exact ⟨hwhere.1.1.1.1.1.2, hwhere.2⟩
  · have hwhere : similarWhere input.similar newMemory c = true :=
      rt.where_of_mem_order (List.mem_of_mem_take (List.mem_of_mem_filter hc))
    simp only [similarWhere, Bool.and_eq_true] at hwhere
    exact ⟨hwhere.1.1.1.1.2, hwhere.1.2⟩

theorem overlapCandidates_where {sharesEntity : Memory → Bool} {fleetId : Option String}
    {c : Memory} (hc : c ∈ (overlapCandidates rt store newMemory sharesEntity fleetId).list) :
    overlapWhere sharesEntity newMemory fleetId c = true :=
  rt.where_of_mem_order (List.mem_of_mem_take hc)

theorem entityConflicts_where (input : PathCInput) (fleetId : Option String) {c : Memory}
    (hc : c ∈ (entityConflicts rt store newMemory input fleetId).list) :
    overlapWhere input.sharesEntity newMemory fleetId c = true := by
  unfold entityConflicts at hc
  simp only [] at hc
  split at hc
  · exact overlapCandidates_where (List.mem_of_mem_filter (List.mem_of_mem_filter hc))
  · exact overlapCandidates_where
      (List.mem_of_mem_filter (List.mem_of_mem_filter (List.mem_of_mem_filter hc)))

theorem mark_ne_live {mark status : Status} (hmark : liveStatus mark = false)
    (hlive : liveStatus status = true) : mark ≠ status := by
  rintro rfl
  rw [hmark] at hlive
  cases hlive

theorem attributedRow_changed_iff {mark : Status} (hmark : liveStatus mark = false)
    {conflicts : List Memory} {c : Memory} (hid : c.id ≠ newMemory.id)
    (hlive : c ∈ conflicts → liveStatus c.status = true) :
    Changed c (attributedRow rt mark newMemory conflicts c) ↔
      c ∈ conflicts ∧ Touches rt newMemory c := by
  unfold attributedRow Changed Touches
  rw [if_neg hid]
  by_cases hmem : c ∈ conflicts
  · rw [if_pos hmem]
    by_cases hold : isOlder rt newMemory c
    · rw [if_pos hold]
      simp [hmem, hold, mark_ne_live hmark (hlive hmem)]
    · rw [if_neg hold]
      cases c.supersedesId <;> simp [hmem, hold]
  · rw [if_neg hmem]
    simp [hmem]

theorem attributedRowByEntities_changed_iff {conflicts : List Memory} {c : Memory}
    (hid : c.id ≠ newMemory.id) (hlive : c ∈ conflicts → liveStatus c.status = true) :
    Changed c (attributedRowByEntities rt newMemory conflicts c) ↔
      c ∈ conflicts ∧ TouchesByEntities rt newMemory conflicts c := by
  unfold attributedRowByEntities Changed TouchesByEntities
  rw [if_neg hid]
  by_cases hmem : c ∈ conflicts
  · rw [if_pos hmem]
    by_cases hold : isOlder rt newMemory c
    · rw [if_pos hold]
      simp [hmem, hold, mark_ne_live (rfl : liveStatus .conflicted = false) (hlive hmem)]
    · rw [if_neg hold]
      by_cases hfirst : isFirst conflicts c
      · cases c.supersedesId <;> simp [hmem, hold, hfirst]
      · simp [hmem, hold, hfirst]
  · rw [if_neg hmem]
    simp [hmem]

theorem changesInScope_iff (hnew : newMemory ∈ store.rows) {store' : Store} {f : Memory → Memory}
    (hf : ∀ m, (f m).id = m.id) (hrows : store'.rows = store.rows.map f) :
    ChangesInScope store store' newMemory ↔
      ∀ m ∈ store.rows, m.id ≠ newMemory.id → Changed m (f m) → SameScope newMemory m := by
  have hrow : ChangesInScope store store' newMemory ↔
      ∀ m ∈ store.rows, Changed m (f m) → SameScope newMemory m :=
    forall₂_congr fun m hm => forall_rewritten_iff hf hrows hm
  rw [hrow]
  refine forall₂_congr fun m hm => ⟨fun h _ => h, fun h hchanged => ?_⟩
  by_cases hid : m.id = newMemory.id
  · rw [Store.eq_of_id_eq hm hnew hid]
    exact ⟨rfl, rfl, rfl⟩
  · exact h hid hchanged

/-- A candidate of Path C in the trigger's fleet, which its query does not ask for when the trigger
has none. -/
def InTriggerFleet (newMemory c : Memory) : Prop :=
  truthyText newMemory.fleetId = true ∨ c.fleetId = newMemory.fleetId

def Store.retracted (store : Store) (newMemory r : Memory) : Store :=
  (store.updateStatus r.tenantId ⟨r.id, .active, none⟩).clearSupersedes
    newMemory.id newMemory.tenantId newMemory.status r.id

def withoutEdge (newMemory : Memory) : Memory := { newMemory with supersedesId := none }

def conflictsAfter (rt : Runtime) (input : PathCInput) (store : Store) (newMemory r : Memory) :
    List Memory :=
  pathCConflicts rt input (store.retracted newMemory r) (withoutEdge newMemory) newMemory.fleetId

def MarkedAgain (rt : Runtime) (input : PathCInput) (store : Store) (newMemory r : Memory) : Prop :=
  ∃ c ∈ conflictsAfter rt input store newMemory r, c.id = r.id ∧
    isOlder rt (withoutEdge newMemory) c = true

/-- The rows that a run writes to pass the filters that it leaves out: the visibility of RDF
candidates, the fleet of entity-overlap candidates of a trigger without a fleet, and both for the
row that a retraction takes back for good. For the queries of Path A an empty fleet id is no
fleet; a retraction of a row without a tenant raises. -/
def Detection.WritesInScope (rt : Runtime) (store : Store) (newMemory : Memory) :
    Detection → Prop
  | pathA input => ∀ c ∈ (pathAConflicts rt store newMemory input).2.list, Touches rt newMemory c →
      c.visibility = newMemory.visibility ∧ newMemory.fleetId ≠ some ""
  | pathC retraction input =>
    match retractionTarget retraction store newMemory with
    | none => ∀ c ∈ pathCConflicts rt input store newMemory newMemory.fleetId,
        TouchesByEntities rt newMemory (pathCConflicts rt input store newMemory newMemory.fleetId) c →
          InTriggerFleet newMemory c
    | some r => r.tenantId = "" ∨
        (MarkedAgain rt input store newMemory r ∨ SameScope newMemory r) ∧
          ∀ c ∈ conflictsAfter rt input store newMemory r, c.id ≠ r.id →
            TouchesByEntities rt (withoutEdge newMemory) (conflictsAfter rt input store newMemory r)
              c → InTriggerFleet newMemory c

/-- The rows other than the trigger that a run of Path C writes to, for the row that its retraction
takes back. -/
def PathCWrites (rt : Runtime) (input : PathCInput) (store : Store) (newMemory c : Memory) :
    Option Memory → Prop
  | none => c ∈ pathCConflicts rt input store newMemory newMemory.fleetId ∧
      TouchesByEntities rt newMemory (pathCConflicts rt input store newMemory newMemory.fleetId) c
  | some r => r.tenantId ≠ "" ∧
      (c.id = r.id ∧ ¬ MarkedAgain rt input store newMemory r ∨
        c.id ≠ r.id ∧ c ∈ conflictsAfter rt input store newMemory r ∧
          TouchesByEntities rt (withoutEdge newMemory)
            (conflictsAfter rt input store newMemory r) c)

def Detection.Writes (rt : Runtime) (store : Store) (newMemory c : Memory) (detection : Detection) :
    Prop :=
  newMemory.deleted = false ∧ newMemory.tenantId ≠ "" ∧
    match detection with
    | pathA input => c ∈ (pathAConflicts rt store newMemory input).2.list ∧ Touches rt newMemory c
    | pathC retraction input =>
      PathCWrites rt input store newMemory c (retractionTarget retraction store newMemory)

instance Touches.decidable (rt : Runtime) (newMemory c : Memory) :
    Decidable (Touches rt newMemory c) :=
  inferInstanceAs (Decidable (isOlder rt newMemory c = true ∨ c.supersedesId = none))

instance TouchesByEntities.decidable (rt : Runtime) (newMemory : Memory) (conflicts : List Memory)
    (c : Memory) : Decidable (TouchesByEntities rt newMemory conflicts c) :=
  inferInstanceAs (Decidable
    (isOlder rt newMemory c = true ∨ (isFirst conflicts c = true ∧ c.supersedesId = none)))

instance MarkedAgain.decidable (rt : Runtime) (input : PathCInput) (store : Store)
    (newMemory r : Memory) : Decidable (MarkedAgain rt input store newMemory r) :=
  inferInstanceAs (Decidable (∃ c ∈ conflictsAfter rt input store newMemory r, c.id = r.id ∧
    isOlder rt (withoutEdge newMemory) c = true))

instance PathCWrites.decidable (rt : Runtime) (input : PathCInput) (store : Store)
    (newMemory c : Memory) : ∀ target, Decidable (PathCWrites rt input store newMemory c target)
  | none => inferInstanceAs (Decidable (c ∈ pathCConflicts rt input store newMemory newMemory.fleetId ∧
      TouchesByEntities rt newMemory
        (pathCConflicts rt input store newMemory newMemory.fleetId) c))
  | some r => inferInstanceAs (Decidable (r.tenantId ≠ "" ∧
      (c.id = r.id ∧ ¬ MarkedAgain rt input store newMemory r ∨
        c.id ≠ r.id ∧ c ∈ conflictsAfter rt input store newMemory r ∧
          TouchesByEntities rt (withoutEdge newMemory)
            (conflictsAfter rt input store newMemory r) c)))

instance Detection.Writes.decidable (rt : Runtime) (store : Store) (newMemory c : Memory) :
    ∀ detection : Detection, Decidable (detection.Writes rt store newMemory c)
  | pathA input => inferInstanceAs (Decidable (newMemory.deleted = false ∧ newMemory.tenantId ≠ "" ∧
      c ∈ (pathAConflicts rt store newMemory input).2.list ∧ Touches rt newMemory c))
  | pathC retraction input => inferInstanceAs (Decidable (newMemory.deleted = false ∧
      newMemory.tenantId ≠ "" ∧ PathCWrites rt input store newMemory c
        (retractionTarget retraction store newMemory)))

/-- A run rewrites every row by `f`, among the others than the trigger those that it writes to, and
makes none deleted. -/
structure Rewrites (store store' : Store) (newMemory : Memory) (writes : Memory → Prop)
    (f : Memory → Memory) : Prop where
  id : ∀ m, (f m).id = m.id
  rows : store'.rows = store.rows.map f
  changed_iff : ∀ m ∈ store.rows, m.id ≠ newMemory.id → (Changed m (f m) ↔ writes m)
  deleted : ∀ m ∈ store.rows, (f m).status = .deleted → m.status = .deleted

theorem pathAConflicts_mark (input : PathAInput) :
    liveStatus (pathAConflicts rt store newMemory input).1 = false := by
  unfold pathAConflicts
  split_ifs <;> rfl

theorem pathAConflicts_mark_ne_deleted (input : PathAInput) :
    (pathAConflicts rt store newMemory input).1 ≠ .deleted := by
  unfold pathAConflicts
  split_ifs <;> exact nofun

theorem sameScope_of_pathA (input : PathAInput) {c : Memory}
    (hc : c ∈ (pathAConflicts rt store newMemory input).2.list) :
    SameScope newMemory c ↔
      c.visibility = newMemory.visibility ∧ newMemory.fleetId ≠ some "" := by
  have htenant := (pathAConflicts rt store newMemory input).2.tenant c hc
  have hfleet := fleet_of_sameFleetOrNull (pathAConflicts_where input hc).2
  unfold SameScope
  rw [hfleet]
  exact ⟨fun h => ⟨h.2.2, h.2.1⟩, fun h => ⟨htenant, h.2, h.1⟩⟩

theorem sameScope_of_pathC (input : PathCInput) {c : Memory}
    (hc : c ∈ (entityConflicts rt store newMemory input newMemory.fleetId).list) :
    SameScope newMemory c ↔ InTriggerFleet newMemory c := by
  have hwhere := entityConflicts_where input newMemory.fleetId hc
  simp only [overlapWhere, Bool.and_eq_true, Bool.or_eq_true, Bool.not_eq_true',
    decide_eq_true_eq] at hwhere
  constructor
  · exact fun h => .inr h.2.1
  · intro h
    refine ⟨hwhere.1.1.1.1.1.2, ?_, hwhere.1.2⟩
    rcases h with htruthy | hfleet
    · exact hwhere.2.resolve_left (by rw [htruthy]; decide)
    · exact hfleet

theorem entityConflicts_live {input : PathCInput} {fleetId : Option String} {c : Memory}
    (hc : c ∈ (entityConflicts rt store newMemory input fleetId).list) :
    liveStatus c.status = true := by
  have hwhere := entityConflicts_where input fleetId hc
  simp only [overlapWhere, Bool.and_eq_true] at hwhere
  exact hwhere.1.1.2

theorem attributedRow_deleted {mark : Status} (hmark : mark ≠ .deleted) {conflicts : List Memory}
    {m : Memory} (h : (attributedRow rt mark newMemory conflicts m).status = .deleted) :
    m.status = .deleted := by
  unfold attributedRow at h
  split_ifs at h <;> first | exact h | exact absurd h hmark

theorem attributedRowByEntities_deleted {conflicts : List Memory} {m : Memory}
    (h : (attributedRowByEntities rt newMemory conflicts m).status = .deleted) :
    m.status = .deleted := by
  unfold attributedRowByEntities at h
  split_ifs at h <;> exact h

theorem detectContradictions_rewrites (hnew : newMemory ∈ store.rows)
    (hset : newMemory.tenantId ≠ "") (input : PathAInput) :
    Rewrites store (detectContradictions rt input store newMemory) newMemory
      (fun c => c ∈ (pathAConflicts rt store newMemory input).2.list ∧ Touches rt newMemory c)
      (attributedRow rt (pathAConflicts rt store newMemory input).1 newMemory
        (pathAConflicts rt store newMemory input).2.list) where
  id := attributedRow_id _ _
  rows := by
    rw [detectContradictions, detect_eq]
    exact attributeAll_rows hnew hset (pathAConflicts rt store newMemory input).2
  changed_iff _ _ hne := attributedRow_changed_iff (pathAConflicts_mark input) hne
    fun hmem => (pathAConflicts_where input hmem).1
  deleted _ _ := attributedRow_deleted (pathAConflicts_mark_ne_deleted input)

theorem detectByEntities_rewrites (hnew : newMemory ∈ store.rows)
    (hset : newMemory.tenantId ≠ "") (input : PathCInput) :
    Rewrites store (detectByEntities rt input store newMemory newMemory.fleetId) newMemory
      (fun c => c ∈ pathCConflicts rt input store newMemory newMemory.fleetId ∧
        TouchesByEntities rt newMemory
          (pathCConflicts rt input store newMemory newMemory.fleetId) c)
      (attributedRowByEntities rt newMemory
        (pathCConflicts rt input store newMemory newMemory.fleetId)) := by
  rw [← entityConflicts_list]
  exact {
    id := attributedRowByEntities_id _
    rows := by
      rw [detectByEntities, ← entityConflicts_list]
      exact attributeAllByEntities_rows hnew hset _
    changed_iff := fun _ _ hne =>
      attributedRowByEntities_changed_iff hne fun hmem => entityConflicts_live hmem
    deleted := fun _ _ => attributedRowByEntities_deleted }

def retractedRow (newMemory target m : Memory) : Memory :=
  (m.updateStatus target.tenantId ⟨target.id, .active, none⟩).clearSupersedes
    newMemory.id newMemory.tenantId newMemory.status target.id

theorem retractedRow_id (newMemory target m : Memory) :
    (retractedRow newMemory target m).id = m.id := by
  rw [retractedRow, Memory.clearSupersedes_id, Memory.updateStatus_id]

theorem retracted_rows (target : Memory) :
    (store.retracted newMemory target).rows = store.rows.map (retractedRow newMemory target) := by
  simp only [Store.retracted, Store.clearSupersedes, Store.updateStatus, Store.map, List.map_map]
  rfl

theorem retractedRow_target {target : Memory} (hne : target.id ≠ newMemory.id) :
    retractedRow newMemory target target = { target with status := .active } := by
  unfold retractedRow Memory.updateStatus
  rw [if_pos ⟨rfl, rfl⟩, Memory.clearSupersedes, if_neg fun h => hne h.1]
  rfl

theorem retractedRow_trigger {target : Memory} (hedge : newMemory.supersedesId = some target.id) :
    retractedRow newMemory target newMemory = withoutEdge newMemory := by
  unfold retractedRow Memory.updateStatus
  split_ifs
  · rw [Memory.clearSupersedes, if_pos ⟨rfl, rfl, .inl (by simp [hedge])⟩]
    rfl
  · rw [Memory.clearSupersedes, if_pos ⟨rfl, rfl, .inl hedge⟩]
    rfl

theorem retractedRow_other {target m : Memory} (htarget : m.id ≠ target.id)
    (htrigger : m.id ≠ newMemory.id) : retractedRow newMemory target m = m := by
  unfold retractedRow Memory.updateStatus
  rw [if_neg fun h => htarget h.1, Memory.clearSupersedes, if_neg fun h => htrigger h.1]

theorem retractionTarget_spec {retraction : RetractionInput} {r : Memory}
    (h : retractionTarget retraction store newMemory = some r) :
    newMemory.supersedesId = some r.id ∧ r ∈ store.rows ∧ r.status = .conflicted := by
  -- A row that the retraction takes back is a stored, conflicted one behind the trigger's edge.
  unfold retractionTarget at h
  split at h
  · cases h
  split at h
  · cases h
  next targetId hedge =>
  split at h
  · next candidate contexts hget hcontexts =>
    split at h
    · cases h
    next hconflicted =>
    split at h
    · cases h
    split at h
    · cases h
    split at h
    · cases h
    obtain rfl := Option.some.inj h
    have hid : candidate.id = targetId := by simpa using List.find?_some hget
    rw [Bool.or_eq_true, not_or, decide_eq_true_eq, not_not] at hconflicted
    exact ⟨hid ▸ hedge, Store.mem_of_get hget, hconflicted.2⟩
  · cases h

section AfterRetraction

variable {input : PathCInput} {r : Memory}

def redetectedRow (rt : Runtime) (newMemory r : Memory) (conflicts : List Memory) (m : Memory) :
    Memory :=
  attributedRowByEntities rt (withoutEdge newMemory) conflicts (retractedRow newMemory r m)

theorem redetectedRow_id (conflicts : List Memory) (m : Memory) :
    (redetectedRow rt newMemory r conflicts m).id = m.id := by
  rw [redetectedRow, attributedRowByEntities_id, retractedRow_id]

theorem redetectedRow_other {conflicts : List Memory} {m : Memory} (hm : m.id ≠ newMemory.id)
    (hr : m.id ≠ r.id) : redetectedRow rt newMemory r conflicts m =
      attributedRowByEntities rt (withoutEdge newMemory) conflicts m := by
  rw [redetectedRow, retractedRow_other hr hm]

/-- The row taken back stays changed unless it is marked again. -/
theorem redetectedRow_target_changed_iff {conflicts : List Memory} (hne : r.id ≠ newMemory.id)
    (hconflicted : r.status = .conflicted) (hconflicts : ∀ c ∈ conflicts, c.id = r.id →
      c = { r with status := .active }) :
    Changed r (redetectedRow rt newMemory r conflicts r) ↔
      ¬ ∃ c ∈ conflicts, c.id = r.id ∧ isOlder rt (withoutEdge newMemory) c = true := by
  have hagain : (∃ c ∈ conflicts, c.id = r.id ∧ isOlder rt (withoutEdge newMemory) c = true) ↔
      { r with status := .active } ∈ conflicts ∧
        isOlder rt (withoutEdge newMemory) { r with status := .active } = true := by
    constructor
    · rintro ⟨c, hc, hid, hold⟩
      obtain rfl := hconflicts c hc hid
      exact ⟨hc, hold⟩
    · rintro ⟨hc, hold⟩
      exact ⟨_, hc, rfl, hold⟩
  rw [hagain, redetectedRow, retractedRow_target hne, attributedRowByEntities,
    if_neg (show r.id ≠ (withoutEdge newMemory).id from hne)]
  by_cases hmem : { r with status := .active } ∈ conflicts
  · rw [if_pos hmem]
    by_cases hold : isOlder rt (withoutEdge newMemory) { r with status := .active } = true
    · rw [if_pos hold]
      simp [Changed, hmem, hold, hconflicted]
    · rw [if_neg hold]
      refine iff_of_true (.inl ?_) fun h => hold h.2
      split_ifs <;> simp [hconflicted]
  · rw [if_neg hmem]
    exact iff_of_true (.inl (by simp [hconflicted])) fun h => hmem h.1

theorem redetectedRow_deleted (hnew : newMemory ∈ store.rows) {conflicts : List Memory} {m : Memory}
    (hm : m ∈ store.rows)
    (h : (redetectedRow rt newMemory r conflicts m).status = .deleted) : m.status = .deleted := by
  have hretracted := attributedRowByEntities_deleted h
  unfold retractedRow Memory.clearSupersedes at hretracted
  split_ifs at hretracted with htrigger
  · -- the retraction writes the trigger's own status
    rw [Memory.updateStatus_id] at htrigger
    rwa [Store.eq_of_id_eq hm hnew htrigger.1]
  · unfold Memory.updateStatus at hretracted
    split_ifs at hretracted
    exact hretracted

theorem redetection_rewrites (hnew : newMemory ∈ store.rows) (hset : newMemory.tenantId ≠ "")
    (hedge : newMemory.supersedesId = some r.id) (hr : r ∈ store.rows)
    (hconflicted : r.status = .conflicted) :
    Rewrites store (detectByEntities rt input (store.retracted newMemory r)
        (withoutEdge newMemory) newMemory.fleetId) newMemory
      (fun c => c.id = r.id ∧ ¬ MarkedAgain rt input store newMemory r ∨
        c.id ≠ r.id ∧ c ∈ conflictsAfter rt input store newMemory r ∧
          TouchesByEntities rt (withoutEdge newMemory)
            (conflictsAfter rt input store newMemory r) c)
      (redetectedRow rt newMemory r (conflictsAfter rt input store newMemory r)) := by
  let conflicts := entityConflicts rt (store.retracted newMemory r) (withoutEdge newMemory) input
    newMemory.fleetId
  have hlist : conflicts.list = conflictsAfter rt input store newMemory r :=
    entityConflicts_list input newMemory.fleetId
  have hnew' : withoutEdge newMemory ∈ (store.retracted newMemory r).rows := by
    rw [retracted_rows, ← retractedRow_trigger hedge]
    exact List.mem_map_of_mem hnew
  have hrows : (detectByEntities rt input (store.retracted newMemory r) (withoutEdge newMemory)
      newMemory.fleetId).rows = store.rows.map (redetectedRow rt newMemory r conflicts.list) := by
    have hattributed : ((store.retracted newMemory r).batchUpdateStatus newMemory.tenantId
        (attributeAllByEntities rt (withoutEdge newMemory) conflicts.list)).rows = _ :=
      attributeAllByEntities_rows hnew' hset conflicts
    rw [retracted_rows, List.map_map] at hattributed
    rw [detectByEntities, ← entityConflicts_list]
    exact hattributed
  rw [← hlist, MarkedAgain, ← hlist]
  refine ⟨redetectedRow_id _, hrows, fun m hm hne => ?_, fun m hm => redetectedRow_deleted hnew hm⟩
  by_cases hmr : m.id = r.id
  · obtain rfl := Store.eq_of_id_eq hm hr hmr
    rw [redetectedRow_target_changed_iff hne hconflicted fun c hc hid => ?_]
    · simp
    · obtain ⟨m', hm', rfl⟩ := List.mem_map.mp (retracted_rows m ▸ conflicts.stored c hc)
      rw [retractedRow_id] at hid
      rw [Store.eq_of_id_eq hm' hr hid, retractedRow_target hne]
  · have hchanged : Changed m (attributedRowByEntities rt (withoutEdge newMemory) conflicts.list m) ↔
        m ∈ conflicts.list ∧ TouchesByEntities rt (withoutEdge newMemory) conflicts.list m :=
      attributedRowByEntities_changed_iff hne fun hmem => entityConflicts_live hmem
    rw [redetectedRow_other hne hmr, hchanged]
    simp [hmr]

theorem conflictsAfter_spec {c : Memory} (hc : c ∈ conflictsAfter rt input store newMemory r) :
    c.id ≠ newMemory.id ∧ (c.id ≠ r.id → c ∈ store.rows) ∧
      (SameScope newMemory c ↔ InTriggerFleet newMemory c) := by
  let conflicts := entityConflicts rt (store.retracted newMemory r) (withoutEdge newMemory) input
    newMemory.fleetId
  have hmem : c ∈ conflicts.list := by
    rwa [show conflicts.list = _ from entityConflicts_list input newMemory.fleetId]
  have hne : c.id ≠ newMemory.id := conflicts.ne c hmem
  have hscope : SameScope (withoutEdge newMemory) c ↔ InTriggerFleet (withoutEdge newMemory) c :=
    sameScope_of_pathC input hmem
  refine ⟨hne, fun hcr => ?_, hscope⟩
  obtain ⟨m, hm, rfl⟩ := List.mem_map.mp (retracted_rows r ▸ conflicts.stored c hmem)
  rw [retractedRow_id] at hcr hne
  rwa [retractedRow_other hcr hne]

end AfterRetraction

/-- A deleted trigger is not looked at, and the route refuses a write without a tenant. -/
theorem Detection.run_idle (hnew : newMemory ∈ store.rows)
    (h : newMemory.deleted = true ∨ newMemory.tenantId = "") (detection : Detection) :
    detection.run rt store newMemory = store := by
  cases hdeleted : newMemory.deleted with
  | true =>
    cases detection with
    | pathA input => simp [Detection.run, detectContradictionsAsync, Store.get_of_mem hnew, hdeleted]
    | pathC retraction input =>
      simp [Detection.run, detectContradictionsByEntitiesAsync, Store.get_of_mem hnew, hdeleted]
  | false =>
    have hset : newMemory.tenantId = "" := h.resolve_left (by simp [hdeleted])
    cases detection with
    | pathA input =>
      simp only [Detection.run, detectContradictionsAsync, Store.get_of_mem hnew, hdeleted,
        detectContradictions, hset]
      exact batchUpdateStatus_empty store (detect rt input store newMemory)
    | pathC retraction input =>
      simp only [Detection.run, detectContradictionsByEntitiesAsync, Store.get_of_mem hnew, hdeleted,
        attemptPathCRetraction, hset]
      cases retractionTarget retraction store newMemory with
      | none =>
        simp only [Store.get_of_mem hnew, Option.getD_some, detectByEntities, hset]
        exact batchUpdateStatus_empty store (attributeAllByEntities rt newMemory
          (pathCConflicts rt input store newMemory newMemory.fleetId))
      | some r => simp

theorem Rewrites.refl {writes : Memory → Prop} (h : ∀ m ∈ store.rows, ¬ writes m) :
    Rewrites store store newMemory writes fun m => m where
  id _ := rfl
  rows := store.rows.map_id'.symm
  changed_iff m hm _ := iff_of_false (by simp [Changed]) (h m hm)
  deleted _ _ h := h

theorem Rewrites.congr {store' : Store} {writes writes' : Memory → Prop} {f : Memory → Memory}
    (h : Rewrites store store' newMemory writes f) (hwrites : ∀ m, writes m ↔ writes' m) :
    Rewrites store store' newMemory writes' f :=
  ⟨h.id, h.rows, fun m hm hne => (h.changed_iff m hm hne).trans (hwrites m), h.deleted⟩

theorem Detection.run_rewrites (rt : Runtime) (hnew : newMemory ∈ store.rows)
    (detection : Detection) : ∃ f, Rewrites store (detection.run rt store newMemory) newMemory
      (detection.Writes rt store newMemory) f := by
  -- What a run of detection does to the rows.
  by_cases hidle : newMemory.deleted = true ∨ newMemory.tenantId = ""
  · rw [Detection.run_idle hnew hidle]
    refine ⟨_, Rewrites.refl fun m _ hwrites => ?_⟩
    rcases hidle with hdeleted | hset
    · exact absurd hdeleted (by simp [hwrites.1])
    · exact hwrites.2.1 hset
  obtain ⟨hlive, hset⟩ := not_or.mp hidle
  have hlive : newMemory.deleted = false := Bool.eq_false_iff.mpr hlive
  cases detection with
  | pathA input =>
    rw [Detection.run, detectContradictionsAsync, Store.get_of_mem hnew]
    simp only [hlive]
    exact ⟨_, (detectContradictions_rewrites hnew hset input).congr fun m => by
      simp [Detection.Writes, hlive, hset]⟩
  | pathC retraction input =>
    rw [Detection.run, detectContradictionsByEntitiesAsync, Store.get_of_mem hnew]
    dsimp only
    rw [if_neg (by simp [hlive]), attemptPathCRetraction]
    cases htarget : retractionTarget retraction store newMemory with
    | none =>
      dsimp only
      rw [Store.get_of_mem hnew, Option.getD_some]
      exact ⟨_, (detectByEntities_rewrites hnew hset input).congr fun m => by
        simp [Detection.Writes, PathCWrites, hlive, hset, htarget]⟩
    | some r =>
      obtain ⟨hedge, hr, hconflicted⟩ := retractionTarget_spec htarget
      dsimp only
      by_cases htenant : r.tenantId = ""
      · -- the retraction raises, and nothing is written
        rw [if_pos (.inl htenant)]
        refine ⟨_, Rewrites.refl fun m _ hwrites => ?_⟩
        simp [Detection.Writes, PathCWrites, htarget, htenant] at hwrites
      · have hrefreshed : (store.retracted newMemory r).get newMemory.id =
            some (withoutEdge newMemory) := by
          rw [Store.get_rewritten (retractedRow_id _ _) (retracted_rows r), Store.get_of_mem hnew,
            Option.map_some, retractedRow_trigger hedge]
        rw [if_neg (not_or.mpr ⟨htenant, hset⟩)]
        dsimp only
        rw [← Store.retracted, hrefreshed, Option.getD_some]
        exact ⟨_, (redetection_rewrites hnew hset hedge hr hconflicted).congr fun m => by
          simp [Detection.Writes, PathCWrites, hlive, hset, htarget, htenant]⟩

theorem pathA_writes_in_scope_iff (hlive : newMemory.deleted = false)
    (hset : newMemory.tenantId ≠ "") (input : PathAInput) :
    (∀ m ∈ store.rows, m.id ≠ newMemory.id →
        (Detection.pathA input).Writes rt store newMemory m → SameScope newMemory m) ↔
      (Detection.pathA input).WritesInScope rt store newMemory := by
  simp only [Detection.Writes, Detection.WritesInScope, hlive, hset, ne_eq, not_false_eq_true,
    true_and]
  constructor
  · intro h c hc htouch
    exact (sameScope_of_pathA input hc).mp (h c ((pathAConflicts rt store newMemory input).2.stored
      c hc) ((pathAConflicts rt store newMemory input).2.ne c hc) ⟨hc, htouch⟩)
  · rintro h m - - ⟨hmem, htouch⟩
    exact (sameScope_of_pathA input hmem).mpr (h m hmem htouch)

theorem pathC_writes_in_scope_iff (hnew : newMemory ∈ store.rows)
    (hlive : newMemory.deleted = false) (hset : newMemory.tenantId ≠ "")
    (retraction : RetractionInput) (input : PathCInput) :
    (∀ m ∈ store.rows, m.id ≠ newMemory.id →
        (Detection.pathC retraction input).Writes rt store newMemory m → SameScope newMemory m) ↔
      (Detection.pathC retraction input).WritesInScope rt store newMemory := by
  simp only [Detection.Writes, Detection.WritesInScope, hlive, hset, ne_eq, not_false_eq_true,
    true_and]
  cases htarget : retractionTarget retraction store newMemory with
  | none =>
    dsimp only [PathCWrites]
    constructor
    · intro h c hc htouch
      have hmem : c ∈ (entityConflicts rt store newMemory input newMemory.fleetId).list := by
        rwa [entityConflicts_list]
      exact (sameScope_of_pathC input hmem).mp (h c
        ((entityConflicts rt store newMemory input newMemory.fleetId).stored c hmem)
        ((entityConflicts rt store newMemory input newMemory.fleetId).ne c hmem) ⟨hc, htouch⟩)
    · rintro h m - - ⟨hmem, htouch⟩
      have hconflict : m ∈ (entityConflicts rt store newMemory input newMemory.fleetId).list := by
        rwa [entityConflicts_list]
      exact (sameScope_of_pathC input hconflict).mpr (h m hmem htouch)
  | some r =>
    obtain ⟨hedge, hr, -⟩ := retractionTarget_spec htarget
    dsimp only [PathCWrites]
    by_cases htenant : r.tenantId = ""
    · exact iff_of_true (fun m _ _ h => absurd htenant h.1) (.inl htenant)
    simp only [htenant, false_or]
    constructor
    · intro h
      refine ⟨?_, fun c hc hcr htouch => ?_⟩
      · by_cases hne : r.id = newMemory.id
        · obtain rfl := Store.eq_of_id_eq hr hnew hne
          exact .inr ⟨rfl, rfl, rfl⟩
        · by_contra hnot
          rw [not_or] at hnot
          exact hnot.2 (h r hr hne ⟨htenant, .inl ⟨rfl, hnot.1⟩⟩)
      · obtain ⟨hne, hstored, hscope⟩ := conflictsAfter_spec hc
        exact hscope.mp (h c (hstored hcr) hne ⟨htenant, .inr ⟨hcr, hc, htouch⟩⟩)
    · rintro ⟨hback, hothers⟩ m hm - ⟨-, ⟨hmr, hagain⟩ | ⟨hmr, hmem, htouch⟩⟩
      · rw [Store.eq_of_id_eq hm hr hmr]
        exact hback.resolve_left hagain
      · exact (conflictsAfter_spec hmem).2.2.mpr (hothers m hmem hmr htouch)

/-- Detection changes only rows in the trigger's scope exactly when the rows it writes to
are in it. -/
theorem detection_in_scope_iff (hnew : newMemory ∈ store.rows) (detection : Detection) :
    ChangesInScope store (detection.run rt store newMemory) newMemory ↔
      newMemory.deleted = true ∨ newMemory.tenantId = "" ∨
        detection.WritesInScope rt store newMemory := by
  obtain ⟨f, hrun⟩ := detection.run_rewrites rt hnew
  have hwrites : ChangesInScope store (detection.run rt store newMemory) newMemory ↔
      ∀ m ∈ store.rows, m.id ≠ newMemory.id → detection.Writes rt store newMemory m →
        SameScope newMemory m := by
    rw [changesInScope_iff hnew hrun.id hrun.rows]
    refine forall₂_congr fun m hm => forall_congr' fun hne => ?_
    rw [hrun.changed_iff m hm hne]
  rw [hwrites]
  by_cases hlive : newMemory.deleted = false
  · by_cases hset : newMemory.tenantId = ""
    · exact iff_of_true (fun m _ _ h => absurd hset h.2.1) (.inr (.inl hset))
    · simp only [hlive, hset, Bool.false_eq_true, false_or]
      cases detection with
      | pathA input => exact pathA_writes_in_scope_iff hlive hset input
      | pathC retraction input => exact pathC_writes_in_scope_iff hnew hlive hset retraction input
  · exact iff_of_true (fun m _ _ h => absurd h.1 hlive) (.inl (by simpa using hlive))

def factMemory (k : ℕ) (visibility : Visibility) (value : String) : Memory :=
  { sampleMemory k none with
    visibility
    subjectEntityId := some "e"
    predicate := some "status"
    objectValue := some value }

def mixedStore : Store where
  rows := [factMemory 1 .scopeAgent "open", factMemory 2 .scopeTeam "closed"]
  nodup := by decide

/-- The RDF path marks the private memory outdated. -/
theorem rdf_changes_other_visibility :
    ¬ ChangesInScope mixedStore ((Detection.pathA ⟨fun _ => false, fun _ => .failed⟩).run plainRuntime
      mixedStore (factMemory 2 .scopeTeam "closed")) (factMemory 2 .scopeTeam "closed") := by
  intro hscope
  have hrow := hscope (factMemory 1 .scopeAgent "open") (by decide)
    { factMemory 1 .scopeAgent "open" with status := .outdated } (by decide) rfl
    (.inl (by decide))
  exact absurd hrow.2.2 (by decide)

def agreeingJudge : RetractionInput where
  retractionEnabled := true
  contexts := some fun _ => [⟨some "subject", some "e", none⟩]
  judge := fun _ => .verdict false 1

def markedStore : Store where
  rows := [{ sampleMemory 1 none with status := .conflicted }, sampleMemory 2 (some (sampleId 1))]
  nodup := by decide

/-- A run of Path C that takes back an earlier verdict on a memory of the trigger's scope. -/
theorem detection_in_scope_pair :
    ChangesInScope markedStore
      ((Detection.pathC agreeingJudge ⟨fun _ => true, none, fun _ _ => .verdict false 1⟩).run
        plainRuntime markedStore (sampleMemory 2 (some (sampleId 1))))
      (sampleMemory 2 (some (sampleId 1))) := by
  have htarget : retractionTarget agreeingJudge markedStore (sampleMemory 2 (some (sampleId 1))) =
      some { sampleMemory 1 none with status := .conflicted } := by decide +kernel
  refine (detection_in_scope_iff (by decide) _).mpr (.inr (.inr ?_))
  rw [Detection.WritesInScope, htarget]
  refine .inr ⟨.inr ⟨rfl, rfl, rfl⟩, fun c hc => ?_⟩
  have hnone : conflictsAfter plainRuntime ⟨fun _ => true, none, fun _ _ => .verdict false 1⟩
      markedStore (sampleMemory 2 (some (sampleId 1)))
        { sampleMemory 1 none with status := .conflicted } = [] := by decide
  rw [hnone] at hc
  exact absurd hc List.not_mem_nil

end Memclaw.Contradiction

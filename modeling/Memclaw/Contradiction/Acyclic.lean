import Mathlib.Data.Prod.Lex
import Mathlib.Data.String.Basic
import Mathlib.Logic.Relation
import Memclaw.Contradiction.Edges
import Memclaw.Lib.FixedWidth

/-! Supersession is acyclic. Detection runs read their rows at any time and their writes
interleave row by row; every edge still goes from a later memory to an earlier one in the
order of creation time and id. -/

namespace Memclaw.Contradiction

open Memclaw.Lib Relation

def creationKey (created : Uuid → ℤ) (id : Uuid) : ℤ ×ₗ String := toLex (created id, idText id)

theorem idText_injective : Function.Injective idText :=
  fun _ _ h => Uuid.text_injective (String.ofList_injective h)

theorem creationKey_injective (created : Uuid → ℤ) : Function.Injective (creationKey created) := by
  intro a b h
  exact idText_injective (Prod.ext_iff.mp (toLex.injective h)).2

def Dated (rt : Runtime) (created : Uuid → ℤ) (m : Memory) : Prop :=
  parseDt rt m.createdAt = some (created m.id)

variable {rt : Runtime} {created : Uuid → ℤ}

theorem pickOlderIsLeft_iff {a b : Memory} (ha : Dated rt created a) (hb : Dated rt created b)
    (hne : a.id ≠ b.id) :
    pickOlderIsLeft rt a b = true ↔ creationKey created a.id < creationKey created b.id := by
  have hids : idText a.id ≠ idText b.id := fun h => hne (idText_injective h)
  unfold pickOlderIsLeft
  rw [ha, hb]
  simp only [creationKey, Prod.Lex.toLex_lt_toLex]
  by_cases htime : created a.id = created b.id
  · simp only [htime, ne_eq, not_true_eq_false, if_false, lt_self_iff_false, true_and, false_or,
      Bool.not_eq_true', decide_eq_false_iff_not, not_lt]
    exact ⟨fun h => lt_of_le_of_ne h hids, le_of_lt⟩
  · simp [htime]

def UpdatesOriented (created : Uuid → ℤ) (updates : List RowUpdate) : Prop :=
  ∀ u ∈ updates, ∀ s, u.supersedesId = some s → creationKey created s < creationKey created u.memoryId

theorem mergeStatusUpdate_oriented {acc : List RowUpdate} (hacc : UpdatesOriented created acc)
    {row : RowUpdate} (hrow : UpdatesOriented created [row]) :
    UpdatesOriented created (mergeStatusUpdate acc row) := by
  have hedge : ∀ s, row.supersedesId = some s →
      creationKey created s < creationKey created row.memoryId := hrow row (by simp)
  unfold mergeStatusUpdate
  split_ifs with hany
  · intro v hv s hs
    obtain ⟨u, hu, rfl⟩ := List.mem_map.mp hv
    rw [mergeInto_memoryId]
    unfold RowUpdate.mergeInto at hs
    split_ifs at hs with hid
    · cases hnew : row.supersedesId with
      | none => exact hacc u hu s (by simpa [hnew] using hs)
      | some t =>
        rw [hnew] at hs
        cases hs
        rw [hid]
        exact hedge _ hnew
    · exact hacc u hu s hs
  · intro v hv
    rcases List.mem_append.mp hv with hold | hrow'
    · exact hacc v hold
    · rw [List.mem_singleton.mp hrow']
      exact hedge

theorem oriented_status (id : Uuid) (status : Status) :
    UpdatesOriented created [⟨id, status, none⟩] := by
  intro u hu s hs
  rw [List.mem_singleton.mp hu] at hs
  cases hs

theorem oriented_edge {id target : Uuid} (status : Status)
    (h : creationKey created target < creationKey created id) :
    UpdatesOriented created [⟨id, status, some target⟩] := by
  intro u hu s hs
  rw [List.mem_singleton.mp hu] at hs ⊢
  cases hs
  exact h

/-- The snapshots that a run compares: the trigger and other rows, of any age. -/
structure Snapshots (rt : Runtime) (created : Uuid → ℤ) (newMemory : Memory) where
  list : List Memory
  trigger : Dated rt created newMemory
  dated : ∀ c ∈ list, Dated rt created c
  ne : ∀ c ∈ list, c.id ≠ newMemory.id

variable {newMemory : Memory}

theorem pickOlder_cases {c : Memory} (hnew : Dated rt created newMemory)
    (hc : Dated rt created c) (hne : c.id ≠ newMemory.id) :
    (pickOlder rt c newMemory = c ∧ creationKey created c.id < creationKey created newMemory.id) ∨
      (pickOlder rt c newMemory = newMemory ∧
        creationKey created newMemory.id < creationKey created c.id) := by
  cases hleft : pickOlderIsLeft rt c newMemory with
  | true => exact .inl ⟨pickOlder_of_left hleft, (pickOlderIsLeft_iff hc hnew hne).mp hleft⟩
  | false =>
    refine .inr ⟨pickOlder_of_right hleft, ?_⟩
    have hnot : ¬ creationKey created c.id < creationKey created newMemory.id := by
      rw [← pickOlderIsLeft_iff hc hnew hne, hleft]
      decide
    exact lt_of_le_of_ne (not_lt.mp hnot) fun h => hne (creationKey_injective created h).symm

theorem attributeConflict_oriented {mark : Status} {st : LoopState} {c : Memory}
    (hnew : Dated rt created newMemory) (hc : Dated rt created c) (hne : c.id ≠ newMemory.id)
    (hst : UpdatesOriented created st.updates) :
    UpdatesOriented created (attributeConflict rt mark newMemory st c).updates := by
  have hmark := fun id : Uuid => mergeStatusUpdate_oriented hst (oriented_status id mark)
  unfold attributeConflict
  rcases pickOlder_cases hnew hc hne with ⟨holder, hlt⟩ | ⟨holder, hlt⟩
  · simp only [holder]
    rw [if_pos hne]
    split_ifs
    · exact mergeStatusUpdate_oriented (hmark c.id) (oriented_edge _ hlt)
    · exact mergeStatusUpdate_oriented (hmark c.id) (oriented_edge _ hlt)
    · exact hmark c.id
  · simp only [holder]
    rw [if_neg (by simp)]
    split_ifs
    · exact hmark newMemory.id
    · exact mergeStatusUpdate_oriented (hmark newMemory.id) (oriented_edge _ hlt)

theorem attributeByEntities_oriented {st : PathCState} {c : Memory}
    (hnew : Dated rt created newMemory) (hc : Dated rt created c) (hne : c.id ≠ newMemory.id)
    (hst : UpdatesOriented created st.updates) :
    UpdatesOriented created (attributeByEntities rt newMemory st c).updates := by
  have hmark := fun id : Uuid => mergeStatusUpdate_oriented hst (oriented_status id .conflicted)
  unfold attributeByEntities
  rcases pickOlder_cases hnew hc hne with ⟨holder, hlt⟩ | ⟨holder, hlt⟩
  · simp only [holder]
    split_ifs
    · exact hmark c.id
    · exact mergeStatusUpdate_oriented (hmark c.id) (oriented_edge _ hlt)
    · exact mergeStatusUpdate_oriented (hmark c.id) (oriented_edge _ hlt)
  · simp only [holder, ne_eq, not_true_eq_false, if_false]
    split_ifs
    · exact hmark newMemory.id
    · exact hmark newMemory.id
    · exact mergeStatusUpdate_oriented (hmark newMemory.id) (oriented_edge _ hlt)

theorem attributeAll_oriented (mark : Status) (snapshots : Snapshots rt created newMemory) :
    UpdatesOriented created (attributeAll rt mark newMemory snapshots.list) :=
  List.foldlRecOn (motive := fun st : LoopState => UpdatesOriented created st.updates) _ _
    (fun _ hu => absurd hu List.not_mem_nil)
    fun _ hst c hc =>
      attributeConflict_oriented snapshots.trigger (snapshots.dated c hc) (snapshots.ne c hc) hst

theorem attributeAllByEntities_oriented (snapshots : Snapshots rt created newMemory) :
    UpdatesOriented created (attributeAllByEntities rt newMemory snapshots.list) :=
  List.foldlRecOn (motive := fun st : PathCState => UpdatesOriented created st.updates) _ _
    (fun _ hu => absurd hu List.not_mem_nil)
    fun _ hst c hc =>
      attributeByEntities_oriented snapshots.trigger (snapshots.dated c hc) (snapshots.ne c hc) hst

inductive Write
  | update (tenantId : String) (u : RowUpdate)
  | clear (id : Uuid) (tenantId : String) (status : Status) (expected : Uuid)

def Write.run (store : Store) : Write → Store
  | .update tenantId u => store.batchUpdateStatus tenantId [u]
  | .clear id tenantId status expected => store.clearSupersedes id tenantId status expected

structure World where
  store : Store
  pending : List (List Write)

/-- One step of the concurrent runs. A run starts from rows that it read at any time and
with any verdicts; the writes of all runs land one by one, in any order between them. -/
inductive Step (rt : Runtime) (created : Uuid → ℤ) : World → World → Prop
  | detect (w : World) (mark : Status) (tenantId : String) (newMemory : Memory)
      (snapshots : Snapshots rt created newMemory) :
    Step rt created w ⟨w.store,
      (attributeAll rt mark newMemory snapshots.list).map (.update tenantId) :: w.pending⟩
  | detectByEntities (w : World) (tenantId : String) (newMemory : Memory)
      (snapshots : Snapshots rt created newMemory) :
    Step rt created w ⟨w.store,
      (attributeAllByEntities rt newMemory snapshots.list).map (.update tenantId) :: w.pending⟩
  | retract (w : World) (newMemory candidate : Memory) :
    Step rt created w ⟨w.store,
      [.update candidate.tenantId ⟨candidate.id, .active, none⟩,
        .clear newMemory.id newMemory.tenantId newMemory.status candidate.id] :: w.pending⟩
  | write (store : Store) (before after : List (List Write)) (op : Write) (rest : List Write) :
    Step rt created ⟨store, before ++ (op :: rest) :: after⟩ ⟨op.run store, before ++ rest :: after⟩

def Write.Sets (later earlier : Uuid) : Write → Prop
  | .update _ u => u.memoryId = later ∧ u.supersedesId = some earlier
  | .clear _ _ _ _ => False

def Supersedes (store : Store) (later earlier : Uuid) : Prop :=
  ∃ m ∈ store.rows, m.id = later ∧ m.supersedesId = some earlier

def PendingOriented (created : Uuid → ℤ) (w : World) : Prop :=
  ∀ queue ∈ w.pending, ∀ op ∈ queue, ∀ later earlier, op.Sets later earlier →
    creationKey created earlier < creationKey created later

def StoreOriented (created : Uuid → ℤ) (start store : Store) : Prop :=
  ∀ later earlier, Supersedes store later earlier →
    Supersedes start later earlier ∨ creationKey created earlier < creationKey created later

theorem pendingOriented_start {w : World} (hw : PendingOriented created w) {queue : List Write}
    (hqueue : ∀ op ∈ queue, ∀ later earlier, op.Sets later earlier →
      creationKey created earlier < creationKey created later) :
    PendingOriented created ⟨w.store, queue :: w.pending⟩ := by
  intro q hq
  rcases List.mem_cons.mp hq with rfl | hold
  · exact hqueue
  · exact hw q hold

theorem UpdatesOriented.queue {updates : List RowUpdate} (h : UpdatesOriented created updates)
    (tenantId : String) : ∀ op ∈ updates.map (Write.update tenantId), ∀ later earlier,
      op.Sets later earlier → creationKey created earlier < creationKey created later := by
  intro op hop later earlier hsets
  obtain ⟨u, hu, rfl⟩ := List.mem_map.mp hop
  obtain ⟨rfl, hedge⟩ := hsets
  exact h u hu earlier hedge

theorem step_pendingOriented {w w' : World} (hstep : Step rt created w w')
    (hw : PendingOriented created w) : PendingOriented created w' := by
  cases hstep with
  | detect _ mark tenantId newMemory snapshots =>
    exact pendingOriented_start hw ((attributeAll_oriented mark snapshots).queue tenantId)
  | detectByEntities _ tenantId newMemory snapshots =>
    exact pendingOriented_start hw ((attributeAllByEntities_oriented snapshots).queue tenantId)
  | retract newMemory candidate =>
    refine pendingOriented_start hw ?_
    intro op hop later earlier hsets
    -- neither write sets an edge
    simp only [List.mem_cons, List.not_mem_nil, or_false] at hop
    rcases hop with rfl | rfl
    · exact absurd hsets.2 (by simp)
    · exact hsets.elim
  | write store before after op rest =>
    intro queue hqueue
    rw [List.mem_append, List.mem_cons] at hqueue
    rcases hqueue with hbefore | rfl | hafter
    · exact hw queue (by simp [hbefore])
    · exact fun o ho => hw (op :: queue) (by simp) o (List.mem_cons_of_mem _ ho)
    · exact hw queue (by simp [hafter])

theorem Write.supersedes_run {store : Store} {op : Write} {later earlier : Uuid}
    (h : Supersedes (op.run store) later earlier) :
    Supersedes store later earlier ∨ op.Sets later earlier := by
  -- An edge in the store after a write was there before or is the one written.
  obtain ⟨m', hm', hid, hedge⟩ := h
  cases op with
  | update tenantId u =>
    by_cases hset : tenantId = ""
    · rw [hset, Write.run, batchUpdateStatus_empty] at hm'
      exact .inl ⟨m', hm', hid, hedge⟩
    rw [Write.run, Store.batchUpdateStatus, if_neg hset] at hm'
    obtain ⟨m, hm, rfl⟩ := List.mem_map.mp hm'
    rw [Memory.updateStatus_id] at hid
    unfold Memory.updateStatus at hedge
    split_ifs at hedge with hrow
    · cases hnew : u.supersedesId with
      | none => exact .inl ⟨m, hm, hid, by simpa [hnew] using hedge⟩
      | some s =>
        rw [hnew] at hedge
        exact .inr ⟨hrow.1.symm.trans hid, hnew.trans hedge⟩
    · exact .inl ⟨m, hm, hid, hedge⟩
  | clear id tenantId status expected =>
    obtain ⟨m, hm, rfl⟩ := List.mem_map.mp hm'
    rw [Memory.clearSupersedes_id] at hid
    unfold Memory.clearSupersedes at hedge
    split_ifs at hedge
    exact .inl ⟨m, hm, hid, hedge⟩

theorem step_storeOriented {start : Store} {w w' : World} (hstep : Step rt created w w')
    (hpending : PendingOriented created w) (hw : StoreOriented created start w.store) :
    StoreOriented created start w'.store := by
  cases hstep with
  | detect => exact hw
  | detectByEntities => exact hw
  | retract => exact hw
  | write store before after op rest =>
    intro later earlier hedge
    rcases Write.supersedes_run hedge with hold | hsets
    · exact hw later earlier hold
    · exact .inr (hpending (op :: rest) (by simp) op (by simp) later earlier hsets)

theorem reachable_oriented {start : Store} {w : World}
    (hrun : ReflTransGen (Step rt created) ⟨start, []⟩ w) :
    PendingOriented created w ∧ StoreOriented created start w.store := by
  induction hrun with
  | refl =>
    exact ⟨fun queue hqueue => absurd hqueue List.not_mem_nil, fun later earlier h => .inl h⟩
  | tail _ hstep ih => exact ⟨step_pendingOriented hstep ih.1, step_storeOriented hstep ih.1 ih.2⟩

/-- In every interleaving of detection runs, each edge they set goes from a later to a
strictly earlier memory; a store that starts without edges never has a cycle. -/
theorem supersession_acyclic {start : Store} {w : World}
    (hrun : ReflTransGen (Step rt created) ⟨start, []⟩ w) :
    PendingOriented created w ∧ StoreOriented created start w.store ∧
      ((∀ m ∈ start.rows, m.supersedesId = none) → ∀ id, ¬ TransGen (Supersedes w.store) id id) := by
  obtain ⟨hpending, hstore⟩ := reachable_oriented hrun
  refine ⟨hpending, hstore, ?_⟩
  intro hstart id hcycle
  have hdescends : ∀ later earlier, Supersedes w.store later earlier →
      creationKey created earlier < creationKey created later := by
    intro later earlier hedge
    rcases hstore later earlier hedge with ⟨m, hm, -, hsome⟩ | hlt
    · rw [hstart m hm] at hsome
      cases hsome
    · exact hlt
  -- a path of edges descends too
  have hpath : ∀ later, TransGen (Supersedes w.store) later id →
      creationKey created id < creationKey created later := by
    intro later hpath
    induction hpath using TransGen.head_induction_on with
    | single hedge => exact hdescends _ _ hedge
    | head hedge _ ih => exact ih.trans (hdescends _ _ hedge)
  exact lt_irrefl _ (hpath id hcycle)

theorem run_queue (store : Store) (queue : List Write) (pending : List (List Write)) :
    ReflTransGen (Step rt created) ⟨store, queue :: pending⟩
      ⟨queue.foldl Write.run store, [] :: pending⟩ := by
  induction queue generalizing store with
  | nil => exact .refl
  | cons op rest ih => exact .head (.write store [] pending op rest) (ih (op.run store))

theorem run_updates (store : Store) (tenantId : String) (updates : List RowUpdate) :
    (updates.map (Write.update tenantId)).foldl Write.run store =
      store.batchUpdateStatus tenantId updates := by
  by_cases hset : tenantId = ""
  · subst hset
    rw [batchUpdateStatus_empty]
    induction updates with
    | nil => rfl
    | cons u updates ih => exact ih
  · rw [Store.batchUpdateStatus, if_neg hset, List.foldl_map]
    congr
    funext s u
    rw [Write.run, Store.batchUpdateStatus, if_neg hset]
    rfl

def Store.Dated (rt : Runtime) (created : Uuid → ℤ) (store : Store) : Prop :=
  ∀ m ∈ store.rows, Contradiction.Dated rt created m

def Conflicts.snapshots {store : Store} (conflicts : Conflicts store newMemory)
    (hdated : store.Dated rt created) (hnew : newMemory ∈ store.rows) :
    Snapshots rt created newMemory where
  list := conflicts.list
  trigger := hdated newMemory hnew
  dated c hc := hdated c (conflicts.stored c hc)
  ne := conflicts.ne

theorem detectContradictionsAsync_run {store : Store} (hdated : store.Dated rt created)
    (input : PathAInput) (memoryId : Uuid) (pending : List (List Write)) :
    ∃ pending', ReflTransGen (Step rt created) ⟨store, pending⟩
      ⟨detectContradictionsAsync rt input store memoryId, pending'⟩ := by
  unfold detectContradictionsAsync
  cases hget : store.get memoryId with
  | none => exact ⟨pending, .refl⟩
  | some newMemory =>
    simp only []
    split_ifs
    · exact ⟨pending, .refl⟩
    · rw [detectContradictions, detect_eq, ← run_updates]
      have hnew := Store.mem_of_get hget
      exact ⟨[] :: pending, .head (.detect ⟨store, pending⟩ _ _ newMemory
        ((pathAConflicts rt store newMemory input).2.snapshots hdated hnew)) (run_queue _ _ _)⟩

theorem Store.Dated.map {store : Store} (hdated : store.Dated rt created) {f : Memory → Memory}
    (hf : ∀ m, (f m).id = m.id) (hcreated : ∀ m, (f m).createdAt = m.createdAt) :
    (store.map f hf).Dated rt created := by
  intro m' hm'
  obtain ⟨m, hm, rfl⟩ := List.mem_map.mp hm'
  unfold Contradiction.Dated
  rw [hf, hcreated]
  exact hdated m hm

theorem detectByEntities_run {store : Store} (hdated : store.Dated rt created)
    (hnew : newMemory ∈ store.rows) (input : PathCInput) (fleetId : Option String)
    (pending : List (List Write)) :
    ReflTransGen (Step rt created) ⟨store, pending⟩
      ⟨detectByEntities rt input store newMemory fleetId, [] :: pending⟩ := by
  rw [detectByEntities, ← entityConflicts_list, ← run_updates]
  exact .head (.detectByEntities ⟨store, pending⟩ _ newMemory
    ((entityConflicts rt store newMemory input fleetId).snapshots hdated hnew)) (run_queue _ _ _)

theorem attemptPathCRetraction_cases {input : RetractionInput} {store store' : Store}
    (h : attemptPathCRetraction input store newMemory = some store') :
    store' = store ∨ ∃ candidate : Memory, candidate.tenantId ≠ "" ∧
      store' = (store.updateStatus candidate.tenantId ⟨candidate.id, .active, none⟩).clearSupersedes
        newMemory.id newMemory.tenantId newMemory.status candidate.id := by
  -- The store after a retraction that did not raise.
  unfold attemptPathCRetraction at h
  cases htarget : retractionTarget input store newMemory with
  | none =>
    rw [htarget] at h
    exact .inl (Option.some.inj h).symm
  | some candidate =>
    rw [htarget] at h
    simp only [] at h
    split_ifs at h with hempty
    rw [not_or] at hempty
    exact .inr ⟨candidate, hempty.1, (Option.some.inj h).symm⟩

theorem attemptPathCRetraction_run {input : RetractionInput} {store store' : Store}
    (h : attemptPathCRetraction input store newMemory = some store')
    (hdated : store.Dated rt created) {memoryId : Uuid} (hget : store.get memoryId = some newMemory)
    (pending : List (List Write)) :
    store'.Dated rt created ∧ (store'.get memoryId).getD newMemory ∈ store'.rows ∧
      ∃ pending', ReflTransGen (Step rt created) ⟨store, pending⟩ ⟨store', pending'⟩ := by
  rcases attemptPathCRetraction_cases h with rfl | ⟨candidate, hset, rfl⟩
  · refine ⟨hdated, ?_, pending, .refl⟩
    rw [hget]
    exact Store.mem_of_get hget
  · refine ⟨?_, ?_, [] :: pending, ?_⟩
    · refine Store.Dated.map (Store.Dated.map hdated _ ?_) _ ?_
      · intro m
        unfold Memory.updateStatus
        split_ifs <;> rfl
      · intro m
        unfold Memory.clearSupersedes
        split_ifs <;> rfl
    · have hsome : ∃ m, ((store.updateStatus candidate.tenantId
          ⟨candidate.id, .active, none⟩).clearSupersedes newMemory.id newMemory.tenantId
            newMemory.status candidate.id).get memoryId = some m := by
        rw [Store.get_rewritten (Memory.clearSupersedes_id _ _ _ _) rfl,
          Store.get_rewritten (Memory.updateStatus_id _ _) rfl, hget]
        exact ⟨_, rfl⟩
      obtain ⟨m, hm⟩ := hsome
      rw [hm]
      exact Store.mem_of_get hm
    · have hqueue : ReflTransGen (Step rt created) _ _ := run_queue store
        [.update candidate.tenantId ⟨candidate.id, .active, none⟩,
          .clear newMemory.id newMemory.tenantId newMemory.status candidate.id] pending
      simp only [List.foldl_cons, List.foldl_nil, Write.run, Store.batchUpdateStatus, if_neg hset]
        at hqueue
      exact .head (.retract ⟨store, pending⟩ newMemory candidate) hqueue

theorem detectContradictionsByEntitiesAsync_run {store : Store} (hdated : store.Dated rt created)
    (retraction : RetractionInput) (input : PathCInput) (memoryId : Uuid) (fleetId : Option String)
    (pending : List (List Write)) :
    ∃ pending', ReflTransGen (Step rt created) ⟨store, pending⟩
      ⟨detectContradictionsByEntitiesAsync rt retraction input store memoryId fleetId, pending'⟩ := by
  unfold detectContradictionsByEntitiesAsync
  cases hget : store.get memoryId with
  | none => exact ⟨pending, .refl⟩
  | some newMemory =>
    simp only []
    split_ifs
    · exact ⟨pending, .refl⟩
    cases hretract : attemptPathCRetraction retraction store newMemory with
    | none => exact ⟨pending, .refl⟩
    | some store' =>
      obtain ⟨hdated', hmem, pending', hrun⟩ :=
        attemptPathCRetraction_run hretract hdated hget pending
      exact ⟨[] :: pending', hrun.trans (detectByEntities_run hdated' hmem input fleetId pending')⟩

def freshStore : Store where
  rows := [sampleMemory 1 none, sampleMemory 2 none]
  nodup := by decide

/-- The semantic path over two memories gives the later one its edge. -/
theorem supersession_acyclic_pair :
    Supersedes (detectContradictionsAsync plainRuntime ⟨fun _ => true, fun _ => .verdict true 1⟩
        freshStore (sampleId 2)) (sampleId 2) (sampleId 1) ∧
      ∀ id, ¬ TransGen (Supersedes (detectContradictionsAsync plainRuntime
        ⟨fun _ => true, fun _ => .verdict true 1⟩ freshStore (sampleId 2))) id id := by
  refine ⟨⟨sampleMemory 2 (some (sampleId 1)), by decide, rfl, rfl⟩, ?_⟩
  have hdated : freshStore.Dated plainRuntime fun id => id.value := by
    intro m hm
    simp only [freshStore, List.mem_cons, List.not_mem_nil, or_false] at hm
    rcases hm with rfl | rfl <;> rfl
  obtain ⟨pending, hrun⟩ := detectContradictionsAsync_run hdated
    ⟨fun _ => true, fun _ => .verdict true 1⟩ (sampleId 2) []
  exact (supersession_acyclic hrun).2.2 (by decide)

end Memclaw.Contradiction

import Memclaw.Contradiction.Scope

/-! Marking and un-marking. The retraction sees one row, the one that the trigger's edge
leads to; it undoes a run of the semantic loop exactly when that row is all the run left
behind. -/

namespace Memclaw.Contradiction

open Memclaw.Lib

def semanticConflicts (rt : Runtime) (input : PathAInput) (store : Store) (newMemory : Memory) :
    Conflicts store newMemory :=
  (similarCandidates rt store newMemory input.similar).filter fun c => (input.judge c).isConflict

def markConflicts (rt : Runtime) (input : PathAInput) (store : Store) (newMemory : Memory) : Store :=
  store.batchUpdateStatus newMemory.tenantId
    (attributeAll rt .conflicted newMemory (semanticConflicts rt input store newMemory).list)

def retractFor (input : RetractionInput) (store : Store) (memoryId : Uuid) : Store :=
  match store.get memoryId with
  | some newMemory => (attemptPathCRetraction input store newMemory).getD store
  | none => store

structure RetractionInput.Agrees (input : RetractionInput) : Prop where
  enabled : input.retractionEnabled = true
  contexts : ∃ contexts, input.contexts = some contexts ∧ ∀ id, contexts id ≠ []
  verdict : ∀ m, ∃ confidence, input.judge m = .verdict false confidence ∧
    retractionConfidenceThreshold ≤ confidence

def Restored (store store' : Store) : Prop :=
  ∀ m ∈ store.rows, ∀ m' ∈ store'.rows, m'.id = m.id → ¬ Changed m m'

def NewerKept (rt : Runtime) (newMemory : Memory) (conflicts : List Memory) : Prop :=
  ∀ c ∈ conflicts, isOlder rt newMemory c = false →
    c.supersedesId ≠ none ∧ newMemory.status = .conflicted

/-- All that there is to undo is one older candidate, active before, behind an edge that the
trigger got with it; or there is nothing to undo and no other row behind the trigger's edge
that the retraction would take back. -/
def UndoCondition (rt : Runtime) (store : Store) (newMemory : Memory) (conflicts : List Memory) :
    Prop :=
  NewerKept rt newMemory conflicts ∧
  match newMemory.supersedesId with
  | none => ∀ o ∈ conflicts, isOlder rt newMemory o = true →
      o.status = .active ∧ ∀ o' ∈ conflicts, isOlder rt newMemory o' = true → o' = o
  | some s => (∀ c ∈ conflicts, isOlder rt newMemory c = false) ∧
      ∀ r, store.get s = some r → r.deleted = true ∨ r.status ≠ .conflicted ∨ r.tenantId = ""

variable {rt : Runtime} {store : Store} {newMemory : Memory}

def conflictedTarget (store : Store) (newMemory : Memory) : Option Memory :=
  (newMemory.supersedesId.bind store.get).filter fun c => !c.deleted && c.status = .conflicted

theorem retractionTarget_of_agrees {input : RetractionInput} (hagrees : input.Agrees)
    (store : Store) (newMemory : Memory) :
    retractionTarget input store newMemory = conflictedTarget store newMemory := by
  obtain ⟨henabled, ⟨contexts, hcontexts, hnonempty⟩, hverdict⟩ := hagrees
  unfold retractionTarget conflictedTarget
  rw [henabled, hcontexts]
  cases newMemory.supersedesId with
  | none => rfl
  | some s =>
    simp only [Option.bind_some]
    cases hget : store.get s with
    | none => rfl
    | some c =>
      obtain ⟨confidence, hjudge, hconfident⟩ := hverdict c
      have hpass : ¬ confidence < retractionConfidenceThreshold := Rat.not_lt.mpr hconfident
      have hknown : ∀ id, (contexts id).isEmpty = false := fun id => by simp [hnonempty id]
      simp only [hjudge, hpass, hknown, Option.filter]
      by_cases hconflicted : c.status = .conflicted
      · by_cases hdeleted : c.deleted = true <;> simp [hconflicted, hdeleted]
      · simp [hconflicted]

theorem conflictedTarget_eq_some {s : Uuid} (hedge : newMemory.supersedesId = some s) {c : Memory} :
    conflictedTarget store newMemory = some c ↔
      store.get s = some c ∧ c.deleted = false ∧ c.status = .conflicted := by
  unfold conflictedTarget
  rw [hedge, Option.bind_some, Option.filter_eq_some_iff]
  simp

theorem retractFor_rows {input : RetractionInput} (hagrees : input.Agrees)
    (hnew : newMemory ∈ store.rows) :
    (retractFor input store newMemory.id).rows =
      match conflictedTarget store newMemory with
      | some target =>
        if target.tenantId = "" ∨ newMemory.tenantId = "" then store.rows
        else store.rows.map (retractedRow newMemory target)
      | none => store.rows := by
  unfold retractFor
  rw [Store.get_of_mem hnew]
  simp only [attemptPathCRetraction, retractionTarget_of_agrees hagrees]
  cases conflictedTarget store newMemory with
  | none => rfl
  | some target =>
    simp only []
    split_ifs
    · rfl
    · simp only [Option.getD_some, Store.clearSupersedes, Store.updateStatus, Store.map, List.map_map]
      rfl

theorem semanticConflicts_live {input : PathAInput} {c : Memory}
    (hc : c ∈ (semanticConflicts rt input store newMemory).list) :
    liveStatus c.status = true ∧ c.deleted = false := by
  have hwhere : similarWhere input.similar newMemory c = true :=
    rt.where_of_mem_order (List.mem_of_mem_take (List.mem_of_mem_filter hc))
  simp only [similarWhere, Bool.and_eq_true, Bool.not_eq_true'] at hwhere
  exact ⟨hwhere.1.1.1.1.2, hwhere.1.1.1.1.1.2⟩

section

variable {conflicts : List Memory}

theorem flips_of_newer {c : Memory} (hc : c ∈ conflicts) (hnewer : isOlder rt newMemory c = false) :
    flips rt newMemory conflicts = true :=
  List.any_eq_true.mpr ⟨c, hc, by rw [hnewer]; rfl⟩

theorem NewerKept.status (hkept : NewerKept rt newMemory conflicts)
    (hflips : flips rt newMemory conflicts = true) : newMemory.status = .conflicted := by
  obtain ⟨c, hc, hnewer⟩ := List.any_eq_true.mp hflips
  exact (hkept c hc (by simpa using hnewer)).2

theorem attributedRow_trigger (mark : Status) :
    attributedRow rt mark newMemory conflicts newMemory =
      { newMemory with
        status := if flips rt newMemory conflicts then mark else newMemory.status
        supersedesId := newMemory.supersedesId <|> firstOlder rt newMemory conflicts } :=
  if_pos rfl

theorem attributedRow_older {mark : Status} {o : Memory} (hmem : o ∈ conflicts)
    (hne : o.id ≠ newMemory.id) (hold : isOlder rt newMemory o = true) :
    attributedRow rt mark newMemory conflicts o = { o with status := mark } := by
  unfold attributedRow
  rw [if_neg hne, if_pos hmem, if_pos hold]

theorem attributedRow_frame (mark : Status) (m : Memory) :
    (attributedRow rt mark newMemory conflicts m).deleted = m.deleted ∧
      (attributedRow rt mark newMemory conflicts m).tenantId = m.tenantId := by
  unfold attributedRow
  split_ifs <;> exact ⟨rfl, rfl⟩

theorem firstOlder_eq_none :
    firstOlder rt newMemory conflicts = none ↔ ∀ c ∈ conflicts, isOlder rt newMemory c = false := by
  unfold firstOlder
  rw [Option.map_eq_none_iff, List.find?_eq_none]
  simp only [Bool.not_eq_true]

theorem trigger_status_iff : (if flips rt newMemory conflicts then .conflicted
    else newMemory.status) = newMemory.status ↔
      (flips rt newMemory conflicts = true → newMemory.status = .conflicted) := by
  cases flips rt newMemory conflicts <;> simp [eq_comm]

/-- The loop changes nothing exactly when no older candidate conflicts and the newer ones
are left alone. -/
theorem marks_nothing_iff (hnew : newMemory ∈ store.rows)
    (hstored : ∀ c ∈ conflicts, c ∈ store.rows) (hne : ∀ c ∈ conflicts, c.id ≠ newMemory.id)
    (hlive : ∀ c ∈ conflicts, liveStatus c.status = true) :
    (∀ m ∈ store.rows, ¬ Changed m (attributedRow rt .conflicted newMemory conflicts m)) ↔
      (∀ c ∈ conflicts, isOlder rt newMemory c = false) ∧ NewerKept rt newMemory conflicts := by
  constructor
  · intro h
    have huntouched : ∀ c ∈ conflicts, ¬ Touches rt newMemory c := fun c hc htouch =>
      h c (hstored c hc) ((attributedRow_changed_iff rfl (hne c hc) (hlive c)).mpr ⟨hc, htouch⟩)
    refine ⟨fun c hc => ?_, fun c hc hnewer => ⟨fun hedge => huntouched c hc (.inr hedge), ?_⟩⟩
    · exact Bool.eq_false_iff.mpr fun hold => huntouched c hc (.inl hold)
    · have htrigger := h newMemory hnew
      rw [attributedRow_trigger, Changed, not_or, not_not] at htrigger
      exact trigger_status_iff.mp htrigger.1 (flips_of_newer hc hnewer)
  · rintro ⟨hnone, hkept⟩ m hm hchanged
    by_cases hid : m.id = newMemory.id
    · obtain rfl := Store.eq_of_id_eq hm hnew hid
      rw [attributedRow_trigger, firstOlder_eq_none.mpr hnone, Changed] at hchanged
      rcases hchanged with hstatus | hedge
      · exact hstatus (trigger_status_iff.mpr hkept.status)
      · exact hedge (by cases m.supersedesId <;> rfl)
    · obtain ⟨hmem, htouch⟩ := (attributedRow_changed_iff rfl hid (hlive m)).mp hchanged
      rcases htouch with hold | hedge
      · rw [hnone m hmem] at hold
        cases hold
      · exact (hkept m hmem (hnone m hmem)).1 hedge

end

theorem restored_iff {store' : Store} {f : Memory → Memory} (hf : ∀ m, (f m).id = m.id)
    (hrows : store'.rows = store.rows.map f) :
    Restored store store' ↔ ∀ m ∈ store.rows, ¬ Changed m (f m) :=
  forall₂_congr fun _ hm => forall_rewritten_iff hf hrows hm

def undoneRow (rt : Runtime) (newMemory : Memory) (conflicts : List Memory) (o m : Memory) : Memory :=
  retractedRow (attributedRow rt .conflicted newMemory conflicts newMemory)
    (attributedRow rt .conflicted newMemory conflicts o)
    (attributedRow rt .conflicted newMemory conflicts m)

section

variable {conflicts : List Memory} {o : Memory}

theorem undoneRow_older_iff (hmem : o ∈ conflicts) (hne : o.id ≠ newMemory.id)
    (hold : isOlder rt newMemory o = true) :
    ¬ Changed o (undoneRow rt newMemory conflicts o o) ↔ o.status = .active := by
  have hids : (attributedRow rt .conflicted newMemory conflicts o).id ≠
      (attributedRow rt .conflicted newMemory conflicts newMemory).id := by
    rw [attributedRow_id, attributedRow_id]
    exact hne
  rw [undoneRow, retractedRow_target hids, attributedRow_older hmem hne hold]
  simp [Changed, eq_comm]

theorem undoneRow_trigger_iff (hne : o.id ≠ newMemory.id) (hedge : newMemory.supersedesId = none)
    (hfirst : firstOlder rt newMemory conflicts = some o.id) :
    ¬ Changed newMemory (undoneRow rt newMemory conflicts o newMemory) ↔
      (flips rt newMemory conflicts = true → newMemory.status = .conflicted) := by
  have hids : (attributedRow rt .conflicted newMemory conflicts o).id ≠
      (attributedRow rt .conflicted newMemory conflicts newMemory).id := by
    rw [attributedRow_id, attributedRow_id]
    exact hne
  have hnewEdge : (attributedRow rt .conflicted newMemory conflicts newMemory).supersedesId =
      some (attributedRow rt .conflicted newMemory conflicts o).id := by
    rw [attributedRow_trigger, attributedRow_id, hedge, hfirst]
    rfl
  rw [undoneRow, retractedRow_trigger hnewEdge, withoutEdge, attributedRow_trigger, ← trigger_status_iff]
  simp [Changed, hedge]

theorem undoneRow_other_iff {m : Memory} (hlive : m ∈ conflicts → liveStatus m.status = true)
    (hmo : m.id ≠ o.id) (hmn : m.id ≠ newMemory.id) :
    ¬ Changed m (undoneRow rt newMemory conflicts o m) ↔
      (m ∈ conflicts → ¬ Touches rt newMemory m) := by
  have hother : undoneRow rt newMemory conflicts o m =
      attributedRow rt .conflicted newMemory conflicts m := by
    apply retractedRow_other
    · rw [attributedRow_id, attributedRow_id]
      exact hmo
    · rw [attributedRow_id, attributedRow_id]
      exact hmn
  rw [hother, attributedRow_changed_iff rfl hmn hlive, not_and]

end

/-- A trigger that got its edge from the first older candidate: the retraction takes back
this candidate and the edge, and nothing else. -/
theorem undo_first_older_iff {conflicts : Conflicts store newMemory} (hnew : newMemory ∈ store.rows)
    (hlive : ∀ c ∈ conflicts.list, liveStatus c.status = true)
    (hedge : newMemory.supersedesId = none) {o : Memory} (ho : o ∈ conflicts.list)
    (hold : isOlder rt newMemory o = true)
    (hfirst : firstOlder rt newMemory conflicts.list = some o.id) :
    (∀ m ∈ store.rows, ¬ Changed m (undoneRow rt newMemory conflicts.list o m)) ↔
      UndoCondition rt store newMemory conflicts.list := by
  have hne := conflicts.ne o ho
  unfold UndoCondition
  rw [hedge]
  constructor
  · intro h
    have hothers : ∀ c ∈ conflicts.list, c ≠ o → ¬ Touches rt newMemory c := by
      intro c hc hco
      have hid : c.id ≠ o.id := fun hid =>
        hco (Store.eq_of_id_eq (conflicts.stored c hc) (conflicts.stored o ho) hid)
      exact (undoneRow_other_iff (hlive c) hid (conflicts.ne c hc)).mp
        (h c (conflicts.stored c hc)) hc
    have hunique : ∀ c ∈ conflicts.list, isOlder rt newMemory c = true → c = o := by
      intro c hc hcold
      by_contra hco
      exact hothers c hc hco (.inl hcold)
    refine ⟨fun c hc hnewer => ⟨fun hnone => ?_, ?_⟩, fun c hc hcold => ?_⟩
    · have hco : c ≠ o := by
        rintro rfl
        rw [hold] at hnewer
        cases hnewer
      exact hothers c hc hco (.inr hnone)
    · exact (undoneRow_trigger_iff hne hedge hfirst).mp (h newMemory hnew) (flips_of_newer hc hnewer)
    · obtain rfl := hunique c hc hcold
      exact ⟨(undoneRow_older_iff hc hne hold).mp (h c (conflicts.stored c hc)), hunique⟩
  · rintro ⟨hkept, hone⟩ m hm
    obtain ⟨hactive, hunique⟩ := hone o ho hold
    by_cases hmo : m.id = o.id
    · obtain rfl := Store.eq_of_id_eq hm (conflicts.stored o ho) hmo
      exact (undoneRow_older_iff ho hne hold).mpr hactive
    by_cases hmn : m.id = newMemory.id
    · obtain rfl := Store.eq_of_id_eq hm hnew hmn
      exact (undoneRow_trigger_iff hne hedge hfirst).mpr hkept.status
    · refine (undoneRow_other_iff (hlive m) hmo hmn).mpr ?_
      rintro hmem (hmold | hnone)
      · exact hmo (by rw [hunique m hmem hmold])
      · cases hmold : isOlder rt newMemory m with
        | true => exact hmo (by rw [hunique m hmem hmold])
        | false => exact (hkept m hmem hmold).1 hnone

section

variable {input : RetractionInput} {conflicts : Conflicts store newMemory} {marked : Store}

theorem undo_idle_iff (hnew : newMemory ∈ store.rows)
    (hlive : ∀ c ∈ conflicts.list, liveStatus c.status = true)
    (hrows : marked.rows =
      store.rows.map (attributedRow rt .conflicted newMemory conflicts.list))
    (hidle : (retractFor input marked newMemory.id).rows = marked.rows) :
    Restored store (retractFor input marked newMemory.id) ↔
      (∀ c ∈ conflicts.list, isOlder rt newMemory c = false) ∧
        NewerKept rt newMemory conflicts.list := by
  rw [restored_iff (attributedRow_id _ _) (hidle.trans hrows)]
  exact marks_nothing_iff hnew conflicts.stored conflicts.ne hlive

theorem retractFor_marked_rows (hagrees : input.Agrees) (hnew : newMemory ∈ store.rows)
    (hset : newMemory.tenantId ≠ "")
    (hrows : marked.rows =
      store.rows.map (attributedRow rt .conflicted newMemory conflicts.list)) :
    (retractFor input marked newMemory.id).rows =
      match conflictedTarget marked (attributedRow rt .conflicted newMemory conflicts.list newMemory) with
      | some target =>
        if target.tenantId = "" then marked.rows
        else marked.rows.map (retractedRow
          (attributedRow rt .conflicted newMemory conflicts.list newMemory) target)
      | none => marked.rows := by
  -- What the retraction after a run writes, by the row behind the trigger's edge.
  have hmem : attributedRow rt .conflicted newMemory conflicts.list newMemory ∈ marked.rows := by
    rw [hrows]
    exact List.mem_map_of_mem hnew
  have hretract := retractFor_rows hagrees hmem
  rw [attributedRow_id] at hretract
  rw [hretract]
  have htenant : (attributedRow rt .conflicted newMemory conflicts.list newMemory).tenantId =
      newMemory.tenantId := (attributedRow_frame _ newMemory).2
  simp only [htenant, hset, or_false]

theorem undo_no_edge_iff (hagrees : input.Agrees) (hnew : newMemory ∈ store.rows)
    (hset : newMemory.tenantId ≠ "")
    (hlive : ∀ c ∈ conflicts.list, liveStatus c.status = true ∧ c.deleted = false)
    (hrows : marked.rows =
      store.rows.map (attributedRow rt .conflicted newMemory conflicts.list))
    (hedge : newMemory.supersedesId = none) :
    Restored store (retractFor input marked newMemory.id) ↔
      UndoCondition rt store newMemory conflicts.list := by
  have hretract := retractFor_marked_rows hagrees hnew hset hrows
  have htriggerEdge : (attributedRow rt .conflicted newMemory conflicts.list newMemory).supersedesId =
      firstOlder rt newMemory conflicts.list := by
    rw [attributedRow_trigger, hedge]
    rfl
  cases hfind : conflicts.list.find? (isOlder rt newMemory) with
  | none =>
    have hfirst : firstOlder rt newMemory conflicts.list = none := by
      rw [firstOlder, hfind]
      rfl
    have htarget : conflictedTarget marked
        (attributedRow rt .conflicted newMemory conflicts.list newMemory) = none := by
      rw [conflictedTarget, htriggerEdge, hfirst]
      rfl
    rw [htarget] at hretract
    rw [undo_idle_iff hnew (fun c hc => (hlive c hc).1) hrows hretract, UndoCondition, hedge]
    have hnone := firstOlder_eq_none.mp hfirst
    refine ⟨fun h => ⟨h.2, fun o ho hold => ?_⟩, fun h => ⟨hnone, h.1⟩⟩
    rw [hnone o ho] at hold
    cases hold
  | some o =>
    have ho := List.mem_of_find?_eq_some hfind
    have hold : isOlder rt newMemory o = true := List.find?_some hfind
    have hfirst : firstOlder rt newMemory conflicts.list = some o.id := by
      rw [firstOlder, hfind]
      rfl
    have htarget : conflictedTarget marked
        (attributedRow rt .conflicted newMemory conflicts.list newMemory) =
          some (attributedRow rt .conflicted newMemory conflicts.list o) := by
      rw [conflictedTarget_eq_some (htriggerEdge.trans hfirst),
        Store.get_rewritten (attributedRow_id _ _) hrows, Store.get_of_mem (conflicts.stored o ho)]
      refine ⟨rfl, ?_, ?_⟩
      · rw [(attributedRow_frame _ o).1]
        exact (hlive o ho).2
      · rw [attributedRow_older ho (conflicts.ne o ho) hold]
    have htenant : (attributedRow rt .conflicted newMemory conflicts.list o).tenantId ≠ "" := by
      rw [(attributedRow_frame _ o).2, conflicts.tenant o ho]
      exact hset
    rw [htarget] at hretract
    simp only [htenant, if_false, hrows, List.map_map] at hretract
    have hf : ∀ m, (undoneRow rt newMemory conflicts.list o m).id = m.id := fun m => by
      rw [undoneRow, retractedRow_id, attributedRow_id]
    rw [restored_iff hf hretract]
    exact undo_first_older_iff hnew (fun c hc => (hlive c hc).1) hedge ho hold hfirst

theorem undo_edge_iff (hagrees : input.Agrees) (hnew : newMemory ∈ store.rows)
    (hset : newMemory.tenantId ≠ "")
    (hlive : ∀ c ∈ conflicts.list, liveStatus c.status = true)
    (hrows : marked.rows =
      store.rows.map (attributedRow rt .conflicted newMemory conflicts.list))
    {s : Uuid} (hedge : newMemory.supersedesId = some s) :
    Restored store (retractFor input marked newMemory.id) ↔
      UndoCondition rt store newMemory conflicts.list := by
  have hretract := retractFor_marked_rows hagrees hnew hset hrows
  have htriggerEdge : (attributedRow rt .conflicted newMemory conflicts.list newMemory).supersedesId =
      some s := by
    rw [attributedRow_trigger, hedge]
    rfl
  have hmarked : ∀ r, store.get s = some r →
      marked.get s = some (attributedRow rt .conflicted newMemory conflicts.list r) := by
    intro r hr
    rw [Store.get_rewritten (attributedRow_id _ _) hrows, hr]
    rfl
  have hcond : UndoCondition rt store newMemory conflicts.list ↔
      ((∀ c ∈ conflicts.list, isOlder rt newMemory c = false) ∧
        NewerKept rt newMemory conflicts.list) ∧
      ∀ r, store.get s = some r → r.deleted = true ∨ r.status ≠ .conflicted ∨ r.tenantId = "" := by
    rw [UndoCondition, hedge]
    tauto
  -- a run that changes nothing leaves the status of the row behind the edge
  have hstatus : (∀ c ∈ conflicts.list, isOlder rt newMemory c = false) ∧
      NewerKept rt newMemory conflicts.list → ∀ r, store.get s = some r →
        (attributedRow rt .conflicted newMemory conflicts.list r).status = r.status := by
    intro hnothing r hr
    have hsame := (marks_nothing_iff hnew conflicts.stored conflicts.ne hlive).mpr hnothing r
      (Store.mem_of_get hr)
    rw [Changed, not_or, not_not] at hsame
    exact hsame.1
  by_cases hfires : ∃ target, conflictedTarget marked
      (attributedRow rt .conflicted newMemory conflicts.list newMemory) = some target ∧
        target.tenantId ≠ ""
  · obtain ⟨target, htarget, htenant⟩ := hfires
    obtain ⟨hget, hdeleted, hconflicted⟩ := (conflictedTarget_eq_some htriggerEdge).mp htarget
    refine iff_of_false (fun hrestored => ?_) fun hundo => ?_
    · rw [htarget] at hretract
      simp only [htenant, if_false, hrows, List.map_map] at hretract
      have hid : target.id = s := by simpa using List.find?_some hget
      -- the trigger has lost its edge
      refine hrestored newMemory hnew (retractedRow
        (attributedRow rt .conflicted newMemory conflicts.list newMemory) target
        (attributedRow rt .conflicted newMemory conflicts.list newMemory)) ?_ ?_ (.inr ?_)
      · rw [hretract]
        exact List.mem_map_of_mem hnew
      · rw [retractedRow_id, attributedRow_id]
      · rw [retractedRow_trigger (by rw [htriggerEdge, hid]), withoutEdge, hedge]
        simp
    · obtain ⟨hnothing, hback⟩ := hcond.mp hundo
      rw [Store.get_rewritten (attributedRow_id _ _) hrows] at hget
      obtain ⟨r, hr, rfl⟩ := Option.map_eq_some_iff.mp hget
      rw [(attributedRow_frame _ r).1] at hdeleted
      rw [(attributedRow_frame _ r).2] at htenant
      rw [hstatus hnothing r hr] at hconflicted
      rcases hback r hr with h | h | h
      · rw [hdeleted] at h
        cases h
      · exact h hconflicted
      · exact htenant h
  · have hidle : (retractFor input marked newMemory.id).rows = marked.rows := by
      rw [hretract]
      split
      · next target htarget =>
        refine if_pos ?_
        by_contra htenant
        exact hfires ⟨target, htarget, htenant⟩
      · rfl
    rw [undo_idle_iff hnew hlive hrows hidle, hcond]
    refine ⟨fun hnothing => ⟨hnothing, fun r hr => ?_⟩, And.left⟩
    by_contra hback
    rw [not_or, not_or, not_not] at hback
    refine hfires ⟨_, (conflictedTarget_eq_some htriggerEdge).mpr ⟨hmarked r hr, ?_, ?_⟩, ?_⟩
    · rw [(attributedRow_frame _ r).1]
      simpa using hback.1
    · rw [hstatus hnothing r hr]
      exact hback.2.1
    · rw [(attributedRow_frame _ r).2]
      exact hback.2.2

end

/-- The retraction undoes a run of the semantic loop exactly when the run wrote nothing but
one older candidate and the trigger's edge to it. -/
theorem retraction_undoes_iff {input : RetractionInput} (hagrees : input.Agrees)
    (hnew : newMemory ∈ store.rows) (pathA : PathAInput) :
    Restored store (retractFor input (markConflicts rt pathA store newMemory) newMemory.id) ↔
      newMemory.tenantId = "" ∨
        UndoCondition rt store newMemory (semanticConflicts rt pathA store newMemory).list := by
  by_cases hset : newMemory.tenantId = ""
  · refine iff_of_true ?_ (.inl hset)
    have hmarked : markConflicts rt pathA store newMemory = store := by
      rw [markConflicts, hset]
      exact batchUpdateStatus_empty store _
    have hidle : (retractFor input store newMemory.id).rows = store.rows := by
      rw [retractFor_rows hagrees hnew]
      split
      · exact if_pos (.inr hset)
      · rfl
    rw [hmarked]
    intro m hm m' hm' hid
    rw [hidle] at hm'
    rw [Store.eq_of_id_eq hm' hm hid]
    simp [Changed]
  · simp only [hset, false_or]
    have hrows : (markConflicts rt pathA store newMemory).rows = _ :=
      attributeAll_rows hnew hset (semanticConflicts rt pathA store newMemory)
    cases hedge : newMemory.supersedesId with
    | none => exact undo_no_edge_iff hagrees hnew hset (fun c hc => semanticConflicts_live hc) hrows hedge
    | some s => exact undo_edge_iff hagrees hnew hset (fun c hc => (semanticConflicts_live hc).1) hrows hedge

theorem agreeingJudge_agrees : agreeingJudge.Agrees where
  enabled := rfl
  contexts := ⟨_, rfl, fun _ => List.cons_ne_nil _ _⟩
  verdict := fun _ => ⟨1, rfl, by decide +kernel⟩

def flagging (k : ℕ) : PathAInput := ⟨fun m => m.id = sampleId k, fun _ => .verdict true 1⟩

/-- A newer candidate got an edge and marked the trigger; the trigger has no edge to
follow, so both stay as they are. -/
theorem flipped_run_not_undone :
    ¬ Restored chainedStore (retractFor agreeingJudge
      (markConflicts plainRuntime (flagging 2) chainedStore (sampleMemory 1 none)) (sampleId 1)) := by
  intro hrestored
  refine hrestored (sampleMemory 1 none) (by decide)
    { sampleMemory 1 none with status := .conflicted } (by decide) rfl (.inl ?_)
  decide

/-- One older, active candidate is taken back. -/
theorem retraction_undoes_one_older :
    Restored chainedStore (retractFor agreeingJudge
      (markConflicts plainRuntime (flagging 1) chainedStore (sampleMemory 2 none))
        (sampleMemory 2 none).id) := by
  refine (retraction_undoes_iff agreeingJudge_agrees (by decide) (flagging 1)).mpr (.inr ?_)
  have hlist : (semanticConflicts plainRuntime (flagging 1) chainedStore (sampleMemory 2 none)).list =
      [sampleMemory 1 none] := by decide
  have hold : isOlder plainRuntime (sampleMemory 2 none) (sampleMemory 1 none) = true := by
    decide
  rw [hlist]
  constructor
  · intro c hc hnewer
    rw [List.mem_singleton.mp hc, hold] at hnewer
    cases hnewer
  · intro o ho _
    rw [List.mem_singleton.mp ho]
    exact ⟨rfl, fun o' ho' _ => List.mem_singleton.mp ho'⟩

end Memclaw.Contradiction

import Mathlib.Data.List.Induction
import Mathlib.Data.List.Nodup
import Mathlib.Tactic.Common
import Memclaw.Contradiction.DetectorDefs

/-! What the attribution loops write. The merged, batched row updates of a whole loop
change each stored row in one of three ways: the trigger, an older candidate and a
newer candidate. -/

namespace Memclaw.Contradiction

open Memclaw.Lib

def lookupUpdate (acc : List RowUpdate) (id : Uuid) : Option RowUpdate :=
  acc.find? (·.memoryId = id)

theorem mergeInto_memoryId (row u : RowUpdate) : (row.mergeInto u).memoryId = u.memoryId := by
  unfold RowUpdate.mergeInto
  split_ifs <;> rfl

theorem lookupUpdate_map_mergeInto (acc : List RowUpdate) (row : RowUpdate) (id : Uuid) :
    lookupUpdate (acc.map row.mergeInto) id = (lookupUpdate acc id).map row.mergeInto := by
  rw [lookupUpdate, List.find?_map, lookupUpdate]
  simp only [Function.comp_def, mergeInto_memoryId]

theorem lookupUpdate_memoryId {acc : List RowUpdate} {id : Uuid} {u : RowUpdate}
    (h : lookupUpdate acc id = some u) : u.memoryId = id := by
  simpa using List.find?_some h

theorem lookupUpdate_merge (acc : List RowUpdate) (row : RowUpdate) (id : Uuid) :
    lookupUpdate (mergeStatusUpdate acc row) id =
      if id = row.memoryId then
        some ⟨id, row.status, row.supersedesId <|> (lookupUpdate acc id).bind (·.supersedesId)⟩
      else lookupUpdate acc id := by
  unfold mergeStatusUpdate
  by_cases hany : acc.any (·.memoryId = row.memoryId)
  · rw [if_pos hany, lookupUpdate_map_mergeInto]
    cases hfind : lookupUpdate acc id with
    | none =>
      -- the accumulator has a row for the updated memory, so this is another memory
      have hid : id ≠ row.memoryId := by
        rintro rfl
        rw [lookupUpdate, List.find?_eq_none] at hfind
        obtain ⟨u, hu, heq⟩ := List.any_eq_true.mp hany
        exact hfind u hu heq
      rw [if_neg hid]
      rfl
    | some u =>
      have huid := lookupUpdate_memoryId hfind
      by_cases hid : id = row.memoryId
      · simp [hid, RowUpdate.mergeInto, huid]
      · simp [hid, RowUpdate.mergeInto, huid]
  · rw [if_neg hany, lookupUpdate, List.find?_append]
    by_cases hid : id = row.memoryId
    · have hnone : acc.find? (·.memoryId = row.memoryId) = none := by
        rw [List.find?_eq_none]
        simpa using hany
      subst hid
      simp [lookupUpdate, hnone]
    · have hrow : ¬ row.memoryId = id := fun h => hid h.symm
      simp [lookupUpdate, hid, hrow]

theorem mergeStatusUpdate_nodup {acc : List RowUpdate} (row : RowUpdate)
    (hnodup : (acc.map (·.memoryId)).Nodup) :
    ((mergeStatusUpdate acc row).map (·.memoryId)).Nodup := by
  unfold mergeStatusUpdate
  split_ifs with hany
  · have hkeep : (fun u : RowUpdate => u.memoryId) ∘ row.mergeInto = fun u => u.memoryId :=
      funext (mergeInto_memoryId row)
    rw [List.map_map, hkeep]
    exact hnodup
  · rw [List.map_append, List.nodup_append]
    refine ⟨hnodup, by simp, ?_⟩
    rintro id hid id' hid' rfl
    obtain ⟨u, hu, rfl⟩ := List.mem_map.mp hid
    refine hany (List.any_eq_true.mpr ⟨u, hu, ?_⟩)
    simpa using hid'

theorem batchUpdateStatus_empty (store : Store) (updates : List RowUpdate) :
    store.batchUpdateStatus "" updates = store := if_pos rfl

theorem batchUpdateStatus_rows {updates : List RowUpdate}
    (hnodup : (updates.map (·.memoryId)).Nodup) (store : Store) {tenantId : String}
    (htenant : tenantId ≠ "") :
    (store.batchUpdateStatus tenantId updates).rows = store.rows.map fun m =>
      match lookupUpdate updates m.id with
      | some u => m.updateStatus tenantId u
      | none => m := by
  induction updates generalizing store with
  | nil => simp [Store.batchUpdateStatus, lookupUpdate]
  | cons u updates ih =>
    rw [List.map_cons, List.nodup_cons] at hnodup
    have hstep : store.batchUpdateStatus tenantId (u :: updates) =
        (store.updateStatus tenantId u).batchUpdateStatus tenantId updates := by
      rw [Store.batchUpdateStatus, Store.batchUpdateStatus, if_neg htenant, if_neg htenant]
      rfl
    rw [hstep, ih hnodup.2, Store.updateStatus, Store.map, List.map_map]
    refine List.map_congr_left fun m _ => ?_
    simp only [Function.comp_apply, Memory.updateStatus_id]
    by_cases hm : u.memoryId = m.id
    · have hrest : lookupUpdate updates m.id = none := by
        rw [lookupUpdate, List.find?_eq_none]
        intro v hv heq
        refine hnodup.1 (List.mem_map.mpr ⟨v, hv, ?_⟩)
        rw [hm]
        simpa using heq
      have hhead : lookupUpdate (u :: updates) m.id = some u := by
        simp [lookupUpdate, hm]
      rw [hrest, hhead]
    · have hskip : m.updateStatus tenantId u = m := by
        unfold Memory.updateStatus
        exact if_neg fun h => hm h.1.symm
      have htail : lookupUpdate (u :: updates) m.id = lookupUpdate updates m.id := by
        simp [lookupUpdate, hm]
      rw [hskip, htail]

theorem pickOlder_of_left {rt : Runtime} {a b : Memory} (h : pickOlderIsLeft rt a b = true) :
    pickOlder rt a b = a := if_pos h

theorem pickOlder_of_right {rt : Runtime} {a b : Memory} (h : pickOlderIsLeft rt a b = false) :
    pickOlder rt a b = b := if_neg (by rw [h]; decide)

structure Conflicts (store : Store) (newMemory : Memory) where
  list : List Memory
  stored : ∀ c ∈ list, c ∈ store.rows
  tenant : ∀ c ∈ list, c.tenantId = newMemory.tenantId
  ne : ∀ c ∈ list, c.id ≠ newMemory.id
  nodup : (list.map (·.id)).Nodup

section

variable (rt : Runtime) (mark : Status) (newMemory : Memory)

def isOlder (c : Memory) : Bool := pickOlderIsLeft rt c newMemory

def firstOlder (conflicts : List Memory) : Option Uuid :=
  (conflicts.find? (isOlder rt newMemory)).map (·.id)

def flips (conflicts : List Memory) : Bool := conflicts.any fun c => !isOlder rt newMemory c

def candidateUpdate (c : Memory) : Option RowUpdate :=
  if isOlder rt newMemory c then some ⟨c.id, mark, none⟩
  else if c.supersedesId.isSome then none
  else some ⟨c.id, c.status, some newMemory.id⟩

def triggerUpdate (conflicts : List Memory) : Option RowUpdate :=
  if flips rt newMemory conflicts ∨
      (newMemory.supersedesId = none ∧ firstOlder rt newMemory conflicts ≠ none) then
    some ⟨newMemory.id, if flips rt newMemory conflicts then mark else newMemory.status,
      if newMemory.supersedesId = none then firstOlder rt newMemory conflicts else none⟩
  else none

structure LoopInvariant (conflicts : List Memory) (st : LoopState) : Prop where
  nodup : (st.updates.map (·.memoryId)).Nodup
  flipped : st.newMemoryIsOutdated = flips rt newMemory conflicts
  edge : st.supersedesId = (newMemory.supersedesId <|> firstOlder rt newMemory conflicts)
  trigger : lookupUpdate st.updates newMemory.id = triggerUpdate rt mark newMemory conflicts
  candidate : ∀ id ≠ newMemory.id, lookupUpdate st.updates id =
    (conflicts.find? (·.id = id)).bind (candidateUpdate rt mark newMemory)

variable {rt mark newMemory}

theorem firstOlder_append (conflicts : List Memory) (c : Memory) :
    firstOlder rt newMemory (conflicts ++ [c]) = (firstOlder rt newMemory conflicts <|>
      if isOlder rt newMemory c then some c.id else none) := by
  unfold firstOlder
  rw [List.find?_append]
  cases conflicts.find? (isOlder rt newMemory) with
  | some d => rfl
  | none => cases h : isOlder rt newMemory c <;> simp [h]

theorem flips_append (conflicts : List Memory) (c : Memory) :
    flips rt newMemory (conflicts ++ [c]) =
      (flips rt newMemory conflicts || !isOlder rt newMemory c) := by
  simp [flips]

theorem find?_fresh {conflicts : List Memory} {c : Memory}
    (hfresh : c.id ∉ conflicts.map (·.id)) : conflicts.find? (·.id = c.id) = none := by
  rw [List.find?_eq_none]
  intro d hd heq
  exact hfresh (List.mem_map.mpr ⟨d, hd, by simpa using heq⟩)

theorem find?_bind_append {conflicts : List Memory} {c : Memory}
    (hfresh : c.id ∉ conflicts.map (·.id)) (f : Memory → Option RowUpdate) (id : Uuid) :
    ((conflicts ++ [c]).find? (·.id = id)).bind f =
      if id = c.id then f c else (conflicts.find? (·.id = id)).bind f := by
  rw [List.find?_append]
  by_cases hid : id = c.id
  · simp [hid, find?_fresh hfresh]
  · have hid' : ¬ c.id = id := fun h => hid h.symm
    simp [hid, hid']

theorem triggerUpdate_edge (conflicts : List Memory) :
    (triggerUpdate rt mark newMemory conflicts).bind (·.supersedesId) =
      if newMemory.supersedesId = none then firstOlder rt newMemory conflicts else none := by
  unfold triggerUpdate
  by_cases hwrite : flips rt newMemory conflicts ∨
      (newMemory.supersedesId = none ∧ firstOlder rt newMemory conflicts ≠ none)
  · rw [if_pos hwrite]
    rfl
  · rw [if_neg hwrite]
    rw [not_or, not_and, not_not] at hwrite
    split_ifs with hsup
    · rw [hwrite.2 hsup]
      rfl
    · rfl

theorem loopInvariant_older {conflicts : List Memory} {st : LoopState}
    (hinv : LoopInvariant rt mark newMemory conflicts st) {c : Memory} (hne : c.id ≠ newMemory.id)
    (hfresh : c.id ∉ conflicts.map (·.id)) (hold : isOlder rt newMemory c = true) :
    LoopInvariant rt mark newMemory (conflicts ++ [c]) (attributeConflict rt mark newMemory st c) := by
  obtain ⟨hnodup, hflipped, hedge, htrigger, hcandidate⟩ := hinv
  have holder : pickOlder rt c newMemory = c := pickOlder_of_left hold
  have hne' : newMemory.id ≠ c.id := fun h => hne h.symm
  have hflips : flips rt newMemory (conflicts ++ [c]) = flips rt newMemory conflicts := by
    simp [flips_append, hold]
  have hfirst : firstOlder rt newMemory (conflicts ++ [c]) =
      (firstOlder rt newMemory conflicts <|> some c.id) := by
    rw [firstOlder_append, hold]
    rfl
  have hown : candidateUpdate rt mark newMemory c = some ⟨c.id, mark, none⟩ := by
    rw [candidateUpdate, hold]
    rfl
  have hlookup : ∀ id ≠ newMemory.id,
      lookupUpdate (mergeStatusUpdate st.updates ⟨c.id, mark, none⟩) id =
        ((conflicts ++ [c]).find? (·.id = id)).bind (candidateUpdate rt mark newMemory) := by
    intro id hid
    rw [lookupUpdate_merge, find?_bind_append hfresh, hown, hcandidate id hid]
    split_ifs with heq
    · rw [heq, find?_fresh hfresh]
      rfl
    · rfl
  unfold attributeConflict
  simp only [holder]
  rw [if_pos hne]
  by_cases hsup : st.supersedesId = none
  · -- the trigger gets its edge
    have hboth : newMemory.supersedesId = none ∧ firstOlder rt newMemory conflicts = none := by
      rw [hedge] at hsup
      cases hs : newMemory.supersedesId <;> simp_all
    rw [if_pos (by simp [hsup])]
    refine ⟨mergeStatusUpdate_nodup _ (mergeStatusUpdate_nodup _ hnodup), ?_, ?_, ?_, ?_⟩
    · rw [hflips]
      exact hflipped
    · rw [hfirst, hboth.1, hboth.2]
      rfl
    · rw [lookupUpdate_merge, if_pos rfl, triggerUpdate, hflips, hfirst, hboth.1, hboth.2, hflipped]
      simp
    · intro id hid
      rw [lookupUpdate_merge, if_neg hid]
      exact hlookup id hid
  · rw [if_neg (by simpa using hsup)]
    have hsame : triggerUpdate rt mark newMemory (conflicts ++ [c]) =
        triggerUpdate rt mark newMemory conflicts := by
      unfold triggerUpdate
      rw [hflips, hfirst]
      cases hs : newMemory.supersedesId with
      | some s => simp
      | none =>
        -- the edge is set, so an older candidate came before
        cases hf : firstOlder rt newMemory conflicts with
        | some d => simp
        | none => simp [hedge, hs, hf] at hsup
    refine ⟨mergeStatusUpdate_nodup _ hnodup, ?_, ?_, ?_, hlookup⟩
    · rw [hflips]
      exact hflipped
    · rw [hfirst, hedge]
      cases hs : newMemory.supersedesId with
      | some s => rfl
      | none =>
        cases hf : firstOlder rt newMemory conflicts with
        | some d => rfl
        | none => simp [hedge, hs, hf] at hsup
    · rw [lookupUpdate_merge, if_neg hne', hsame]
      exact htrigger

theorem loopInvariant_newer {conflicts : List Memory} {st : LoopState}
    (hinv : LoopInvariant rt mark newMemory conflicts st) {c : Memory} (hne : c.id ≠ newMemory.id)
    (hfresh : c.id ∉ conflicts.map (·.id)) (hnew : isOlder rt newMemory c = false) :
    LoopInvariant rt mark newMemory (conflicts ++ [c]) (attributeConflict rt mark newMemory st c) := by
  obtain ⟨hnodup, hflipped, hedge, htrigger, hcandidate⟩ := hinv
  have holder : pickOlder rt c newMemory = newMemory := pickOlder_of_right hnew
  have hne' : newMemory.id ≠ c.id := fun h => hne h.symm
  have hflips : flips rt newMemory (conflicts ++ [c]) = true := by simp [flips_append, hnew]
  have hfirst : firstOlder rt newMemory (conflicts ++ [c]) = firstOlder rt newMemory conflicts := by
    rw [firstOlder_append, hnew]
    cases firstOlder rt newMemory conflicts <;> rfl
  -- the trigger's own row is marked and keeps the edge it has in the accumulator
  have htrigger' : lookupUpdate (mergeStatusUpdate st.updates ⟨newMemory.id, mark, none⟩)
      newMemory.id = triggerUpdate rt mark newMemory (conflicts ++ [c]) := by
    rw [lookupUpdate_merge, if_pos rfl, htrigger, triggerUpdate_edge, triggerUpdate, hflips, hfirst]
    simp
  unfold attributeConflict
  simp only [holder]
  rw [if_neg (by simp)]
  by_cases hsup : c.supersedesId.isSome
  · rw [if_pos hsup]
    refine ⟨mergeStatusUpdate_nodup _ hnodup, hflips.symm, by rw [hfirst]; exact hedge, htrigger', ?_⟩
    intro id hid
    rw [lookupUpdate_merge, if_neg hid, hcandidate id hid, find?_bind_append hfresh]
    split_ifs with heq
    · rw [heq, find?_fresh hfresh, candidateUpdate, hnew, hsup]
      rfl
    · rfl
  · rw [if_neg hsup]
    refine ⟨mergeStatusUpdate_nodup _ (mergeStatusUpdate_nodup _ hnodup), hflips.symm,
      by rw [hfirst]; exact hedge, ?_, ?_⟩
    · rw [lookupUpdate_merge, if_neg hne']
      exact htrigger'
    · intro id hid
      rw [lookupUpdate_merge, lookupUpdate_merge, if_neg hid, hcandidate id hid,
        find?_bind_append hfresh]
      split_ifs with heq
      · rw [heq, candidateUpdate, hnew]
        simp [hsup]
      · rfl

theorem loopInvariant_attributeAll (conflicts : List Memory)
    (hne : ∀ c ∈ conflicts, c.id ≠ newMemory.id) (hnodup : (conflicts.map (·.id)).Nodup) :
    LoopInvariant rt mark newMemory conflicts
      (conflicts.foldl (attributeConflict rt mark newMemory) ⟨newMemory.supersedesId, false, []⟩) := by
  induction conflicts using List.reverseRecOn with
  | nil =>
    refine ⟨List.nodup_nil, rfl, ?_, ?_, fun id hid => rfl⟩
    · cases newMemory.supersedesId <;> rfl
    · simp [lookupUpdate, triggerUpdate, flips, firstOlder]
  | append_singleton conflicts c ih =>
    rw [List.map_append, List.nodup_append] at hnodup
    have hfresh : c.id ∉ conflicts.map (·.id) := fun hmem =>
      hnodup.2.2 c.id hmem c.id (by simp) rfl
    have hinv := ih (fun d hd => hne d (List.mem_append_left _ hd)) hnodup.1
    rw [List.foldl_append, List.foldl_cons, List.foldl_nil]
    cases hold : isOlder rt newMemory c with
    | true => exact loopInvariant_older hinv (hne c (by simp)) hfresh hold
    | false => exact loopInvariant_newer hinv (hne c (by simp)) hfresh hold

def headEdge (rt : Runtime) (newMemory : Memory) (conflicts : List Memory) : Option Uuid :=
  match conflicts with
  | [] => none
  | c :: _ => if isOlder rt newMemory c then some c.id else none

def triggerUpdateByEntities (rt : Runtime) (newMemory : Memory) (conflicts : List Memory) :
    Option RowUpdate :=
  if conflicts = [] ∨ (headEdge rt newMemory conflicts = none ∧ ¬ flips rt newMemory conflicts) then
    none
  else
    some ⟨newMemory.id, if flips rt newMemory conflicts then .conflicted else newMemory.status,
      headEdge rt newMemory conflicts⟩

def candidateUpdateByEntities (rt : Runtime) (newMemory : Memory) (first : Bool) (c : Memory) :
    Option RowUpdate :=
  if isOlder rt newMemory c then some ⟨c.id, .conflicted, none⟩
  else if !first || c.supersedesId.isSome then none
  else some ⟨c.id, c.status, some newMemory.id⟩

def isFirst (conflicts : List Memory) (c : Memory) : Bool := conflicts.head?.any (·.id = c.id)

structure PathCInvariant (rt : Runtime) (newMemory : Memory) (conflicts : List Memory)
    (st : PathCState) : Prop where
  nodup : (st.updates.map (·.memoryId)).Nodup
  found : st.found = decide (conflicts ≠ [])
  flipped : conflicts = [] → st.newMemoryIsOutdated = false
  trigger : lookupUpdate st.updates newMemory.id =
    triggerUpdateByEntities rt newMemory conflicts
  candidate : ∀ id ≠ newMemory.id, lookupUpdate st.updates id =
    (conflicts.find? (·.id = id)).bind fun c =>
      candidateUpdateByEntities rt newMemory (isFirst conflicts c) c

theorem pathCInvariant_first {c : Memory} (hne : c.id ≠ newMemory.id) :
    PathCInvariant rt newMemory [c] (attributeByEntities rt newMemory ⟨false, false, []⟩ c) := by
  have hne' : newMemory.id ≠ c.id := fun h => hne h.symm
  have hfirst : isFirst [c] c = true := by simp [isFirst]
  have hnil : (([] : List RowUpdate).map (·.memoryId)).Nodup := List.nodup_nil
  cases hold : isOlder rt newMemory c with
  | true =>
    have holder : pickOlder rt c newMemory = c := pickOlder_of_left hold
    unfold attributeByEntities
    simp only [holder, Bool.false_eq_true, if_false, ne_eq, hne, not_false_eq_true, if_true]
    refine ⟨mergeStatusUpdate_nodup _ (mergeStatusUpdate_nodup _ hnil), rfl, by simp, ?_, ?_⟩
    · rw [lookupUpdate_merge, if_pos rfl, lookupUpdate_merge, if_neg hne']
      simp [triggerUpdateByEntities, headEdge, flips, hold]
    · intro id hid
      rw [lookupUpdate_merge, if_neg hid, lookupUpdate_merge]
      by_cases heq : id = c.id
      · simp [heq, candidateUpdateByEntities, hold, lookupUpdate]
      · have heq' : ¬ c.id = id := fun h => heq h.symm
        simp [heq, heq', lookupUpdate]
  | false =>
    have holder : pickOlder rt c newMemory = newMemory := pickOlder_of_right hold
    unfold attributeByEntities
    simp only [holder, Bool.false_eq_true, if_false, ne_eq, not_true_eq_false]
    have hown : lookupUpdate (mergeStatusUpdate [] ⟨newMemory.id, .conflicted, none⟩)
        newMemory.id = triggerUpdateByEntities rt newMemory [c] := by
      rw [lookupUpdate_merge, if_pos rfl]
      simp [triggerUpdateByEntities, headEdge, flips, hold, lookupUpdate]
    by_cases hsup : c.supersedesId.isSome
    · rw [if_pos hsup]
      refine ⟨mergeStatusUpdate_nodup _ hnil, rfl, by simp, hown, ?_⟩
      intro id hid
      rw [lookupUpdate_merge, if_neg hid]
      by_cases heq : c.id = id
      · simp [heq, candidateUpdateByEntities, hold, hsup, lookupUpdate]
      · simp [heq, lookupUpdate]
    · rw [if_neg hsup]
      refine ⟨mergeStatusUpdate_nodup _ (mergeStatusUpdate_nodup _ hnil), rfl, by simp,
        ?_, ?_⟩
      · rw [lookupUpdate_merge, if_neg hne']
        exact hown
      · intro id hid
        rw [lookupUpdate_merge, lookupUpdate_merge, if_neg hid]
        by_cases heq : id = c.id
        · simp [heq, candidateUpdateByEntities, hold, hsup, hfirst, lookupUpdate]
        · have heq' : ¬ c.id = id := fun h => heq h.symm
          simp [heq, heq', lookupUpdate]

theorem isFirst_append {conflicts : List Memory} (hne : conflicts ≠ []) (c d : Memory) :
    isFirst (conflicts ++ [c]) d = isFirst conflicts d := by
  obtain ⟨e, rest, rfl⟩ := List.exists_cons_of_ne_nil hne
  rfl

theorem headEdge_append {conflicts : List Memory} (hne : conflicts ≠ []) (c : Memory) :
    headEdge rt newMemory (conflicts ++ [c]) = headEdge rt newMemory conflicts := by
  obtain ⟨e, rest, rfl⟩ := List.exists_cons_of_ne_nil hne
  rfl

theorem isFirst_fresh {conflicts : List Memory} {c : Memory}
    (hfresh : c.id ∉ conflicts.map (·.id)) : isFirst conflicts c = false := by
  cases conflicts with
  | nil => rfl
  | cons d rest =>
    have hd : ¬ d.id = c.id := fun h => hfresh (by simp [h])
    simp [isFirst, hd]

theorem pathCInvariant_later {conflicts : List Memory} {st : PathCState}
    (hinv : PathCInvariant rt newMemory conflicts st) (hnil : conflicts ≠ []) {c : Memory}
    (hne : c.id ≠ newMemory.id) (hfresh : c.id ∉ conflicts.map (·.id)) :
    PathCInvariant rt newMemory (conflicts ++ [c]) (attributeByEntities rt newMemory st c) := by
  obtain ⟨hnodup, hfound, -, htrigger, hcandidate⟩ := hinv
  have hne' : newMemory.id ≠ c.id := fun h => hne h.symm
  have hfound' : st.found = true := by simp [hfound, hnil]
  have hnotFirst : isFirst (conflicts ++ [c]) c = false := by
    rw [isFirst_append hnil, isFirst_fresh hfresh]
  have hsplit : ∀ id, ((conflicts ++ [c]).find? (·.id = id)).bind (fun d =>
      candidateUpdateByEntities rt newMemory (isFirst (conflicts ++ [c]) d) d) =
      if id = c.id then candidateUpdateByEntities rt newMemory false c
      else (conflicts.find? (·.id = id)).bind fun d =>
        candidateUpdateByEntities rt newMemory (isFirst conflicts d) d := by
    intro id
    rw [find?_bind_append hfresh, hnotFirst]
    simp only [isFirst_append hnil]
  cases hold : isOlder rt newMemory c with
  | true =>
    have holder : pickOlder rt c newMemory = c := pickOlder_of_left hold
    have hsame : triggerUpdateByEntities rt newMemory (conflicts ++ [c]) =
        triggerUpdateByEntities rt newMemory conflicts := by
      simp [triggerUpdateByEntities, headEdge_append hnil, flips_append, hold, hnil]
    unfold attributeByEntities
    rw [holder, if_pos hfound']
    refine ⟨mergeStatusUpdate_nodup _ hnodup, by simp [hfound'], by simp, ?_, ?_⟩
    · rw [lookupUpdate_merge, if_neg hne', hsame]
      exact htrigger
    · intro id hid
      rw [lookupUpdate_merge, hsplit id, hcandidate id hid]
      split_ifs with heq
      · rw [heq, find?_fresh hfresh, candidateUpdateByEntities, hold]
        rfl
      · rfl
  | false =>
    have holder : pickOlder rt c newMemory = newMemory := pickOlder_of_right hold
    unfold attributeByEntities
    rw [holder, if_pos hfound']
    refine ⟨mergeStatusUpdate_nodup _ hnodup, by simp [hfound'], by simp, ?_, ?_⟩
    · -- the edge in the accumulator stays
      have hedge : (triggerUpdateByEntities rt newMemory conflicts).bind (·.supersedesId) =
          headEdge rt newMemory conflicts := by
        unfold triggerUpdateByEntities
        split_ifs with hnone
        · rw [(hnone.resolve_left hnil).1]
          rfl
        · rfl
        · rfl
      rw [lookupUpdate_merge, if_pos rfl, htrigger, hedge]
      simp [triggerUpdateByEntities, headEdge_append hnil, flips_append, hold]
    · intro id hid
      rw [lookupUpdate_merge, if_neg hid, hsplit id, hcandidate id hid]
      split_ifs with heq
      · rw [heq, find?_fresh hfresh, candidateUpdateByEntities, hold]
        rfl
      · rfl

theorem pathCInvariant_attributeAll (conflicts : List Memory)
    (hne : ∀ c ∈ conflicts, c.id ≠ newMemory.id) (hnodup : (conflicts.map (·.id)).Nodup) :
    PathCInvariant rt newMemory conflicts
      (conflicts.foldl (attributeByEntities rt newMemory) ⟨false, false, []⟩) := by
  induction conflicts using List.reverseRecOn with
  | nil => exact ⟨List.nodup_nil, rfl, fun _ => rfl, rfl, fun id hid => rfl⟩
  | append_singleton conflicts c ih =>
    rw [List.map_append, List.nodup_append] at hnodup
    have hfresh : c.id ∉ conflicts.map (·.id) := fun hmem =>
      hnodup.2.2 c.id hmem c.id (by simp) rfl
    have hinv := ih (fun d hd => hne d (List.mem_append_left _ hd)) hnodup.1
    rw [List.foldl_append, List.foldl_cons, List.foldl_nil]
    by_cases hnil : conflicts = []
    · subst hnil
      exact pathCInvariant_first (hne c (by simp))
    · exact pathCInvariant_later hinv hnil (hne c (by simp)) hfresh

end

section

variable (rt : Runtime) (mark : Status) (newMemory : Memory)

def attributedRow (conflicts : List Memory) (m : Memory) : Memory :=
  if m.id = newMemory.id then
    { m with
      status := if flips rt newMemory conflicts then mark else m.status
      supersedesId := m.supersedesId <|> firstOlder rt newMemory conflicts }
  else if m ∈ conflicts then
    if isOlder rt newMemory m then { m with status := mark }
    else { m with supersedesId := m.supersedesId <|> some newMemory.id }
  else m

def attributedRowByEntities (conflicts : List Memory) (m : Memory) : Memory :=
  if m.id = newMemory.id then
    { m with
      status := if flips rt newMemory conflicts then .conflicted else m.status
      supersedesId := headEdge rt newMemory conflicts <|> m.supersedesId }
  else if m ∈ conflicts then
    if isOlder rt newMemory m then { m with status := .conflicted }
    else if isFirst conflicts m then { m with supersedesId := m.supersedesId <|> some newMemory.id }
    else m
  else m

variable {rt mark newMemory} {store : Store}

theorem Store.eq_of_id_eq {a b : Memory} (ha : a ∈ store.rows) (hb : b ∈ store.rows)
    (h : a.id = b.id) : a = b :=
  List.inj_on_of_nodup_map store.nodup ha hb h

theorem Store.mem_of_get {id : Uuid} {m : Memory} (h : store.get id = some m) : m ∈ store.rows :=
  List.mem_of_find?_eq_some h

theorem Store.get_of_mem {m : Memory} (hm : m ∈ store.rows) : store.get m.id = some m := by
  cases hfind : store.get m.id with
  | none =>
    unfold Store.get at hfind
    rw [List.find?_eq_none] at hfind
    exact absurd (by simp) (hfind m hm)
  | some m' =>
    have hid : m'.id = m.id := by simpa using List.find?_some hfind
    rw [Store.eq_of_id_eq (Store.mem_of_get hfind) hm hid]

theorem Store.get_rewritten {store' : Store} {f : Memory → Memory} (hf : ∀ m, (f m).id = m.id)
    (hrows : store'.rows = store.rows.map f) (id : Uuid) : store'.get id = (store.get id).map f := by
  unfold Store.get
  rw [hrows, List.find?_map]
  simp only [Function.comp_def, hf]

theorem Conflicts.find?_eq (conflicts : Conflicts store newMemory) {m : Memory}
    (hm : m ∈ store.rows) :
    conflicts.list.find? (·.id = m.id) = if m ∈ conflicts.list then some m else none := by
  split_ifs with hmem
  · cases hfind : conflicts.list.find? (·.id = m.id) with
    | none =>
      rw [List.find?_eq_none] at hfind
      exact absurd (by simp) (hfind m hmem)
    | some c =>
      have hid : c.id = m.id := by simpa using List.find?_some hfind
      rw [Store.eq_of_id_eq (conflicts.stored c (List.mem_of_find?_eq_some hfind)) hm hid]
  · rw [List.find?_eq_none]
    intro c hc hid
    have heq := Store.eq_of_id_eq (conflicts.stored c hc) hm (by simpa using hid)
    exact hmem (heq ▸ hc)

theorem updateStatus_own {m : Memory} {id : Uuid} (hid : m.id = id)
    (htenant : m.tenantId = newMemory.tenantId) (status : Status) (edge : Option Uuid) :
    m.updateStatus newMemory.tenantId ⟨id, status, edge⟩ =
      { m with status := status, supersedesId := edge <|> m.supersedesId } :=
  if_pos ⟨hid, htenant⟩

theorem with_edge_eq {m : Memory} {edge : Option Uuid} (h : edge = m.supersedesId) :
    { m with supersedesId := edge } = m := by
  subst h
  rfl

theorem attributeAll_rows (hnew : newMemory ∈ store.rows) (hset : newMemory.tenantId ≠ "")
    (conflicts : Conflicts store newMemory) :
    (store.batchUpdateStatus newMemory.tenantId
      (attributeAll rt mark newMemory conflicts.list)).rows =
        store.rows.map (attributedRow rt mark newMemory conflicts.list) := by
  have hinv : LoopInvariant rt mark newMemory conflicts.list _ :=
    loopInvariant_attributeAll conflicts.list conflicts.ne conflicts.nodup
  rw [attributeAll, batchUpdateStatus_rows hinv.nodup store hset]
  refine List.map_congr_left fun m hm => ?_
  unfold attributedRow
  by_cases hid : m.id = newMemory.id
  · obtain rfl := Store.eq_of_id_eq hm hnew hid
    rw [if_pos rfl, hinv.trigger, triggerUpdate]
    by_cases hwrite : flips rt m conflicts.list ∨
        (m.supersedesId = none ∧ firstOlder rt m conflicts.list ≠ none)
    · rw [if_pos hwrite]
      simp only [updateStatus_own rfl rfl]
      cases hsup : m.supersedesId with
      | none => cases firstOlder rt m conflicts.list <;> rfl
      | some s => rfl
    · rw [if_neg hwrite]
      rw [not_or, not_and, not_not] at hwrite
      simp only [hwrite.1, Bool.false_eq_true, if_false]
      refine (with_edge_eq ?_).symm
      cases hsup : m.supersedesId with
      | none => exact hwrite.2 hsup
      | some s => rfl
  · rw [if_neg hid, hinv.candidate m.id hid, conflicts.find?_eq hm]
    by_cases hmem : m ∈ conflicts.list
    · have htenant := conflicts.tenant m hmem
      rw [if_pos hmem, if_pos hmem, Option.bind_some, candidateUpdate]
      split_ifs with hold hsup
      · simp only [updateStatus_own rfl htenant]
        rfl
      · obtain ⟨s, hs⟩ := Option.isSome_iff_exists.mp hsup
        exact (with_edge_eq (by rw [hs]; rfl)).symm
      · rw [Option.isSome_iff_ne_none, ne_eq, not_not] at hsup
        simp only [updateStatus_own rfl htenant, hsup]
        rfl
    · rw [if_neg hmem, if_neg hmem]
      rfl

theorem attributeAllByEntities_rows (hnew : newMemory ∈ store.rows)
    (hset : newMemory.tenantId ≠ "") (conflicts : Conflicts store newMemory) :
    (store.batchUpdateStatus newMemory.tenantId
      (attributeAllByEntities rt newMemory conflicts.list)).rows =
        store.rows.map (attributedRowByEntities rt newMemory conflicts.list) := by
  have hinv : PathCInvariant rt newMemory conflicts.list _ :=
    pathCInvariant_attributeAll conflicts.list conflicts.ne conflicts.nodup
  rw [attributeAllByEntities, batchUpdateStatus_rows hinv.nodup store hset]
  refine List.map_congr_left fun m hm => ?_
  unfold attributedRowByEntities
  by_cases hid : m.id = newMemory.id
  · obtain rfl := Store.eq_of_id_eq hm hnew hid
    rw [if_pos rfl, hinv.trigger, triggerUpdateByEntities]
    by_cases hskip : conflicts.list = [] ∨
        (headEdge rt m conflicts.list = none ∧ ¬ flips rt m conflicts.list)
    · have hnone : headEdge rt m conflicts.list = none ∧ flips rt m conflicts.list = false := by
        rcases hskip with hnil | ⟨hhead, hflips⟩
        · rw [hnil]
          exact ⟨rfl, rfl⟩
        · exact ⟨hhead, by simpa using hflips⟩
      rw [if_pos hskip, hnone.1, hnone.2]
      exact (with_edge_eq (by cases m.supersedesId <;> rfl)).symm
    · rw [if_neg hskip]
      simp only [updateStatus_own rfl rfl]
  · rw [if_neg hid, hinv.candidate m.id hid, conflicts.find?_eq hm]
    by_cases hmem : m ∈ conflicts.list
    · have htenant := conflicts.tenant m hmem
      rw [if_pos hmem, if_pos hmem, Option.bind_some, candidateUpdateByEntities]
      by_cases hold : isOlder rt newMemory m
      · rw [if_pos hold, if_pos hold]
        simp only [updateStatus_own rfl htenant]
        rfl
      · rw [if_neg hold, if_neg hold]
        cases hfirst : isFirst conflicts.list m with
        | false => rfl
        | true =>
          by_cases hsup : m.supersedesId.isSome
          · obtain ⟨s, hs⟩ := Option.isSome_iff_exists.mp hsup
            have hkeep : { m with supersedesId := m.supersedesId <|> some newMemory.id } = m :=
              with_edge_eq (by rw [hs]; rfl)
            rw [if_pos rfl, hkeep, if_pos (by simp [hsup])]
          · rw [if_neg (by simpa using hsup)]
            rw [Option.isSome_iff_ne_none, ne_eq, not_not] at hsup
            simp only [updateStatus_own rfl htenant, hsup, if_true]
            rfl
    · rw [if_neg hmem, if_neg hmem]
      rfl

end

end Memclaw.Contradiction

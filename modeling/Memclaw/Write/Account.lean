import Mathlib.Data.List.Basic
import Memclaw.Write.Bulk
import Memclaw.Write.ServiceDefs

/-! The loops of `create_memories_bulk` with the slots and the counters that they write: the
classification of the items, the mapping of the storage results, and the back-fill of repeated
contents. After all loops each slot holds what its item comes to, and each counter the number of the
slots of its kind. -/

namespace Memclaw.Write

structure BulkState where
  results : List (Option BulkItemResult)
  pending : List (ℕ × NewRow)
  seenHashes : List (String × ℕ)
  createdCount : ℤ
  dupCount : ℤ
  errorCount : ℤ

namespace BulkState

def start (n : ℕ) : BulkState := ⟨List.replicate n none, [], [], 0, 0, 0⟩

def put (st : BulkState) (i : ℕ) (result : BulkItemResult) : BulkState :=
  { st with results := st.results.set i (some result) }

def firstSeen (st : BulkState) (hash : String) : Option ℕ :=
  (st.seenHashes.find? (·.1 = hash)).map (·.2)

def classify (req : BulkRequest) (bulkAttemptId : String) (existing : List (String × Existing))
    (st : BulkState) (entry : Screened × ℕ) : BulkState :=
  let i := entry.2
  let requestId := itemRequestId bulkAttemptId i
  match entry.1 with
  | .short =>
    { st.put i ⟨i, requestId, .error, none, none,
        some "content too short (minimum 10 characters)"⟩ with
      errorCount := st.errorCount + 1 }
  | .dropped =>
    { st.put i ⟨i, requestId, .error, none, none,
        some "rejected by content policy: sensitive data detected"⟩ with
      errorCount := st.errorCount + 1 }
  | .kept content =>
    let memData := itemRow req bulkAttemptId i content
    match dictGet existing memData.contentHash with
    | some found =>
      if found.clientRequestId = some requestId then
        { st.put i ⟨i, requestId, .duplicateAttempt, some found.id, none, none⟩ with
          dupCount := st.dupCount + 1 }
      else
        { st.put i ⟨i, requestId, .duplicateContent, some found.id, some found.id, none⟩ with
          dupCount := st.dupCount + 1 }
    | none =>
      match st.firstSeen memData.contentHash with
      | some _ =>
        -- the id is not known before the first occurrence is written
        { st.put i ⟨i, requestId, .duplicateContent, none, none, none⟩ with
          dupCount := st.dupCount + 1 }
      | none =>
        { st with
          seenHashes := st.seenHashes ++ [(memData.contentHash, i)]
          pending := st.pending ++ [(i, memData)] }

def byRequestId (reply : List StorageResult) (clientRequestId : Option String) :
    Option StorageResult :=
  reply.reverse.find? (·.clientRequestId = clientRequestId)

def mapStored (reply : List StorageResult) (st : BulkState) (entry : ℕ × NewRow) : BulkState :=
  let crid := entry.2.clientRequestId.getD ""
  match byRequestId reply entry.2.clientRequestId with
  | some ⟨_, some id, true⟩ =>
    { st.put entry.1 ⟨entry.1, crid, .created, some id, none, none⟩ with
      createdCount := st.createdCount + 1 }
  | some ⟨_, some id, false⟩ =>
    { st.put entry.1 ⟨entry.1, crid, .duplicateAttempt, some id, none, none⟩ with
      dupCount := st.dupCount + 1 }
  | _ =>
    { st.put entry.1 ⟨entry.1, crid, .error, none, none,
        some "storage did not return an id for this item"⟩ with
      errorCount := st.errorCount + 1 }

def backfill (hashes : List String) (st : BulkState) (j : ℕ) : Option BulkState :=
  match st.results[j]? with
  | none => none
  | some none => some st
  | some (some later) =>
    if later.status ≠ .duplicateContent ∨ later.id ≠ none then some st
    else
      match (hashes[j]?.bind st.firstSeen).bind fun first => st.results[first]? with
      | none => none
      | some canonical =>
        match canonical.bind (·.id) with
        | none =>
          some { st.put j ⟨j, later.clientRequestId, .error, none, none,
              some "canonical row for intra-batch duplicate did not persist"⟩ with
            dupCount := st.dupCount - 1
            errorCount := st.errorCount + 1 }
        | some id =>
          some (st.put j ⟨j, later.clientRequestId, .duplicateContent, some id, some id, none⟩)

end BulkState

structure BulkMemoryResponse where
  created : ℤ
  duplicates : ℤ
  errors : ℤ
  results : List BulkItemResult

def classified (env : WriteEnv) (req : BulkRequest) (bulkAttemptId : String)
    (existing : List (String × Existing)) : BulkState :=
  ((req.items.map (screen env req.tenantId)).zipIdx).foldl
    (BulkState.classify req bulkAttemptId existing) (.start req.items.length)

def settled (hashes : List String) (reply : List StorageResult) (st : BulkState) :
    Option BulkState :=
  if st.pending = [] then some st
  else (List.range hashes.length).foldlM (BulkState.backfill hashes)
    (st.pending.foldl (BulkState.mapStored reply) st)

/-- What `create_memories_bulk` answers to what its lookup found and to the reply of storage;
nothing when it raises. -/
def bulkResponse (env : WriteEnv) (req : BulkRequest) (bulkAttemptId : String)
    (existing : List (String × Existing)) (reply : List StorageResult) :
    Option BulkMemoryResponse :=
  match settled (bulkHashes env req) reply (classified env req bulkAttemptId existing) with
  | none => none
  | some st =>
    if st.results.any (·.isNone) then none
    else some ⟨st.createdCount, st.dupCount, st.errorCount, st.results.filterMap id⟩

section Tally

variable {p : ItemStatus → Bool} {results : List (Option BulkItemResult)} {i : ℕ}
  {result : BulkItemResult}

def tally (p : ItemStatus → Bool) (results : List (Option BulkItemResult)) : ℤ :=
  results.countP fun slot => slot.any fun result => p result.status

def isDuplicate : ItemStatus → Bool
  | .duplicateAttempt => true
  | .duplicateContent => true
  | _ => false

structure Counted (st : BulkState) : Prop where
  created : st.createdCount = tally (· = .created) st.results
  duplicates : st.dupCount = tally isDuplicate st.results
  errors : st.errorCount = tally (· = .error) st.results

theorem tally_set {old : Option BulkItemResult} (h : results[i]? = some old) :
    tally p (results.set i (some result)) =
      tally p results - (if old.any (p ·.status) then 1 else 0) + if p result.status then 1 else 0 := by
  obtain ⟨hi, hold⟩ := List.getElem?_eq_some_iff.mp h
  have hpos : old.any (p ·.status) = true →
      0 < results.countP fun slot => slot.any fun result => p result.status := by
    intro hp
    exact List.countP_pos_iff.mpr ⟨old, hold ▸ List.getElem_mem hi, hp⟩
  unfold tally
  rw [List.countP_set hi, hold]
  simp only [Option.any_some]
  split_ifs with hp hnew hnew
  · have := hpos hp
    omega
  · have := hpos hp
    omega
  · omega
  · omega

theorem tally_fill (h : results[i]? = some none) :
    tally p (results.set i (some result)) = tally p results + if p result.status then 1 else 0 := by
  rw [tally_set h]
  simp

section Put

variable {st : BulkState} (h : Counted st) (hslot : st.results[i]? = some none)

include h hslot

theorem Counted.putCreated (hstatus : result.status = .created) :
    Counted { st.put i result with createdCount := st.createdCount + 1 } := by
  constructor
  · exact (congrArg (· + 1) h.created).trans (by simp [BulkState.put, tally_fill hslot, hstatus])
  · exact h.duplicates.trans (by simp [BulkState.put, tally_fill hslot, hstatus, isDuplicate])
  · exact h.errors.trans (by simp [BulkState.put, tally_fill hslot, hstatus])

theorem Counted.putDuplicate (hstatus : isDuplicate result.status = true) :
    Counted { st.put i result with dupCount := st.dupCount + 1 } := by
  have hkind : result.status ≠ .created ∧ result.status ≠ .error := by
    constructor
    · rintro heq
      rw [heq] at hstatus
      exact Bool.false_ne_true hstatus
    · rintro heq
      rw [heq] at hstatus
      exact Bool.false_ne_true hstatus
  constructor
  · exact h.created.trans (by simp [BulkState.put, tally_fill hslot, hkind.1])
  · exact (congrArg (· + 1) h.duplicates).trans (by simp [BulkState.put, tally_fill hslot, hstatus])
  · exact h.errors.trans (by simp [BulkState.put, tally_fill hslot, hkind.2])

theorem Counted.putError (hstatus : result.status = .error) :
    Counted { st.put i result with errorCount := st.errorCount + 1 } := by
  constructor
  · exact h.created.trans (by simp [BulkState.put, tally_fill hslot, hstatus])
  · exact h.duplicates.trans (by simp [BulkState.put, tally_fill hslot, hstatus, isDuplicate])
  · exact (congrArg (· + 1) h.errors).trans (by simp [BulkState.put, tally_fill hslot, hstatus])

end Put

end Tally

section Classify

variable {req : BulkRequest} {bulkAttemptId : String} {existing : List (String × Existing)}

def Slot.written (bulkAttemptId : String) (i : ℕ) : Slot → Option BulkItemResult
  | .done result => some result
  | .queued _ => none
  | .repeated _ =>
    some ⟨i, itemRequestId bulkAttemptId i, .duplicateContent, none, none, none⟩

def Slot.pendingAt (i : ℕ) (slot : Slot) : List (ℕ × NewRow) := (slot.pending.map (i, ·)).toList

/-- One turn of the loop does what `slotOf` decides. -/
structure Turn (bulkAttemptId : String) (i : ℕ) (slot : Slot) (st st' : BulkState) : Prop where
  results : st'.results = st.results.set i (slot.written bulkAttemptId i)
  seen : st'.seenHashes = st.seenHashes ++ slot.seen i
  pending : st'.pending = st.pending ++ slot.pendingAt i
  counted : Counted st → Counted st'

theorem set_none_of_getElem? {results : List (Option BulkItemResult)} {i : ℕ}
    (h : results[i]? = some none) : results.set i none = results := by
  obtain ⟨hi, hnone⟩ := List.getElem?_eq_some_iff.mp h
  rw [← hnone]
  exact List.set_getElem_self hi

variable (req bulkAttemptId existing) in
theorem classify_turn {st : BulkState} {i : ℕ} (hslot : st.results[i]? = some none)
    (item : Screened) :
    Turn bulkAttemptId i (slotOf req bulkAttemptId existing st.seenHashes i item) st
      (st.classify req bulkAttemptId existing (item, i)) := by
  unfold slotOf BulkState.classify
  cases item with
  | short =>
    exact ⟨rfl, (List.append_nil _).symm, (List.append_nil _).symm,
      fun h => h.putError hslot rfl⟩
  | dropped =>
    exact ⟨rfl, (List.append_nil _).symm, (List.append_nil _).symm,
      fun h => h.putError hslot rfl⟩
  | kept content =>
    dsimp only
    cases hfound : dictGet existing (itemRow req bulkAttemptId i content).contentHash with
    | some found =>
      dsimp only
      split_ifs with hown
      · exact ⟨rfl, (List.append_nil _).symm, (List.append_nil _).symm,
          fun h => h.putDuplicate hslot rfl⟩
      · exact ⟨rfl, (List.append_nil _).symm, (List.append_nil _).symm,
          fun h => h.putDuplicate hslot rfl⟩
    | none =>
      dsimp only [BulkState.firstSeen]
      cases hseen : st.seenHashes.find? (·.1 = (itemRow req bulkAttemptId i content).contentHash) with
      | some entry =>
        exact ⟨rfl, (List.append_nil _).symm, (List.append_nil _).symm,
          fun h => h.putDuplicate hslot rfl⟩
      | none => exact ⟨(set_none_of_getElem? hslot).symm, rfl, rfl, fun h => ⟨h.1, h.2, h.3⟩⟩

theorem mem_pendingAt {i : ℕ} {slot : Slot} {e : ℕ × NewRow} :
    e ∈ slot.pendingAt i ↔ e.1 = i ∧ slot = .queued e.2 := by
  obtain ⟨k, n⟩ := e
  cases slot with
  | queued m => simp [Slot.pendingAt, Slot.pending, eq_comm]
  | done result => simp [Slot.pendingAt, Slot.pending]
  | repeated first => simp [Slot.pendingAt, Slot.pending]

variable (req bulkAttemptId existing) in
theorem foldl_classify (items : List Screened) {i : ℕ} {before : List (Option BulkItemResult)}
    {st : BulkState} (hi : before.length = i)
    (hresults : st.results = before ++ List.replicate items.length none) :
    ((items.zipIdx i).foldl (BulkState.classify req bulkAttemptId existing) st).results =
        before ++ ((slots req bulkAttemptId existing i st.seenHashes items).zipIdx i).map
          (fun e => e.1.written bulkAttemptId e.2) ∧
      ((items.zipIdx i).foldl (BulkState.classify req bulkAttemptId existing) st).seenHashes =
        st.seenHashes ++ ((slots req bulkAttemptId existing i st.seenHashes items).zipIdx i).flatMap
          (fun e => e.1.seen e.2) ∧
      ((items.zipIdx i).foldl (BulkState.classify req bulkAttemptId existing) st).pending =
        st.pending ++ ((slots req bulkAttemptId existing i st.seenHashes items).zipIdx i).flatMap
          (fun e => e.1.pendingAt e.2) ∧
      (Counted st →
        Counted ((items.zipIdx i).foldl (BulkState.classify req bulkAttemptId existing) st)) := by
  induction items generalizing i before st with
  | nil =>
    exact ⟨hresults, (List.append_nil _).symm, (List.append_nil _).symm, id⟩
  | cons item items ih =>
    have hslot : st.results[i]? = some none := by
      rw [hresults, ← hi, List.getElem?_append_right le_rfl, Nat.sub_self]
      rfl
    have hturn := classify_turn req bulkAttemptId existing hslot item
    have hset : (st.classify req bulkAttemptId existing (item, i)).results =
        (before ++ [(slotOf req bulkAttemptId existing st.seenHashes i item).written
          bulkAttemptId i]) ++ List.replicate items.length none := by
      rw [hturn.results, hresults, ← hi, List.set_append_right _ _ le_rfl, Nat.sub_self,
        List.append_assoc]
      rfl
    obtain ⟨hresults', hseen', hpending', hcounted'⟩ := ih (i := i + 1)
      (by rw [List.length_append, hi]; rfl) hset
    rw [hturn.seen] at hresults' hseen' hpending'
    rw [List.zipIdx_cons, List.foldl_cons, slots, List.zipIdx_cons]
    refine ⟨?_, ?_, ?_, fun h => hcounted' (hturn.counted h)⟩
    · rw [hresults', List.append_assoc]
      rfl
    · rw [hseen', List.append_assoc, List.flatMap_cons]
    · rw [hpending', hturn.pending, List.append_assoc, List.flatMap_cons]

theorem slots_slotOf {items : List Screened} {i k : ℕ} {seen : List (String × ℕ)} {slot : Slot}
    (h : (slots req bulkAttemptId existing i seen items)[k]? = some slot) :
    ∃ seen' item, slot = slotOf req bulkAttemptId existing seen' (i + k) item := by
  induction items generalizing i k seen with
  | nil => exact absurd h (by simp [slots])
  | cons item items ih =>
    rw [slots] at h
    cases k with
    | zero =>
      rw [List.getElem?_cons_zero] at h
      exact ⟨seen, item, (Option.some.inj h).symm⟩
    | succ k =>
      rw [List.getElem?_cons_succ] at h
      obtain ⟨seen', item', rfl⟩ := ih h
      exact ⟨seen', item', by rw [Nat.add_right_comm, Nat.add_assoc]⟩

theorem slotOf_done {seen : List (String × ℕ)} {i : ℕ} {item : Screened} {result : BulkItemResult}
    (h : slotOf req bulkAttemptId existing seen i item = .done result) :
    result.index = i ∧ ((result.status = .error ∧ result.id = none) ∨
      (result.status = .duplicateAttempt ∧ result.id ≠ none) ∨
      (result.status = .duplicateContent ∧ result.id ≠ none ∧ result.duplicateOf = result.id)) := by
  -- What the first loop settles is an error without an id, or has the id of a row that the lookup
  -- found.
  unfold slotOf at h
  cases item with
  | short =>
    obtain rfl := Slot.done.inj h
    exact ⟨rfl, .inl ⟨rfl, rfl⟩⟩
  | dropped =>
    obtain rfl := Slot.done.inj h
    exact ⟨rfl, .inl ⟨rfl, rfl⟩⟩
  | kept content =>
    dsimp only at h
    split at h
    · split at h
      · obtain rfl := Slot.done.inj h
        exact ⟨rfl, .inr (.inl ⟨rfl, Option.some_ne_none _⟩)⟩
      · obtain rfl := Slot.done.inj h
        exact ⟨rfl, .inr (.inr ⟨rfl, Option.some_ne_none _, rfl⟩)⟩
    · split at h
      · exact absurd h (by simp)
      · exact absurd h (by simp)

theorem slots_repeated {items : List Screened} {i k first : ℕ} {seen : List (String × ℕ)}
    (h : (slots req bulkAttemptId existing i seen items)[k]? = some (.repeated first)) :
    ∃ content, items[k]? = some (.kept content) ∧
      ((seen ++ ((slots req bulkAttemptId existing i seen items).zipIdx i).flatMap
        (fun e => e.1.seen e.2)).find? (·.1 = contentHash req.tenantId req.fleetId content)).map
          (·.2) = some first := by
  -- The first occurrence of a repeated content is what its hash was first seen at.
  induction items generalizing i k seen with
  | nil => exact absurd h (by simp [slots])
  | cons item items ih =>
    rw [slots] at h ⊢
    cases k with
    | succ k =>
      rw [List.getElem?_cons_succ] at h
      obtain ⟨content, hitem, hfind⟩ := ih h
      refine ⟨content, hitem, ?_⟩
      rw [List.zipIdx_cons, List.flatMap_cons, ← List.append_assoc]
      exact hfind
    | zero =>
      rw [List.getElem?_cons_zero] at h
      have hslot := Option.some.inj h
      unfold slotOf at hslot
      cases item with
      | short => exact absurd hslot (by simp)
      | dropped => exact absurd hslot (by simp)
      | kept content =>
        dsimp only at hslot
        split at hslot
        · split at hslot
          · exact absurd hslot (by simp)
          · exact absurd hslot (by simp)
        · split at hslot
          · next entry hseen =>
            refine ⟨content, rfl, ?_⟩
            rw [List.find?_append]
            have hfound : seen.find? (·.1 = contentHash req.tenantId req.fleetId content) =
                some entry := hseen
            rw [hfound]
            exact congrArg some (Slot.repeated.inj hslot)
          · exact absurd hslot (by simp)

end Classify

section Stored

variable {reply : List StorageResult}

variable (reply) in
theorem mapStored_turn {st : BulkState} {i : ℕ} (n : NewRow) (hslot : st.results[i]? = some none) :
    (st.mapStored reply (i, n)).results =
        st.results.set i (some (resolveQueued reply.reverse i n)) ∧
      (st.mapStored reply (i, n)).seenHashes = st.seenHashes ∧
      (Counted st → Counted (st.mapStored reply (i, n))) := by
  unfold BulkState.mapStored resolveQueued BulkState.byRequestId
  dsimp only
  generalize reply.reverse.find? (·.clientRequestId = n.clientRequestId) = entry
  rcases entry with _ | ⟨request, _ | id, _ | _⟩
  · exact ⟨rfl, rfl, fun h => h.putError hslot rfl⟩
  · exact ⟨rfl, rfl, fun h => h.putError hslot rfl⟩
  · exact ⟨rfl, rfl, fun h => h.putError hslot rfl⟩
  · exact ⟨rfl, rfl, fun h => h.putDuplicate hslot rfl⟩
  · exact ⟨rfl, rfl, fun h => h.putCreated hslot rfl⟩

variable (reply) in
theorem foldl_mapStored {pending : List (ℕ × NewRow)} {st : BulkState}
    (hnodup : (pending.map Prod.fst).Nodup)
    (hslots : ∀ e ∈ pending, st.results[e.1]? = some none) :
    (∀ e ∈ pending, (pending.foldl (BulkState.mapStored reply) st).results[e.1]? =
        some (some (resolveQueued reply.reverse e.1 e.2))) ∧
      (∀ k, k ∉ pending.map Prod.fst →
        (pending.foldl (BulkState.mapStored reply) st).results[k]? = st.results[k]?) ∧
      (pending.foldl (BulkState.mapStored reply) st).seenHashes = st.seenHashes ∧
      (Counted st → Counted (pending.foldl (BulkState.mapStored reply) st)) := by
  induction pending generalizing st with
  | nil => exact ⟨fun e he => absurd he List.not_mem_nil, fun k _ => rfl, rfl, id⟩
  | cons e pending ih =>
    rw [List.map_cons, List.nodup_cons] at hnodup
    have hslot := hslots e List.mem_cons_self
    obtain ⟨hset, hseen, hcounted⟩ := mapStored_turn reply e.2 hslot
    have hrest : ∀ e' ∈ pending, (st.mapStored reply e).results[e'.1]? = some none := by
      intro e' he'
      have hne : e.1 ≠ e'.1 := fun h => hnodup.1 (h ▸ List.mem_map_of_mem he')
      rw [hset, List.getElem?_set_ne hne]
      exact hslots e' (List.mem_cons_of_mem e he')
    obtain ⟨hown, hother, hseen', hcounted'⟩ := ih hnodup.2 hrest
    rw [List.foldl_cons]
    refine ⟨fun e' he' => ?_, fun k hk => ?_, hseen'.trans hseen, fun h => hcounted' (hcounted h)⟩
    · rcases List.mem_cons.mp he' with rfl | he'
      · rw [hother _ hnodup.1, hset,
          List.getElem?_set_self (List.getElem?_eq_some_iff.mp hslot).1]
      · exact hown e' he'
    · rw [List.map_cons, List.mem_cons, not_or] at hk
      rw [hother k hk.2, hset, List.getElem?_set_ne (Ne.symm hk.1)]

end Stored

section Backfill

variable {st : BulkState} {i : ℕ} {later result : BulkItemResult}

theorem Counted.keepDuplicate (h : Counted st) (hslot : st.results[i]? = some (some later))
    (hlater : later.status = .duplicateContent) (hstatus : result.status = .duplicateContent) :
    Counted (st.put i result) := by
  constructor
  · exact h.created.trans (by simp [BulkState.put, tally_set hslot, hlater, hstatus])
  · exact h.duplicates.trans (by simp [BulkState.put, tally_set hslot, hlater, hstatus, isDuplicate])
  · exact h.errors.trans (by simp [BulkState.put, tally_set hslot, hlater, hstatus])

theorem Counted.downgrade (h : Counted st) (hslot : st.results[i]? = some (some later))
    (hlater : later.status = .duplicateContent) (hstatus : result.status = .error) :
    Counted { st.put i result with
      dupCount := st.dupCount - 1
      errorCount := st.errorCount + 1 } := by
  constructor
  · exact h.created.trans (by simp [BulkState.put, tally_set hslot, hlater, hstatus])
  · exact (congrArg (· - 1) h.duplicates).trans
      (by simp [BulkState.put, tally_set hslot, hlater, hstatus, isDuplicate])
  · exact (congrArg (· + 1) h.errors).trans
      (by simp [BulkState.put, tally_set hslot, hlater, hstatus])

end Backfill

theorem resolveQueued_status (results : List StorageResult) (i : ℕ) (n : NewRow) :
    (resolveQueued results i n).status ≠ .duplicateContent := by
  unfold resolveQueued
  split
  · exact ItemStatus.noConfusion
  · exact ItemStatus.noConfusion
  · exact ItemStatus.noConfusion

theorem resolve_repeated (results : List StorageResult) (bulkAttemptId : String) (i : ℕ)
    {all : List Slot} {first : ℕ} {n : NewRow} (hfirst : all[first]? = some (.queued n)) :
    resolve results bulkAttemptId all i (.repeated first) =
      match (resolveQueued results first n).id with
      | some id => ⟨i, itemRequestId bulkAttemptId i, .duplicateContent, some id, some id, none⟩
      | none => ⟨i, itemRequestId bulkAttemptId i, .error, none, none,
          some "canonical row for intra-batch duplicate did not persist"⟩ := by
  cases hid : (resolveQueued results first n).id with
  | none => simp only [resolve, hfirst, hid]
  | some id => simp only [resolve, hfirst, hid]

section Batch

variable {env : WriteEnv} {req : BulkRequest} {bulkAttemptId : String}
  {existing : List (String × Existing)} {reply : List StorageResult}

theorem classified_spec :
    (∀ k, (classified env req bulkAttemptId existing).results[k]? =
        ((bulkSlots env req bulkAttemptId existing)[k]?).map (Slot.written bulkAttemptId k)) ∧
      (classified env req bulkAttemptId existing).seenHashes =
        (bulkSlots env req bulkAttemptId existing).zipIdx.flatMap (fun e => e.1.seen e.2) ∧
      (classified env req bulkAttemptId existing).pending =
        (bulkSlots env req bulkAttemptId existing).zipIdx.flatMap (fun e => e.1.pendingAt e.2) ∧
      Counted (classified env req bulkAttemptId existing) := by
  have hstart : (BulkState.start req.items.length).results =
      [] ++ List.replicate (req.items.map (screen env req.tenantId)).length none := by
    rw [List.length_map]
    rfl
  obtain ⟨hresults, hseen, hpending, hcounted⟩ := foldl_classify req bulkAttemptId
    existing (req.items.map (screen env req.tenantId)) List.length_nil hstart
  have hempty : Counted (BulkState.start req.items.length) := by
    constructor <;> simp [BulkState.start, tally, List.countP_replicate]
  refine ⟨fun k => ?_, hseen, hpending, hcounted hempty⟩
  rw [classified, hresults, List.nil_append, List.getElem?_map, List.getElem?_zipIdx, Option.map_map,
    Nat.zero_add]
  rfl

theorem mem_classified_pending {k : ℕ} {n : NewRow} :
    (k, n) ∈ (classified env req bulkAttemptId existing).pending ↔
      (bulkSlots env req bulkAttemptId existing)[k]? = some (.queued n) := by
  rw [classified_spec.2.2.1, List.mem_flatMap]
  constructor
  · rintro ⟨⟨slot, j⟩, hmem, hpending⟩
    obtain ⟨rfl, rfl⟩ := mem_pendingAt.mp hpending
    exact List.mem_zipIdx_iff_getElem?.mp hmem
  · intro hslot
    exact ⟨(.queued n, k), List.mem_zipIdx_iff_getElem?.mpr hslot, mem_pendingAt.mpr ⟨rfl, rfl⟩⟩

theorem classified_pending_nodup :
    ((classified env req bulkAttemptId existing).pending.map Prod.fst).Nodup := by
  rw [classified_spec.2.2.1, List.map_flatMap]
  have hindices : ((bulkSlots env req bulkAttemptId existing).zipIdx.map Prod.snd).Nodup := by
    rw [List.zipIdx_map_snd]
    exact List.nodup_range'
  refine List.Nodup.sublist ?_ hindices
  generalize (bulkSlots env req bulkAttemptId existing).zipIdx = entries
  induction entries with
  | nil => exact List.Sublist.slnil
  | cons e entries ih =>
    obtain ⟨slot, k⟩ := e
    rw [List.flatMap_cons, List.map_cons]
    cases slot with
    | queued n => exact ih.cons_cons k
    | done result => exact ih.cons k
    | repeated first => exact ih.cons k

def Slot.stored (reply : List StorageResult) (bulkAttemptId : String) (i : ℕ) :
    Slot → Option BulkItemResult
  | .queued n => some (resolveQueued reply.reverse i n)
  | slot => slot.written bulkAttemptId i

structure Filled (env : WriteEnv) (req : BulkRequest) (bulkAttemptId : String)
    (existing : List (String × Existing)) (reply : List StorageResult) (m : ℕ) (st : BulkState) :
    Prop where
  results : ∀ k, st.results[k]? = ((bulkSlots env req bulkAttemptId existing)[k]?).map fun slot =>
    if k < m then some (resolve reply.reverse bulkAttemptId (bulkSlots env req bulkAttemptId existing)
      k slot)
    else slot.stored reply bulkAttemptId k
  seen : st.seenHashes = (classified env req bulkAttemptId existing).seenHashes
  counted : Counted st

theorem filled_zero : Filled env req bulkAttemptId existing reply 0
    ((classified env req bulkAttemptId existing).pending.foldl (BulkState.mapStored reply)
      (classified env req bulkAttemptId existing)) := by
  have hslots : ∀ e ∈ (classified env req bulkAttemptId existing).pending,
      (classified env req bulkAttemptId existing).results[e.1]? = some none := by
    rintro ⟨k, n⟩ he
    rw [classified_spec.1, mem_classified_pending.mp he]
    rfl
  obtain ⟨hown, hother, hseen, hcounted⟩ :=
    foldl_mapStored reply classified_pending_nodup hslots
  refine ⟨fun k => ?_, hseen, hcounted classified_spec.2.2.2⟩
  simp only [Nat.not_lt_zero, if_false]
  by_cases hqueued : ∃ n, (bulkSlots env req bulkAttemptId existing)[k]? = some (.queued n)
  · obtain ⟨n, hn⟩ := hqueued
    rw [hown (k, n) (mem_classified_pending.mpr hn), hn]
    rfl
  · rw [hother, classified_spec.1]
    · cases hslot : (bulkSlots env req bulkAttemptId existing)[k]? with
      | none => rfl
      | some slot =>
        cases slot with
        | queued n => exact absurd ⟨n, hslot⟩ hqueued
        | done result => rfl
        | repeated first => rfl
    · intro hmem
      obtain ⟨⟨j, n⟩, he, rfl⟩ := List.mem_map.mp hmem
      exact hqueued ⟨n, mem_classified_pending.mp he⟩

variable {m : ℕ} {st : BulkState}

theorem Filled.skip (h : Filled env req bulkAttemptId existing reply m st) {slot : Slot}
    (hslot : (bulkSlots env req bulkAttemptId existing)[m]? = some slot)
    (hsame : slot.stored reply bulkAttemptId m = some (resolve reply.reverse bulkAttemptId
      (bulkSlots env req bulkAttemptId existing) m slot)) :
    Filled env req bulkAttemptId existing reply (m + 1) st := by
  refine ⟨fun k => ?_, h.seen, h.counted⟩
  rw [h.results k]
  by_cases hk : k = m
  · rw [hk, hslot, Option.map_some, Option.map_some, if_neg (lt_irrefl m),
      if_pos (Nat.lt_succ_self m), hsame]
  · have hlt : k < m + 1 ↔ k < m := by omega
    simp only [hlt]

theorem Filled.put (h : Filled env req bulkAttemptId existing reply m st) {slot : Slot}
    (hslot : (bulkSlots env req bulkAttemptId existing)[m]? = some slot) {st' : BulkState}
    (hresults : st'.results = st.results.set m (some (resolve reply.reverse bulkAttemptId
      (bulkSlots env req bulkAttemptId existing) m slot)))
    (hseen : st'.seenHashes = st.seenHashes) (hcounted : Counted st') :
    Filled env req bulkAttemptId existing reply (m + 1) st' := by
  refine ⟨fun k => ?_, hseen.trans h.seen, hcounted⟩
  rw [hresults]
  by_cases hk : k = m
  · have hheld := h.results m
    rw [hslot, Option.map_some] at hheld
    rw [hk, List.getElem?_set_self (List.getElem?_eq_some_iff.mp hheld).1, hslot, Option.map_some,
      if_pos (Nat.lt_succ_self m)]
  · have hlt : k < m + 1 ↔ k < m := by omega
    rw [List.getElem?_set_ne (Ne.symm hk), h.results k]
    simp only [hlt]

theorem bulkHashes_kept {i : ℕ} {content : String}
    (hitem : (req.items.map (screen env req.tenantId))[i]? = some (.kept content)) :
    (bulkHashes env req)[i]? = some (contentHash req.tenantId req.fleetId content) := by
  rw [List.getElem?_map, Option.map_eq_some_iff] at hitem
  obtain ⟨item, hget, hscreen⟩ := hitem
  rw [bulkHashes, List.getElem?_map, hget, Option.map_some, hscreen]
  rfl

theorem Filled.firstSeen (h : Filled env req bulkAttemptId existing reply m st) {first : ℕ}
    (hslot : (bulkSlots env req bulkAttemptId existing)[m]? = some (.repeated first)) :
    ((bulkHashes env req)[m]?.bind st.firstSeen) = some first := by
  obtain ⟨content, hitem, hfind⟩ := slots_repeated hslot
  rw [bulkHashes_kept hitem, Option.bind_some, BulkState.firstSeen, h.seen, classified_spec.2.1]
  exact hfind

theorem lt_of_bulkSlots {k : ℕ} {slot : Slot}
    (h : (bulkSlots env req bulkAttemptId existing)[k]? = some slot) : k < req.items.length := by
  have hlength : (bulkSlots env req bulkAttemptId existing).length = req.items.length :=
    bulkSlots_length
  rw [← hlength]
  exact (List.getElem?_eq_some_iff.mp h).1

theorem repeated_first {first : ℕ}
    (hslot : (bulkSlots env req bulkAttemptId existing)[m]? = some (.repeated first)) :
    ∃ n, (bulkSlots env req bulkAttemptId existing)[first]? = some (.queued n) := by
  obtain ⟨content, hitem, -⟩ := slots_repeated hslot
  have hitemSlot : ∃ slot, (bulkSlots env req bulkAttemptId existing)[m]? = some slot ∧
      ItemSlot req bulkAttemptId existing (bulkSlots env req bulkAttemptId existing) m
        (.kept content) slot := bulkSlots_item hitem
  obtain ⟨slot, hget, hkept⟩ := hitemSlot
  rw [hslot] at hget
  obtain rfl := Option.some.inj hget
  cases hkept with
  | repeated hfirst hhash => exact ⟨_, hfirst⟩

theorem Filled.first (h : Filled env req bulkAttemptId existing reply m st) {first : ℕ} {n : NewRow}
    (hfirst : (bulkSlots env req bulkAttemptId existing)[first]? = some (.queued n)) :
    st.results[first]? = some (some (resolveQueued reply.reverse first n)) := by
  rw [h.results first, hfirst, Option.map_some]
  split_ifs
  · rfl
  · rfl

theorem backfill_step (hm : m < req.items.length)
    (h : Filled env req bulkAttemptId existing reply m st) :
    ∃ st', st.backfill (bulkHashes env req) m = some st' ∧
      Filled env req bulkAttemptId existing reply (m + 1) st' := by
  obtain ⟨slot, hslot⟩ : ∃ slot, (bulkSlots env req bulkAttemptId existing)[m]? = some slot :=
    ⟨_, List.getElem?_eq_getElem (by rwa [bulkSlots_length])⟩
  have hheld := h.results m
  rw [hslot, Option.map_some, if_neg (lt_irrefl m)] at hheld
  unfold BulkState.backfill
  cases slot with
  | queued n =>
    have hstatus := resolveQueued_status reply.reverse m n
    rw [hheld]
    exact ⟨st, if_pos (.inl hstatus), h.skip hslot rfl⟩
  | done result =>
    obtain ⟨seen, item, hdone⟩ := slots_slotOf hslot
    have hid : result.status ≠ .duplicateContent ∨ result.id ≠ none := by
      rcases (slotOf_done hdone.symm).2 with ⟨hstatus, -⟩ | ⟨-, hid⟩ | ⟨-, hid, -⟩
      · exact .inl (by rw [hstatus]; exact ItemStatus.noConfusion)
      · exact .inr hid
      · exact .inr hid
    rw [hheld]
    exact ⟨st, if_pos hid, h.skip hslot rfl⟩
  | repeated first =>
    obtain ⟨n, hfirst⟩ := repeated_first hslot
    have hresolve := resolve_repeated reply.reverse bulkAttemptId m hfirst
    rw [hheld, h.firstSeen hslot]
    dsimp only [Slot.stored, Slot.written, Option.bind_some]
    rw [h.first hfirst, if_neg (by simp)]
    dsimp only [Option.bind_some]
    cases hid : (resolveQueued reply.reverse first n).id with
    | none =>
      rw [hid] at hresolve
      refine ⟨_, rfl, h.put hslot ?_ rfl (h.counted.downgrade hheld rfl rfl)⟩
      rw [hresolve]
      rfl
    | some id =>
      rw [hid] at hresolve
      refine ⟨_, rfl, h.put hslot ?_ rfl (h.counted.keepDuplicate hheld rfl rfl)⟩
      rw [hresolve]
      rfl

theorem foldlM_backfill (hm : m ≤ req.items.length) :
    ∃ st, (List.range m).foldlM (BulkState.backfill (bulkHashes env req))
        ((classified env req bulkAttemptId existing).pending.foldl (BulkState.mapStored reply)
          (classified env req bulkAttemptId existing)) = some st ∧
      Filled env req bulkAttemptId existing reply m st := by
  induction m with
  | zero => exact ⟨_, rfl, filled_zero⟩
  | succ m ih =>
    obtain ⟨st, hrun, hfilled⟩ := ih (Nat.le_of_succ_le hm)
    obtain ⟨st', hstep, hfilled'⟩ := backfill_step (Nat.lt_of_succ_le hm) hfilled
    refine ⟨st', ?_, hfilled'⟩
    rw [List.range_succ, List.foldlM_append, hrun]
    simpa using hstep

theorem filled_of_not_pending (hpending : (classified env req bulkAttemptId existing).pending = []) :
    Filled env req bulkAttemptId existing reply req.items.length
      (classified env req bulkAttemptId existing) := by
  -- Without pending rows the first loop has settled every item.
  have hnone : ∀ (k : ℕ) (n : NewRow), (bulkSlots env req bulkAttemptId existing)[k]? ≠ some (Slot.queued n) := by
    intro k n hslot
    have hmem := mem_classified_pending.mpr hslot
    rw [hpending] at hmem
    exact absurd hmem List.not_mem_nil
  refine ⟨fun k => ?_, rfl, classified_spec.2.2.2⟩
  rw [classified_spec.1]
  cases hslot : (bulkSlots env req bulkAttemptId existing)[k]? with
  | none => rfl
  | some slot =>
    rw [Option.map_some, Option.map_some, if_pos (lt_of_bulkSlots hslot)]
    cases slot with
    | queued n => exact absurd hslot (hnone k n)
    | done result => rfl
    | repeated first =>
      obtain ⟨n, hfirst⟩ := repeated_first hslot
      exact absurd hfirst (hnone first n)

variable (env req bulkAttemptId existing reply)

theorem settled_filled : ∃ st, settled (bulkHashes env req) reply
      (classified env req bulkAttemptId existing) = some st ∧
    Filled env req bulkAttemptId existing reply req.items.length st := by
  unfold settled
  split_ifs with hpending
  · exact ⟨_, rfl, filled_of_not_pending hpending⟩
  · have hlength : (bulkHashes env req).length = req.items.length := List.length_map _
    rw [hlength]
    exact foldlM_backfill le_rfl

/-- The loops answer what `resolve` says of each slot, and count it. -/
theorem bulkResponse_eq : ∃ st, Counted st ∧
    st.results = ((bulkSlots env req bulkAttemptId existing).mapIdx
      (resolve reply.reverse bulkAttemptId (bulkSlots env req bulkAttemptId existing))).map some ∧
    bulkResponse env req bulkAttemptId existing reply =
      some ⟨st.createdCount, st.dupCount, st.errorCount,
        (bulkSlots env req bulkAttemptId existing).mapIdx
          (resolve reply.reverse bulkAttemptId (bulkSlots env req bulkAttemptId existing))⟩ := by
  obtain ⟨st, hsettled, hfilled⟩ := settled_filled env req bulkAttemptId existing reply
  have hresults : st.results = ((bulkSlots env req bulkAttemptId existing).mapIdx
      (resolve reply.reverse bulkAttemptId (bulkSlots env req bulkAttemptId existing))).map some := by
    refine List.ext_getElem? fun k => ?_
    rw [hfilled.results k, List.getElem?_map, List.getElem?_mapIdx, Option.map_map]
    cases hslot : (bulkSlots env req bulkAttemptId existing)[k]? with
    | none => rfl
    | some slot =>
      rw [Option.map_some, if_pos (lt_of_bulkSlots hslot)]
      rfl
  refine ⟨st, hfilled.counted, hresults, ?_⟩
  unfold bulkResponse
  rw [hsettled]
  dsimp only
  rw [hresults, List.filterMap_map, if_neg (by simp)]
  exact congrArg some (congrArg _ List.filterMap_some)

end Batch

section Response

variable {env : WriteEnv} {req : BulkRequest} {bulkAttemptId : String}
  {existing : List (String × Existing)} {results : List StorageResult}

theorem resolveQueued_spec (i : ℕ) (n : NewRow) :
    (resolveQueued results i n).index = i ∧
      ((resolveQueued results i n).status ≠ .error → (resolveQueued results i n).id ≠ none) := by
  unfold resolveQueued
  split
  · exact ⟨rfl, fun _ => Option.some_ne_none _⟩
  · exact ⟨rfl, fun _ => Option.some_ne_none _⟩
  · exact ⟨rfl, fun h => absurd rfl h⟩

/-- What the result of an item has, whichever loop wrote it. -/
structure WellFormed (i : ℕ) (result : BulkItemResult) : Prop where
  index : result.index = i
  id : result.status ≠ .error → result.id ≠ none
  duplicateOf : result.status = .duplicateContent → result.duplicateOf = result.id

theorem resolve_wellFormed {i : ℕ} {slot : Slot}
    (hslot : (bulkSlots env req bulkAttemptId existing)[i]? = some slot) :
    WellFormed i (resolve results bulkAttemptId (bulkSlots env req bulkAttemptId existing) i slot) := by
  cases slot with
  | done result =>
    obtain ⟨seen, item, hdone⟩ := slots_slotOf hslot
    obtain ⟨hindex, hkinds⟩ := slotOf_done hdone.symm
    rw [Nat.zero_add] at hindex
    rcases hkinds with ⟨hstatus, -⟩ | ⟨hstatus, hid⟩ | ⟨-, hid, hof⟩
    · exact ⟨hindex, fun h => absurd hstatus h, fun h => by
        exact ItemStatus.noConfusion (hstatus.symm.trans h)⟩
    · exact ⟨hindex, fun _ => hid, fun h => by
        exact ItemStatus.noConfusion (hstatus.symm.trans h)⟩
    · exact ⟨hindex, fun _ => hid, fun _ => hof⟩
  | queued n =>
    exact ⟨(resolveQueued_spec i n).1, (resolveQueued_spec i n).2,
      fun h => absurd h (resolveQueued_status results i n)⟩
  | repeated first =>
    obtain ⟨n, hfirst⟩ := repeated_first hslot
    rw [resolve_repeated results bulkAttemptId i hfirst]
    cases (resolveQueued results first n).id with
    | some id => exact ⟨rfl, fun _ => Option.some_ne_none _, fun _ => rfl⟩
    | none => exact ⟨rfl, fun h => absurd rfl h, fun h => ItemStatus.noConfusion h⟩

/-- Where the id of a result with a content hash comes from. -/
inductive Origin (env : WriteEnv) (req : BulkRequest) (bulkAttemptId : String)
    (existing : List (String × Existing)) (results : List StorageResult) (hash : String) :
    Option ℕ → Prop
  | found {e : Existing} (he : dictGet existing hash = some e) :
    Origin env req bulkAttemptId existing results hash (some e.id)
  | written {first : ℕ} {n : NewRow}
      (hfirst : (bulkSlots env req bulkAttemptId existing)[first]? = some (.queued n))
      (hhash : n.contentHash = hash) :
    Origin env req bulkAttemptId existing results hash (resolveQueued results first n).id

theorem queued_itemRow {i : ℕ} {n : NewRow}
    (h : (bulkSlots env req bulkAttemptId existing)[i]? = some (.queued n)) :
    n.clientRequestId = some (itemRequestId bulkAttemptId i) := by
  obtain ⟨seen, item, hslot⟩ := slots_slotOf h
  obtain ⟨content, -, rfl, -⟩ := slotOf_queued hslot.symm
  rw [Nat.zero_add]
  rfl

theorem Origin.unique {hash : String} {a b : Option ℕ}
    (ha : Origin env req bulkAttemptId existing results hash a)
    (hb : Origin env req bulkAttemptId existing results hash b) : a = b := by
  have hnone : ∀ {first : ℕ} {n : NewRow},
      (bulkSlots env req bulkAttemptId existing)[first]? = some (.queued n) →
        dictGet existing n.contentHash = none := by
    intro first n hfirst
    obtain ⟨-, -, -, -, hnone⟩ := mem_pendingRows (queued_mem_pendingRows hfirst)
    exact hnone
  cases ha with
  | found he =>
    cases hb with
    | found he' => rw [Option.some.inj (he.symm.trans he')]
    | written hfirst hhash => exact absurd (he.symm.trans (hhash ▸ hnone hfirst)) (by simp)
  | @written first n hfirst hhash =>
    cases hb with
    | found he => exact absurd (he.symm.trans (hhash ▸ hnone hfirst)) (by simp)
    | @written first' n' hfirst' hhash' =>
      have hrow : n = n' := List.inj_on_of_nodup_map pendingRows_hash_nodup
        (queued_mem_pendingRows hfirst) (queued_mem_pendingRows hfirst')
        (hhash.trans hhash'.symm)
      subst hrow
      have hrequest := (queued_itemRow hfirst).symm.trans (queued_itemRow hfirst')
      rw [(itemRequestId_injective (Option.some.inj hrequest)).2]

theorem resolve_origin {i : ℕ} {slot : Slot}
    (hslot : (bulkSlots env req bulkAttemptId existing)[i]? = some slot)
    (hstatus : (resolve results bulkAttemptId (bulkSlots env req bulkAttemptId existing) i
      slot).status ≠ .error) :
    ∃ hash, (bulkHashes env req)[i]? = some hash ∧ Origin env req bulkAttemptId existing results hash
      (resolve results bulkAttemptId (bulkSlots env req bulkAttemptId existing) i slot).id := by
  have hlt : i < (req.items.map (screen env req.tenantId)).length := by
    rw [List.length_map]
    exact lt_of_bulkSlots hslot
  have hitem := List.getElem?_eq_getElem hlt
  have hitemSlot : ∃ slot, (bulkSlots env req bulkAttemptId existing)[i]? = some slot ∧
      ItemSlot req bulkAttemptId existing (bulkSlots env req bulkAttemptId existing) i _ slot :=
    bulkSlots_item hitem
  obtain ⟨slot', hget, hkind⟩ := hitemSlot
  rw [hslot] at hget
  obtain rfl := Option.some.inj hget
  have hformed : WellFormed i (resolve results bulkAttemptId
    (bulkSlots env req bulkAttemptId existing) i slot) := resolve_wellFormed hslot
  have hid := hformed.id hstatus
  cases hscreened : (req.items.map (screen env req.tenantId))[i] with
  | short =>
    rw [hscreened] at hkind
    obtain ⟨result, rfl, hnone⟩ := hkind
    exact absurd hnone hid
  | dropped =>
    rw [hscreened] at hkind
    obtain ⟨result, rfl, hnone⟩ := hkind
    exact absurd hnone hid
  | kept content =>
    rw [hscreened] at hkind hitem
    refine ⟨_, bulkHashes_kept hitem, ?_⟩
    cases hkind with
    | found he =>
      dsimp only [resolve]
      split_ifs
      · exact .found he
      · exact .found he
    | queued => exact .written hslot rfl
    | @repeated first n hfirst hhash =>
      have horigin : Origin env req bulkAttemptId existing results
          (contentHash req.tenantId req.fleetId content) (resolveQueued results first n).id :=
        .written hfirst hhash
      rw [resolve_repeated results bulkAttemptId i hfirst] at hid ⊢
      cases hresolved : (resolveQueued results first n).id with
      | some id =>
        rw [hresolved] at horigin
        exact horigin
      | none =>
        rw [hresolved] at hid
        exact absurd rfl hid

end Response

/-- The accounts of a response. -/
structure Accounted (env : WriteEnv) (req : BulkRequest) (response : BulkMemoryResponse) : Prop where
  length : response.results.length = req.items.length
  index : ∀ (i : ℕ) (result : BulkItemResult), response.results[i]? = some result → result.index = i
  created : response.created = response.results.countP (·.status = .created)
  duplicates : response.duplicates = response.results.countP fun result =>
    result.status = .duplicateAttempt ∨ result.status = .duplicateContent
  errors : response.errors = response.results.countP (·.status = .error)
  total : response.created + response.duplicates + response.errors = req.items.length
  id : ∀ result ∈ response.results, result.status ≠ .error → result.id ≠ none
  duplicateOf : ∀ result ∈ response.results, result.status = .duplicateContent →
    result.duplicateOf = result.id
  sameContent : ∀ (i j : ℕ) (result result' : BulkItemResult), response.results[i]? = some result →
    response.results[j]? = some result' → result.status ≠ .error → result'.status ≠ .error →
      (bulkHashes env req)[i]? = (bulkHashes env req)[j]? → result.id = result'.id

theorem tally_some (p : ItemStatus → Bool) (results : List BulkItemResult) :
    tally p (results.map some) = results.countP fun result => p result.status := by
  rw [tally, List.countP_map]
  rfl

theorem tally_total (results : List BulkItemResult) :
    tally (· = .created) (results.map some) + tally isDuplicate (results.map some) +
      tally (· = .error) (results.map some) = results.length := by
  induction results with
  | nil => rfl
  | cons result results ih =>
    have hkind : ((if decide (result.status = .created) then 1 else 0) +
        (if isDuplicate result.status then 1 else 0) +
        if decide (result.status = .error) then 1 else 0) = 1 := by
      cases result.status <;> rfl
    simp only [tally_some] at ih ⊢
    simp only [List.countP_cons, List.length_cons]
    omega

/-- Whatever the lookup found and storage replied, the response accounts for every item. -/
theorem bulk_accounting (env : WriteEnv) (req : BulkRequest) (bulkAttemptId : String)
    (existing : List (String × Existing)) (reply : List StorageResult) :
    ∃ response, bulkResponse env req bulkAttemptId existing reply = some response ∧
      Accounted env req response := by
  obtain ⟨st, hcounted, hresults, hresponse⟩ :=
    bulkResponse_eq env req bulkAttemptId existing reply
  have hslot : ∀ (i : ℕ) (result : BulkItemResult), ((bulkSlots env req bulkAttemptId existing).mapIdx (resolve reply.reverse
      bulkAttemptId (bulkSlots env req bulkAttemptId existing)))[i]? = some result →
        ∃ slot, (bulkSlots env req bulkAttemptId existing)[i]? = some slot ∧
          resolve reply.reverse bulkAttemptId (bulkSlots env req bulkAttemptId existing) i slot =
            result := by
    intro i result hresult
    rw [List.getElem?_mapIdx] at hresult
    exact Option.map_eq_some_iff.mp hresult
  have hformed : ∀ (i : ℕ) (result : BulkItemResult), ((bulkSlots env req bulkAttemptId existing).mapIdx
      (resolve reply.reverse bulkAttemptId (bulkSlots env req bulkAttemptId existing)))[i]? =
        some result → WellFormed i result := by
    intro i result hresult
    obtain ⟨slot, hget, rfl⟩ := hslot i result hresult
    exact resolve_wellFormed hget
  have hlength : (bulkSlots env req bulkAttemptId existing).length = req.items.length :=
    bulkSlots_length
  refine ⟨_, hresponse, ?_⟩
  constructor
  · rw [List.length_mapIdx, hlength]
  · exact fun i result hresult => (hformed i result hresult).index
  · rw [hcounted.created, hresults, tally_some]
  · rw [hcounted.duplicates, hresults, tally_some]
    refine congrArg Nat.cast (List.countP_congr fun result _ => ?_)
    cases result.status <;> simp [isDuplicate]
  · rw [hcounted.errors, hresults, tally_some]
  · rw [hcounted.created, hcounted.duplicates, hcounted.errors, hresults, tally_total,
      List.length_mapIdx, hlength]
  · intro result hmem
    obtain ⟨i, hresult⟩ := List.mem_iff_getElem?.mp hmem
    exact (hformed i result hresult).id
  · intro result hmem
    obtain ⟨i, hresult⟩ := List.mem_iff_getElem?.mp hmem
    exact (hformed i result hresult).duplicateOf
  · intro i j result result' hresult hresult' hstatus hstatus' hsame
    obtain ⟨slot, hget, rfl⟩ := hslot i result hresult
    obtain ⟨slot', hget', rfl⟩ := hslot j result' hresult'
    obtain ⟨hash, hhash, horigin⟩ := resolve_origin hget hstatus
    obtain ⟨hash', hhash', horigin'⟩ := resolve_origin hget' hstatus'
    have heq : hash = hash' := Option.some.inj (hhash.symm.trans (hsame.trans hhash'))
    exact horigin.unique (heq ▸ horigin')

end Memclaw.Write

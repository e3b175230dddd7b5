import Memclaw.Write.Bulk

/-! Retries of bulk writes. The dedup lookup of a request and its insert are separate
steps, and other requests come in between. A retry of an attempt answers with the ids of
the first commit as long as no other attempt inserts a content that appeared after its own
lookup; then each content of the batch has one live row, and the lookup finds it. -/

namespace Memclaw.Write

structure Prepared where
  request : BulkRequest
  bulkAttemptId : String
  existing : List (String × Existing)

structure Committed where
  request : BulkRequest
  bulkAttemptId : String
  results : List BulkItemResult
deriving DecidableEq

structure World where
  table : Table
  inFlight : List Prepared
  done : List Committed

def World.empty : World := ⟨Table.empty, [], []⟩

inductive Action
  | lookup (req : BulkRequest) (bulkAttemptId : String)
  /-- The insert of the request at this place among those in flight. -/
  | commit (k : ℕ)
  | delete (id : ℕ)

def World.perform (env : WriteEnv) (w : World) : Action → World
  | .lookup req bulkAttemptId =>
    { w with inFlight := w.inFlight ++ [⟨req, bulkAttemptId, bulkLookup env w.table req⟩] }
  | .commit k =>
    match w.inFlight[k]? with
    | none => w
    | some p =>
      match bulkCommit env w.table p.request p.bulkAttemptId p.existing with
      | none => { w with inFlight := w.inFlight.eraseIdx k }
      | some committed => ⟨committed.1, w.inFlight.eraseIdx k,
          w.done ++ [⟨p.request, p.bulkAttemptId, committed.2⟩]⟩
  | .delete id => { w with table := w.table.softDelete id }

def performAll (env : WriteEnv) : World → List Action → World
  | w, [] => w
  | w, action :: actions => performAll env (w.perform env action) actions

section

variable (env : WriteEnv) (req : BulkRequest) (bulkAttemptId : String)

def BulkRequest.Wants (n : NewRow) : Prop :=
  ∃ h ∈ bulkHashes env req, n.key = (req.tenantId, req.fleetId, req.agentId, h)

def Prepared.SameBody (p : Prepared) : Prop :=
  p.bulkAttemptId = bulkAttemptId → p.request.tenantId = req.tenantId →
    coalesceFleet p.request.fleetId = coalesceFleet req.fleetId → p.request = req

/-- No content of the request that is about to be inserted has a row by now, unless it is
the row of the very item. -/
def Prepared.NoOverlap (p : Prepared) (t : Table) : Prop :=
  ∀ n ∈ pendingRows env p.request p.bulkAttemptId p.existing, req.Wants env n →
    ∀ r ∈ t.live, r.key = n.key → r.clientRequestId = n.clientRequestId

def World.Safe (w : World) : Action → Prop
  | .commit k => ∀ p, w.inFlight[k]? = some p →
      p.SameBody req bulkAttemptId ∧ p.NoOverlap env req w.table
  | _ => True

def AllSafe : World → List Action → Prop
  | _, [] => True
  | w, action :: actions =>
    w.Safe env req bulkAttemptId action ∧ AllSafe (w.perform env action) actions

end

theorem noOverlap_of_lookup {env : WriteEnv} {req : BulkRequest} {t : Table} {p : Prepared}
    (hfleet : p.request.fleetId ≠ some "") (hlookup : p.existing = bulkLookup env t p.request) :
    p.NoOverlap env req t := by
  intro n hn _ r hr hkey
  obtain ⟨i, content, hitem, rfl, hnone⟩ := mem_pendingRows hn
  rw [hlookup] at hnone
  have hfound := bulkLookup_complete (mem_bulkHashes hitem) hr ((hashMatches_iff hfleet r).mpr hkey)
  exact absurd rfl (dictGet_eq_none hnone _ hfound)

def Table.Extends (t t' : Table) : Prop :=
  ∀ r ∈ t.rows, ∃ r' ∈ t'.rows, r'.toNewRow = r.toNewRow ∧ r'.id = r.id

section

variable (env : WriteEnv) (req : BulkRequest) (bulkAttemptId : String)

/-- Rows that carry a request id of the attempt are rows of its request. -/
def Provenance (t : Table) : Prop :=
  ∀ r ∈ t.rows, ∀ i, r.tenantId = req.tenantId →
    coalesceFleet r.fleetId = coalesceFleet req.fleetId →
    r.clientRequestId = some (itemRequestId bulkAttemptId i) →
    ∃ content, (req.items.map (screen env req.tenantId))[i]? = some (.kept content) ∧
      r.toNewRow = itemRow req bulkAttemptId i content

def UniqueWanted (t : Table) : Prop :=
  ∀ r ∈ t.live, ∀ s ∈ t.live, req.Wants env r.toNewRow → r.key = s.key → r = s

def Recorded (t : Table) (existing : List (String × Existing)) : Prop :=
  ∀ h e, (h, e) ∈ existing → ∃ r ∈ t.rows,
    r.key = (req.tenantId, req.fleetId, req.agentId, h) ∧ e = ⟨r.id, r.clientRequestId⟩

/-- The result of an item: a kept one has the id of a row with its key, and its own row
unless the status says that the row is another item's. -/
def ItemAnswer (t : Table) (i : ℕ) (result : BulkItemResult) : Screened → Prop
  | .kept content => ∃ r ∈ t.rows, result.id = some r.id ∧
      r.key = (itemRow req bulkAttemptId i content).key ∧
      (result.status ≠ .duplicateContent →
        r.clientRequestId = some (itemRequestId bulkAttemptId i))
  | _ => result.id = none

def Answered (t : Table) (results : List BulkItemResult) : Prop :=
  results.length = req.items.length ∧
  ∀ i item, (req.items.map (screen env req.tenantId))[i]? = some item →
    ∃ result, results[i]? = some result ∧ ItemAnswer req bulkAttemptId t i result item

structure Traced (w : World) : Prop where
  provenance : Provenance env req bulkAttemptId w.table
  unique : UniqueWanted env req w.table
  recorded : ∀ p ∈ w.inFlight, p.request = req → Recorded req w.table p.existing
  answered : ∀ c ∈ w.done, c.request = req → c.bulkAttemptId = bulkAttemptId →
    Answered env req bulkAttemptId w.table c.results

end

variable {env : WriteEnv} {req : BulkRequest} {bulkAttemptId : String} {t t' : Table}

theorem Recorded.extends {existing : List (String × Existing)} (h : Recorded req t existing)
    (hext : t.Extends t') : Recorded req t' existing := by
  intro hash e he
  obtain ⟨r, hr, hkey, rfl⟩ := h hash e he
  obtain ⟨r', hr', hrow, hid⟩ := hext r hr
  exact ⟨r', hr', by rw [hrow, hkey], by rw [hid, hrow]⟩

theorem Answered.extends {results : List BulkItemResult}
    (h : Answered env req bulkAttemptId t results) (hext : t.Extends t') :
    Answered env req bulkAttemptId t' results := by
  refine ⟨h.1, fun i item hitem => ?_⟩
  obtain ⟨result, hget, hanswer⟩ := h.2 i item hitem
  refine ⟨result, hget, ?_⟩
  cases item with
  | short => exact hanswer
  | dropped => exact hanswer
  | kept content =>
    obtain ⟨r, hr, hid, hkey, hown⟩ := hanswer
    obtain ⟨r', hr', hrow, hid'⟩ := hext r hr
    refine ⟨r', hr', by rw [hid, hid'], by rw [hrow, hkey], fun hstatus => ?_⟩
    rw [hrow]
    exact hown hstatus

theorem Answered.kept_of_id {results : List BulkItemResult}
    (h : Answered env req bulkAttemptId t results) {i : ℕ} {result : BulkItemResult} {id : ℕ}
    (hget : results[i]? = some result) (hid : result.id = some id) :
    ∃ content, (req.items.map (screen env req.tenantId))[i]? = some (.kept content) := by
  -- Only a kept item is answered with an id.
  have hindex : i < (req.items.map (screen env req.tenantId)).length := by
    rw [List.length_map, ← h.1]
    exact (List.getElem?_eq_some_iff.mp hget).1
  have hitem := List.getElem?_eq_getElem hindex
  obtain ⟨first, hfirst, hanswer⟩ := h.2 i _ hitem
  obtain rfl := Option.some.inj (hget.symm.trans hfirst)
  cases hscreen : (req.items.map (screen env req.tenantId))[i] with
  | kept content => exact ⟨content, by rw [hitem, hscreen]⟩
  | short =>
    rw [hscreen] at hanswer
    cases hid.symm.trans hanswer
  | dropped =>
    rw [hscreen] at hanswer
    cases hid.symm.trans hanswer

theorem recorded_bulkLookup (hfleet : req.fleetId ≠ some "") :
    Recorded req t (bulkLookup env t req) := by
  intro h e he
  obtain ⟨r, hr, hwhere, rfl⟩ := mem_bulkLookup he
  exact ⟨r, (Table.mem_live.mp hr).1, (hashMatches_iff hfleet r).mp hwhere, rfl⟩

theorem extends_softDelete (t : Table) (id : ℕ) : t.Extends (t.softDelete id) := by
  intro r hr
  refine ⟨r.softDelete id, List.mem_map_of_mem hr, ?_⟩
  unfold Row.softDelete
  split_ifs <;> exact ⟨rfl, rfl⟩

theorem provenance_softDelete (h : Provenance env req bulkAttemptId t) (id : ℕ) :
    Provenance env req bulkAttemptId (t.softDelete id) := by
  intro r hr
  obtain ⟨r', hr', rfl⟩ := List.mem_map.mp hr
  have hrow : (r'.softDelete id).toNewRow = r'.toNewRow := by
    unfold Row.softDelete
    split_ifs <;> rfl
  rw [hrow]
  exact h r' hr'

theorem uniqueWanted_softDelete (h : UniqueWanted env req t) (id : ℕ) :
    UniqueWanted env req (t.softDelete id) :=
  fun r hr s hs => h r (Table.live_of_softDelete hr) s (Table.live_of_softDelete hs)

section

variable {p : Prepared} {added : List Row}
  (hadded : Inserted t (pendingRows env p.request p.bulkAttemptId p.existing) added)

include hadded

theorem extends_insertAll :
    t.Extends (t.insertAll (pendingRows env p.request p.bulkAttemptId p.existing)).1 := by
  intro r hr
  refine ⟨r, ?_, rfl, rfl⟩
  rw [hadded.rows]
  exact List.mem_append_left _ hr

theorem added_pending {r : Row} (hr : r ∈ added) :
    r.toNewRow ∈ pendingRows env p.request p.bulkAttemptId p.existing :=
  hadded.sublist.mem (List.mem_map_of_mem hr)

theorem provenance_insertAll (h : Provenance env req bulkAttemptId t)
    (hbody : p.SameBody req bulkAttemptId) : Provenance env req bulkAttemptId
      (t.insertAll (pendingRows env p.request p.bulkAttemptId p.existing)).1 := by
  intro r hr i htenant hfleet hrequest
  rw [hadded.rows, List.mem_append] at hr
  rcases hr with hold | hnew
  · exact h r hold i htenant hfleet hrequest
  · obtain ⟨j, content, hitem, hrow, -⟩ := mem_pendingRows (added_pending hadded hnew)
    rw [hrow] at htenant hfleet hrequest ⊢
    obtain ⟨hattempt, rfl⟩ := itemRequestId_injective (Option.some.inj hrequest)
    have hreq : p.request = req := hbody hattempt htenant hfleet
    rw [hreq] at hitem ⊢
    rw [hattempt]
    exact ⟨content, hitem, rfl⟩

/-- An inserted row has no other live row beside it: one with its key would be the row of
the same item, and the insert was not swallowed. -/
theorem uniqueWanted_insertAll (h : UniqueWanted env req t) (hoverlap : p.NoOverlap env req t) :
    UniqueWanted env req
      (t.insertAll (pendingRows env p.request p.bulkAttemptId p.existing)).1 := by
  have hlive : ∀ r ∈ (t.insertAll (pendingRows env p.request p.bulkAttemptId p.existing)).1.live,
      r ∈ t.live ∨ r ∈ added := by
    intro r hr
    obtain ⟨hmem, hnot⟩ := Table.mem_live.mp hr
    rw [hadded.rows, List.mem_append] at hmem
    exact hmem.imp_left fun hold => Table.mem_live.mpr ⟨hold, hnot⟩
  have hnew : ∀ r ∈ added, req.Wants env r.toNewRow → ∀ s ∈ t.live, s.key ≠ r.key := by
    intro r hr hwants s hs hkey
    have hrequest := hoverlap r.toNewRow (added_pending hadded hr) hwants s hs hkey
    obtain ⟨i, content, -, hrow, -⟩ := mem_pendingRows (added_pending hadded hr)
    simp only [NewRow.key, Prod.mk.injEq] at hkey
    refine hadded.free r hr s hs ⟨hkey.1, by rw [hkey.2.1], ?_, hrequest⟩
    rw [hrequest, hrow]
    exact Option.some_ne_none _
  have hhashes : (added.map (·.contentHash)).Nodup := by
    have hsub := hadded.sublist.map (·.contentHash)
    rw [List.map_map] at hsub
    exact hsub.nodup pendingRows_hash_nodup
  intro r hr s hs hwants hkey
  rcases hlive r hr with hr | hr
  · rcases hlive s hs with hs | hs
    · exact h r hr s hs hwants hkey
    · obtain ⟨hash, hhash, hwant⟩ := hwants
      exact absurd hkey (hnew s hs ⟨hash, hhash, by rw [← hkey, hwant]⟩ r hr)
  · rcases hlive s hs with hs | hs
    · exact absurd hkey.symm (hnew r hr hwants s hs)
    · simp only [NewRow.key, Prod.mk.injEq] at hkey
      exact List.inj_on_of_nodup_map hhashes hr hs hkey.2.2.2

end

section

variable {existing : List (String × Existing)} {added : List Row}
  (hadded : Inserted t (pendingRows env req bulkAttemptId existing) added)
  (hprov : Provenance env req bulkAttemptId
    (t.insertAll (pendingRows env req bulkAttemptId existing)).1)

include hprov in
theorem eq_of_request {n : NewRow} (hn : n ∈ pendingRows env req bulkAttemptId existing) {y : Row}
    (hy : y ∈ (t.insertAll (pendingRows env req bulkAttemptId existing)).1.live)
    (htenant : y.tenantId = n.tenantId) (hfleet : coalesceFleet y.fleetId = coalesceFleet n.fleetId)
    (hrequest : y.clientRequestId = n.clientRequestId) : y.toNewRow = n := by
  obtain ⟨i, content, hitem, rfl, -⟩ := mem_pendingRows hn
  obtain ⟨content', hitem', hrow⟩ := hprov y (Table.mem_live.mp hy).1 i htenant hfleet hrequest
  rw [hitem] at hitem'
  cases hitem'
  exact hrow

include hprov in
theorem findAttempt_row {n : NewRow} (hn : n ∈ pendingRows env req bulkAttemptId existing)
    (htaken : ∃ y ∈ (t.insertAll (pendingRows env req bulkAttemptId existing)).1.live,
      SameAttempt y.toNewRow n) :
    ∃ r ∈ (t.insertAll (pendingRows env req bulkAttemptId existing)).1.rows, r.toNewRow = n ∧
      (t.insertAll (pendingRows env req bulkAttemptId existing)).1.findAttempt n = some r.id := by
  -- The re-read of a swallowed item finds its row.
  obtain ⟨y, hy, htenant, hfleet, -, hrequest⟩ := htaken
  have hown : y.toNewRow = n := eq_of_request hprov hn hy htenant hfleet hrequest
  unfold Table.findAttempt
  cases hfind : (t.insertAll (pendingRows env req bulkAttemptId existing)).1.live.find? (fun r =>
      r.tenantId = n.tenantId && r.fleetId = n.fleetId && r.clientRequestId = n.clientRequestId) with
  | none =>
    rw [List.find?_eq_none] at hfind
    exact absurd (by rw [hown]; simp) (hfind y hy)
  | some z =>
    have hz := List.mem_of_find?_eq_some hfind
    have hmatch := List.find?_some hfind
    simp only [Bool.and_eq_true, decide_eq_true_eq] at hmatch
    have hrow : z.toNewRow = n :=
      eq_of_request hprov hn hz hmatch.1.1 (by rw [hmatch.1.2]) hmatch.2
    exact ⟨z, (Table.mem_live.mp hz).1, hrow, rfl⟩

include hadded hprov in
theorem resolveQueued_row {n : NewRow} (hn : n ∈ pendingRows env req bulkAttemptId existing) (i : ℕ) :
    ∃ r ∈ (t.insertAll (pendingRows env req bulkAttemptId existing)).1.rows, r.toNewRow = n ∧
      (resolveQueued ((pendingRows env req bulkAttemptId existing).map
        (storageResult (t.insertAll (pendingRows env req bulkAttemptId existing)))) i n).id =
          some r.id := by
  rcases resolveQueued_cases hadded hn i with ⟨r, hr, hrow, hresult⟩ | ⟨htaken, hresult⟩
  · refine ⟨r, ?_, hrow, by rw [hresult]⟩
    rw [hadded.rows]
    exact List.mem_append_right _ hr
  · obtain ⟨r, hr, hrow, hfind⟩ := findAttempt_row hprov hn htaken
    exact ⟨r, hr, hrow, by rw [hresult r.id hfind]⟩

include hadded hprov in
theorem answer_of_slot (hrecorded : Recorded req
      (t.insertAll (pendingRows env req bulkAttemptId existing)).1 existing) {i : ℕ}
    {item : Screened} {slot : Slot}
    (hget : (bulkSlots env req bulkAttemptId existing)[i]? = some slot)
    (hslot : ItemSlot req bulkAttemptId existing (bulkSlots env req bulkAttemptId existing) i item
      slot) :
    ItemAnswer req bulkAttemptId (t.insertAll (pendingRows env req bulkAttemptId existing)).1 i
      (resolve ((pendingRows env req bulkAttemptId existing).map
        (storageResult (t.insertAll (pendingRows env req bulkAttemptId existing))))
        bulkAttemptId (bulkSlots env req bulkAttemptId existing) i slot) item := by
  cases item with
  | short =>
    obtain ⟨result, rfl, hid⟩ := hslot
    exact hid
  | dropped =>
    obtain ⟨result, rfl, hid⟩ := hslot
    exact hid
  | kept content =>
    cases hslot with
    | found he =>
      obtain ⟨r, hr, hkey, rfl⟩ := hrecorded _ _ (dictGet_mem he)
      refine ⟨r, hr, ?_, hkey, ?_⟩
      · unfold resolve
        split_ifs <;> rfl
      · unfold resolve
        split_ifs with hown
        · exact fun _ => hown
        · exact fun hstatus => absurd rfl hstatus
    | repeated hfirst hhash =>
      rename_i first n
      have hn := queued_mem_pendingRows hfirst
      obtain ⟨r, hr, hrow, hid⟩ := resolveQueued_row hadded hprov hn first
      obtain ⟨j, content', -, rfl, -⟩ := mem_pendingRows hn
      unfold resolve
      simp only [hfirst, hid]
      refine ⟨r, hr, rfl, ?_, fun hstatus => absurd rfl hstatus⟩
      rw [hrow, NewRow.key, hhash]
      rfl
    | queued =>
      have hn := queued_mem_pendingRows hget
      obtain ⟨r, hr, hrow, hid⟩ := resolveQueued_row hadded hprov hn i
      refine ⟨r, hr, hid, by rw [hrow], fun _ => ?_⟩
      rw [hrow]
      rfl

include hadded hprov in
theorem answered_commit (hrecorded : Recorded req
      (t.insertAll (pendingRows env req bulkAttemptId existing)).1 existing) :
    Answered env req bulkAttemptId (t.insertAll (pendingRows env req bulkAttemptId existing)).1
      ((bulkSlots env req bulkAttemptId existing).mapIdx (resolve
        ((pendingRows env req bulkAttemptId existing).map
          (storageResult (t.insertAll (pendingRows env req bulkAttemptId existing))))
        bulkAttemptId (bulkSlots env req bulkAttemptId existing))) := by
  refine ⟨?_, fun i item hitem => ?_⟩
  · rw [List.length_mapIdx, bulkSlots_length]
  obtain ⟨slot, hget, hslot⟩ := bulkSlots_item hitem
  refine ⟨_, ?_, answer_of_slot hadded hprov hrecorded hget hslot⟩
  rw [List.getElem?_mapIdx, hget]
  rfl

end

theorem traced_empty : Traced env req bulkAttemptId World.empty where
  provenance := fun _ hr => absurd hr List.not_mem_nil
  unique := fun _ hr => absurd hr List.not_mem_nil
  recorded := fun _ hp => absurd hp List.not_mem_nil
  answered := fun _ hc => absurd hc List.not_mem_nil

variable {w : World}

theorem traced_lookup (hfleet : req.fleetId ≠ some "") (h : Traced env req bulkAttemptId w)
    (other : BulkRequest) (attempt : String) :
    Traced env req bulkAttemptId (w.perform env (.lookup other attempt)) := by
  refine ⟨h.provenance, h.unique, fun p hp hreq => ?_, h.answered⟩
  rcases List.mem_append.mp hp with hold | hnew
  · exact h.recorded p hold hreq
  · obtain rfl := List.mem_singleton.mp hnew
    obtain rfl : other = req := hreq
    exact recorded_bulkLookup hfleet

theorem traced_delete (h : Traced env req bulkAttemptId w) (id : ℕ) :
    Traced env req bulkAttemptId (w.perform env (.delete id)) where
  provenance := provenance_softDelete h.provenance id
  unique := uniqueWanted_softDelete h.unique id
  recorded := fun p hp hreq => (h.recorded p hp hreq).extends (extends_softDelete _ id)
  answered := fun c hc hreq hattempt =>
    (h.answered c hc hreq hattempt).extends (extends_softDelete _ id)

theorem perform_commit {k : ℕ} {p : Prepared} (hget : w.inFlight[k]? = some p) :
    w.perform env (.commit k) =
      ⟨(w.table.insertAll (pendingRows env p.request p.bulkAttemptId p.existing)).1,
        w.inFlight.eraseIdx k, w.done ++ [⟨p.request, p.bulkAttemptId,
          (bulkSlots env p.request p.bulkAttemptId p.existing).mapIdx (resolve
            ((pendingRows env p.request p.bulkAttemptId p.existing).map
              (storageResult (w.table.insertAll
                (pendingRows env p.request p.bulkAttemptId p.existing))))
            p.bulkAttemptId (bulkSlots env p.request p.bulkAttemptId p.existing))⟩]⟩ := by
  simp only [World.perform, hget, bulkCommit_eq]

theorem traced_commit (h : Traced env req bulkAttemptId w) (k : ℕ)
    (hsafe : w.Safe env req bulkAttemptId (.commit k)) :
    Traced env req bulkAttemptId (w.perform env (.commit k)) := by
  cases hget : w.inFlight[k]? with
  | none =>
    simp only [World.perform, hget]
    exact h
  | some p =>
    obtain ⟨hbody, hoverlap⟩ := hsafe p hget
    obtain ⟨added, hadded⟩ :=
      exists_inserted w.table (pendingRows env p.request p.bulkAttemptId p.existing)
    have hext := extends_insertAll hadded
    have hprov := provenance_insertAll hadded h.provenance hbody
    have hrecorded : p.request = req → Recorded req _ p.existing := fun hreq =>
      (h.recorded p (List.mem_of_getElem? hget) hreq).extends hext
    rw [perform_commit hget]
    refine ⟨hprov, uniqueWanted_insertAll hadded h.unique hoverlap, fun q hq hreq => ?_,
      fun c hc hreq hattempt => ?_⟩
    · exact (h.recorded q (List.mem_of_mem_eraseIdx hq) hreq).extends hext
    · rcases List.mem_append.mp hc with hold | hnew
      · exact (h.answered c hold hreq hattempt).extends hext
      · obtain rfl := List.mem_singleton.mp hnew
        obtain rfl : p.request = req := hreq
        obtain rfl : p.bulkAttemptId = bulkAttemptId := hattempt
        exact answered_commit hadded hprov (hrecorded rfl)

theorem traced_perform (hfleet : req.fleetId ≠ some "") (h : Traced env req bulkAttemptId w)
    (action : Action) (hsafe : w.Safe env req bulkAttemptId action) :
    Traced env req bulkAttemptId (w.perform env action) := by
  cases action with
  | lookup other attempt => exact traced_lookup hfleet h other attempt
  | commit k => exact traced_commit h k hsafe
  | delete id => exact traced_delete h id

theorem traced_performAll (hfleet : req.fleetId ≠ some "") (h : Traced env req bulkAttemptId w)
    (actions : List Action) (hsafe : AllSafe env req bulkAttemptId w actions) :
    Traced env req bulkAttemptId (performAll env w actions) := by
  induction actions generalizing w with
  | nil => exact h
  | cons action actions ih => exact ih (traced_perform hfleet h action hsafe.1) hsafe.2

/-- The results of a retry repeat the ids of the first results, and rows of the attempt
itself as such. -/
def Repeats (first again : List BulkItemResult) : Prop :=
  ∀ (i : ℕ) (result : BulkItemResult) (id : ℕ), first[i]? = some result → result.id = some id →
    ∃ result', again[i]? = some result' ∧ result'.id = some id ∧
      (result.status ≠ .duplicateContent → result'.status = .duplicateAttempt)

def ReportedLive (t : Table) (results : List BulkItemResult) : Prop :=
  ∀ result ∈ results, ∀ id, result.id = some id → ∃ r ∈ t.live, r.id = id

theorem Table.eq_of_row_id {r s : Row} (hr : r ∈ t.rows) (hs : s ∈ t.rows) (h : r.id = s.id) :
    r = s :=
  List.inj_on_of_nodup_map t.nodup hr hs h

theorem dictGet_bulkLookup (hfleet : req.fleetId ≠ some "") (hunique : UniqueWanted env req t)
    {h : String} (hh : h ∈ bulkHashes env req) {r : Row} (hr : r ∈ t.live)
    (hkey : r.key = (req.tenantId, req.fleetId, req.agentId, h)) :
    dictGet (bulkLookup env t req) h = some ⟨r.id, r.clientRequestId⟩ := by
  -- The one live row of a wanted key is what the lookup of the request finds.
  have hmem := bulkLookup_complete hh hr ((hashMatches_iff hfleet r).mpr hkey)
  cases hget : dictGet (bulkLookup env t req) h with
  | none => exact absurd rfl (dictGet_eq_none hget _ hmem)
  | some e =>
    obtain ⟨s, hs, hwhere, rfl⟩ := mem_bulkLookup (dictGet_mem hget)
    have hskey := (hashMatches_iff hfleet s).mp hwhere
    rw [hunique r hr s hs ⟨h, hh, hkey⟩ (hkey.trans hskey.symm)]

section

variable (hfleet : req.fleetId ≠ some "") (hunique : UniqueWanted env req t)
  {results : List BulkItemResult} (hanswered : Answered env req bulkAttemptId t results)
  (hlive : ReportedLive t results)

include hfleet hunique hanswered hlive

theorem lookup_answered {i : ℕ} {content : String}
    (hitem : (req.items.map (screen env req.tenantId))[i]? = some (.kept content)) :
    ∃ (result : BulkItemResult) (r : Row), results[i]? = some result ∧ result.id = some r.id ∧
      (result.status ≠ .duplicateContent →
        r.clientRequestId = some (itemRequestId bulkAttemptId i)) ∧
      dictGet (bulkLookup env t req) (contentHash req.tenantId req.fleetId content) =
        some ⟨r.id, r.clientRequestId⟩ := by
  obtain ⟨result, hget, r, hr, hid, hkey, hown⟩ := hanswered.2 i _ hitem
  obtain ⟨s, hs, hsid⟩ := hlive result (List.mem_of_getElem? hget) r.id hid
  obtain rfl := Table.eq_of_row_id (Table.mem_live.mp hs).1 hr hsid
  exact ⟨result, s, hget, hid, hown, dictGet_bulkLookup hfleet hunique (mem_bulkHashes hitem) hs hkey⟩

theorem retry_pendingRows : pendingRows env req bulkAttemptId (bulkLookup env t req) = [] := by
  refine List.eq_nil_iff_forall_not_mem.mpr fun n hn => ?_
  obtain ⟨i, content, hitem, rfl, hnone⟩ := mem_pendingRows hn
  obtain ⟨result, r, -, -, -, hfound⟩ := lookup_answered hfleet hunique hanswered hlive hitem
  cases hfound.symm.trans hnone

theorem retry_slot {i : ℕ} {result : BulkItemResult} {id : ℕ} (hget : results[i]? = some result)
    (hid : result.id = some id) :
    ∃ result', (bulkSlots env req bulkAttemptId (bulkLookup env t req))[i]? = some (.done result') ∧
      result'.id = some id ∧ (result.status ≠ .duplicateContent →
        result'.status = .duplicateAttempt) := by
  -- The slot of an item in a retry: its result repeats the first one.
  have hnothing := retry_pendingRows hfleet hunique hanswered hlive
  obtain ⟨content, hitem⟩ := hanswered.kept_of_id hget hid
  obtain ⟨slot, hslot, hkept⟩ : ∃ slot,
    (bulkSlots env req bulkAttemptId (bulkLookup env t req))[i]? = some slot ∧ _ :=
    bulkSlots_item hitem
  obtain ⟨first, r, hfirst, hrow, hown, hfound⟩ :=
    lookup_answered hfleet hunique hanswered hlive hitem
  rw [hget] at hfirst
  cases hfirst
  rw [hid] at hrow
  cases hrow
  cases hkept with
  | found he =>
    rw [hfound] at he
    cases he
    refine ⟨_, hslot, ?_, fun hstatus => ?_⟩
    · split_ifs <;> rfl
    · rw [if_pos (hown hstatus)]
  | repeated hfirst _ =>
    have hmem := queued_mem_pendingRows hfirst
    rw [hnothing] at hmem
    exact absurd hmem List.not_mem_nil
  | queued =>
    have hmem := queued_mem_pendingRows hslot
    rw [hnothing] at hmem
    exact absurd hmem List.not_mem_nil

/-- The retry inserts nothing, whatever the table has become since its lookup, and repeats
the first answer. -/
theorem retry_answered (t' : Table) :
    ∃ again, bulkCommit env t' req bulkAttemptId (bulkLookup env t req) = some (t', again) ∧
      Repeats results again := by
  have hcommit : bulkCommit env t' req bulkAttemptId (bulkLookup env t req) = some _ :=
    bulkCommit_eq t'
  rw [retry_pendingRows hfleet hunique hanswered hlive] at hcommit
  refine ⟨_, hcommit, fun i result id hget hid => ?_⟩
  obtain ⟨result', hslot, hid', hstatus⟩ := retry_slot hfleet hunique hanswered hlive hget hid
  refine ⟨result', ?_, hid', hstatus⟩
  rw [List.getElem?_mapIdx, hslot]
  rfl

end

/-- Retry safety. After a run whose inserts do not overlap with the contents of a request, a
retry of an attempt that committed it inserts no row and repeats the answer, provided that
the rows of the answer are still there. The table of the retry's insert is any: what runs
between its lookup and its insert does not matter. -/
theorem retry_repeats (env : WriteEnv) (req : BulkRequest) (bulkAttemptId : String)
    (hfleet : req.fleetId ≠ some "") (actions : List Action)
    (hsafe : AllSafe env req bulkAttemptId World.empty actions) :
    ∀ c ∈ (performAll env World.empty actions).done, c.request = req →
      c.bulkAttemptId = bulkAttemptId →
      ReportedLive (performAll env World.empty actions).table c.results →
      ∀ t, ∃ again, bulkCommit env t req bulkAttemptId
          (bulkLookup env (performAll env World.empty actions).table req) = some (t, again) ∧
        Repeats c.results again := by
  intro c hc hreq hattempt hlive t
  have htraced := traced_performAll hfleet traced_empty actions hsafe
  exact retry_answered hfleet htraced.unique (htraced.answered c hc hreq hattempt) hlive t

def greenBatch : BulkRequest := ⟨"t", some "f", "a", ["the build is green"]⟩

/-- Both lookups run before either insert. -/
def overlappingAttempts : List Action :=
  [.lookup greenBatch "A", .lookup greenBatch "B", .commit 0, .commit 0]

/-- The retry of the first attempt is answered with the row of the second. -/
theorem overlap_breaks_retry :
    ∃ c ∈ (performAll plainEnv World.empty overlappingAttempts).done,
      c.request = greenBatch ∧ c.bulkAttemptId = "A" ∧
      c.results = [⟨0, "A:0", .created, some 0, none, none⟩] ∧
      ReportedLive (performAll plainEnv World.empty overlappingAttempts).table c.results ∧
      ¬ ∃ t again, createMemoriesBulk plainEnv
          (performAll plainEnv World.empty overlappingAttempts).table greenBatch "A" =
            some (t, again) ∧ Repeats c.results again := by
  have hretry : (createMemoriesBulk plainEnv
      (performAll plainEnv World.empty overlappingAttempts).table greenBatch "A").map (·.2) =
        some [⟨0, "A:0", .duplicateContent, some 1, some 1, none⟩] := by decide +kernel
  refine ⟨⟨greenBatch, "A", [⟨0, "A:0", .created, some 0, none, none⟩]⟩, ?_, rfl, rfl, rfl, ?_, ?_⟩
  · have hdone : (performAll plainEnv World.empty overlappingAttempts).done =
        [⟨greenBatch, "A", [⟨0, "A:0", .created, some 0, none, none⟩]⟩,
          ⟨greenBatch, "B", [⟨0, "B:0", .created, some 1, none, none⟩]⟩] := by decide
    rw [hdone]
    exact List.mem_cons_self
  · intro result hresult id hid
    obtain rfl := List.mem_singleton.mp hresult
    cases hid
    decide
  · rintro ⟨t, again, hagain, hrepeats⟩
    rw [hagain] at hretry
    obtain rfl := Option.some.inj hretry
    obtain ⟨result', hget, hid, -⟩ := hrepeats 0 _ 0 rfl rfl
    cases hget
    cases hid

def buildsBatch : BulkRequest := ⟨"t", some "f", "a", ["the build is green", "the build is red"]⟩

def neighbourBatch : BulkRequest := ⟨"t", some "f", "b", ["the build is green"]⟩

def neighbouringAttempts : List Action :=
  [.lookup neighbourBatch "B", .lookup buildsBatch "A", .commit 1, .commit 0]

def buildsResults : List BulkItemResult :=
  [⟨0, "A:0", .created, some 0, none, none⟩, ⟨1, "A:1", .created, some 1, none, none⟩]

theorem neighbour_safe : AllSafe plainEnv buildsBatch "A" World.empty neighbouringAttempts := by
  refine ⟨trivial, trivial, fun p hp => ?_, fun p hp => ?_, trivial⟩
  · obtain rfl := Option.some.inj hp
    exact ⟨fun _ _ _ => rfl, noOverlap_of_lookup (by decide) rfl⟩
  · -- The rows of the other agent have keys of its own.
    rw [perform_commit rfl] at hp
    obtain rfl := Option.some.inj hp
    refine ⟨fun hattempt => absurd hattempt (by decide), fun n hn hwants => ?_⟩
    obtain ⟨i, content, -, rfl, -⟩ := mem_pendingRows hn
    obtain ⟨h, -, hkey⟩ := hwants
    have hagent : "b" = "a" := congrArg (fun key => key.2.2.1) hkey
    exact absurd hagent (by decide)

theorem neighbour_outcome :
    (performAll plainEnv World.empty neighbouringAttempts).done = [⟨buildsBatch, "A", buildsResults⟩,
        ⟨neighbourBatch, "B", [⟨0, "B:0", .created, some 2, none, none⟩]⟩] ∧
      ∀ result ∈ buildsResults, ∀ id ∈ result.id,
        ∃ r ∈ (performAll plainEnv World.empty neighbouringAttempts).table.live, r.id = id := by
  decide +kernel

/-- An attempt of two items, with another agent's attempt for one of the contents around it. -/
theorem retry_repeats_neighbour :
    ∃ again, createMemoriesBulk plainEnv (performAll plainEnv World.empty neighbouringAttempts).table
        buildsBatch "A" =
          some ((performAll plainEnv World.empty neighbouringAttempts).table, again) ∧
      Repeats buildsResults again := by
  refine retry_repeats plainEnv buildsBatch "A" (by decide) _ neighbour_safe
    ⟨buildsBatch, "A", buildsResults⟩ ?_ rfl rfl neighbour_outcome.2 _
  rw [neighbour_outcome.1]
  exact List.mem_cons_self

end Memclaw.Write

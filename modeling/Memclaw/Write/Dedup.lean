import Memclaw.Write.Bulk

/-! Exact dedup over whole runs. Single and bulk writes look their key up before they
insert; the auto-chunk branch, the fan-out and content updates of memories in a fleet do
not. A run in which these writers bring only new keys keeps every key unique. -/

namespace Memclaw.Write

open Memclaw.Lib

inductive Request
  | create (req : WriteRequest)
  | bulk (req : BulkRequest) (bulkAttemptId : String)
  | fanOut (tenantId : String) (fleetId : Option String) (agentId : String) (facts : List String)
  | update (id : ℕ) (tenantId content : String) (nearDuplicate : Bool)
  | delete (id : ℕ)

def Request.serve (env : WriteEnv) (t : Table) : Request → Table
  | create req => (createMemory env t req).1
  | bulk req bulkAttemptId => ((createMemoriesBulk env t req bulkAttemptId).map (·.1)).getD t
  | fanOut tenantId fleetId agentId facts => Write.fanOut t tenantId fleetId agentId facts
  | update id tenantId content nearDuplicate => (updateMemory t id tenantId content nearDuplicate).1
  | delete id => t.softDelete id

def serveAll (env : WriteEnv) : Table → List Request → Table
  | t, [] => t
  | t, request :: requests => serveAll env (request.serve env t) requests

/-- The lookup of a write sees the rows with its key, or there are none. -/
def LookupSees (t : Table) (n : NewRow) : Prop :=
  n.fleetId ≠ some "" ∨ ∀ r ∈ t.live, r.key ≠ n.key

/-- A request keeps out of the writers' blind spots: what auto-chunking and the fan-out
write is new, no other row of a fleet has the content of an update, and an empty fleet id
comes with new contents only. -/
def Request.Meets (env : WriteEnv) (t : Table) : Request → Prop
  | create req => ∀ content, screen env req.tenantId req.content = .kept content →
      if chunkingThresholdChars < req.content.length ∧ req.autoChunkEnabled ∧ 1 < req.facts.length then
        KeysFree t (req.row content :: req.facts.map req.childRow)
      else LookupSees t (req.row content)
  | bulk req bulkAttemptId => ∀ i content,
      (req.items.map (screen env req.tenantId))[i]? = some (.kept content) →
      LookupSees t (itemRow req bulkAttemptId i content)
  | fanOut tenantId fleetId agentId facts =>
      KeysFree t (facts.map (factRow tenantId fleetId agentId))
  | update id tenantId content _ => ∀ mem ∈ t.live, mem.id = id → mem.tenantId = tenantId →
      mem.fleetId = none ∨ ∀ r ∈ t.live, r.id ≠ id → r.key ≠
        (tenantId, mem.fleetId, mem.agentId, contentHash tenantId mem.fleetId content)
  | delete _ => True

def AllMeet (env : WriteEnv) : Table → List Request → Prop
  | _, [] => True
  | t, request :: requests => request.Meets env t ∧ AllMeet env (request.serve env t) requests

variable {env : WriteEnv} {t : Table}

theorem uniqueLive_memoryAdd (hu : UniqueLive t) {n : NewRow} (hfree : ∀ r ∈ t.live, r.key ≠ n.key) :
    UniqueLive (t.memoryAdd n).1 := by
  unfold Table.memoryAdd
  cases hinsert : t.insert n with
  | none => exact hu
  | some t' => exact uniqueLive_insert hinsert hu hfree

theorem keyFree_of_lookup {n : NewRow} (hsees : LookupSees t n)
    (hnone : t.findByContentHash n.tenantId n.contentHash n.fleetId (some n.agentId) = .none) :
    ∀ r ∈ t.live, r.key ≠ n.key := by
  -- Nothing found means that the key is free, where the lookup sees it.
  rcases hsees with hfleet | hfree
  · have hnil := scalarOneOrNone_none hnone
    rw [List.filter_eq_nil_iff] at hnil
    exact fun r hr hkey => hnil r hr ((hashMatches_iff hfleet r).mpr hkey)
  · exact hfree

theorem uniqueLive_persist (hu : UniqueLive t) (mode : WriteMode) (req : WriteRequest)
    (content : String) (hsees : LookupSees t (req.row content)) :
    UniqueLive (persist mode t req content).1 := by
  unfold persist
  simp only []
  cases hfind : t.findByContentHash (req.row content).tenantId (req.row content).contentHash
      (req.row content).fleetId (some (req.row content).agentId) with
  | multiple => exact hu
  | one r => exact hu
  | none =>
    simp only []
    split_ifs
    · exact hu
    · exact uniqueLive_memoryAdd hu (keyFree_of_lookup hsees hfind)

theorem uniqueLive_handleAutoChunk (hu : UniqueLive t) (req : WriteRequest) (content : String)
    (hmany : 1 < req.facts.length)
    (hfree : KeysFree t (req.row content :: req.facts.map req.childRow)) :
    UniqueLive (handleAutoChunk t req content).1 := by
  unfold handleAutoChunk
  rw [if_pos hmany]
  cases hinsert : t.insert (req.row content) with
  | none => exact hu
  | some t' =>
    have hu' : UniqueLive t' := uniqueLive_insert hinsert hu hfree.head
    simp only []
    cases hadd : t'.memoryAddAll (req.facts.map req.childRow) with
    | none => exact hu'
    | some added => exact uniqueLive_memoryAddAll hu' (hfree.insert hinsert) hadd

theorem uniqueLive_createMemory (hu : UniqueLive t) (req : WriteRequest)
    (hmeets : (Request.create req).Meets env t) : UniqueLive (createMemory env t req).1 := by
  unfold createMemory
  cases hscreen : screen env req.tenantId req.content with
  | short => exact hu
  | dropped => exact hu
  | kept content =>
    have hcontent := hmeets content hscreen
    simp only []
    by_cases hlong : chunkingThresholdChars < req.content.length ∧ req.autoChunkEnabled
    · rw [if_pos hlong]
      by_cases hmany : 1 < req.facts.length
      · rw [if_pos ⟨hlong.1, hlong.2, hmany⟩] at hcontent
        exact uniqueLive_handleAutoChunk hu req content hmany hcontent
      · rw [if_neg fun h => hmany h.2.2] at hcontent
        rw [handleAutoChunk, if_neg hmany]
        exact uniqueLive_persist hu .strong req content hcontent
    · rw [if_neg hlong]
      rw [if_neg fun h => hlong ⟨h.1, h.2.1⟩] at hcontent
      split_ifs
      · exact hu
      · exact uniqueLive_persist hu req.mode req content hcontent

theorem uniqueLive_fanOut (hu : UniqueLive t) (tenantId : String) (fleetId : Option String)
    (agentId : String) (facts : List String)
    (hfree : KeysFree t (facts.map (factRow tenantId fleetId agentId))) :
    UniqueLive (fanOut t tenantId fleetId agentId facts) := by
  induction facts generalizing t with
  | nil => exact hu
  | cons fact facts ih =>
    obtain ⟨t', hinsert⟩ := Table.insert_of_no_request
      (rfl : (factRow tenantId fleetId agentId fact).clientRequestId = none)
    rw [fanOut, hinsert, Option.getD_some]
    exact ih (uniqueLive_insert hinsert hu hfree.head) (hfree.insert hinsert)

theorem keyFree_of_duplicate_lookup {id : ℕ} {tenantId agentId hash : String}
    (hnone : t.findDuplicateHash tenantId hash none (some id) none = .none) :
    ∀ r ∈ t.live, r.id ≠ id → r.key ≠ (tenantId, none, agentId, hash) := by
  have hnil := scalarOneOrNone_none hnone
  rw [List.filter_eq_nil_iff] at hnil
  intro r hr hid hkey
  simp only [NewRow.key, Prod.mk.injEq] at hkey
  refine hnil r hr ?_
  simp [hashMatches, fleetMatches, hkey, hid]

theorem uniqueLive_updateMemory (hu : UniqueLive t) (id : ℕ) (tenantId content : String)
    (nearDuplicate : Bool) (hmeets : (Request.update id tenantId content nearDuplicate).Meets env t) :
    UniqueLive (updateMemory t id tenantId content nearDuplicate).1 := by
  unfold updateMemory
  cases hfind : t.live.find? (fun r => r.id = id && r.tenantId = tenantId) with
  | none => exact hu
  | some mem =>
    have hmem := List.mem_of_find?_eq_some hfind
    obtain ⟨rfl, rfl⟩ : mem.id = id ∧ mem.tenantId = tenantId := by
      simpa using List.find?_some hfind
    simp only []
    by_cases hsame : content = mem.content
    · rw [if_pos hsame]
      exact hu
    rw [if_neg hsame]
    cases hdup : t.findDuplicateHash mem.tenantId (contentHash mem.tenantId mem.fleetId content) none
        (some mem.id) none with
    | multiple => exact hu
    | one r => exact hu
    | none =>
      simp only []
      split_ifs
      · exact hu
      refine uniqueLive_setContent hu hmem ?_
      rcases hmeets mem hmem rfl rfl with hfleet | hfree
      · rw [hfleet] at hdup ⊢
        exact keyFree_of_duplicate_lookup hdup
      · exact hfree

theorem keysFree_pending (req : BulkRequest) (bulkAttemptId : String)
    (hmeets : (Request.bulk req bulkAttemptId).Meets env t) :
    KeysFree t (pendingRows env req bulkAttemptId (bulkLookup env t req)) := by
  constructor
  · refine List.Nodup.of_map (fun key => key.2.2.2) ?_
    rw [List.map_map]
    exact pendingRows_hash_nodup
  · intro n hn r hr hkey
    obtain ⟨i, content, hitem, rfl, hnone⟩ := mem_pendingRows hn
    rcases hmeets i content hitem with hfleet | hfree
    · have hfound := bulkLookup_complete (mem_bulkHashes hitem) hr
        ((hashMatches_iff hfleet r).mpr hkey)
      exact dictGet_eq_none hnone _ hfound rfl
    · exact hfree r hr hkey

theorem uniqueLive_bulk (hu : UniqueLive t) (req : BulkRequest) (bulkAttemptId : String)
    (hmeets : (Request.bulk req bulkAttemptId).Meets env t) :
    UniqueLive ((Request.bulk req bulkAttemptId).serve env t) := by
  unfold Request.serve createMemoriesBulk bulkCommit
  simp only []
  cases hadd : t.memoryAddAll (pendingRows env req bulkAttemptId (bulkLookup env t req)) with
  | none => exact hu
  | some added => exact uniqueLive_memoryAddAll hu (keysFree_pending req bulkAttemptId hmeets) hadd

theorem uniqueLive_serve (hu : UniqueLive t) (request : Request) (hmeets : request.Meets env t) :
    UniqueLive (request.serve env t) := by
  cases request with
  | create req => exact uniqueLive_createMemory hu req hmeets
  | bulk req bulkAttemptId => exact uniqueLive_bulk hu req bulkAttemptId hmeets
  | fanOut tenantId fleetId agentId facts =>
    exact uniqueLive_fanOut hu tenantId fleetId agentId facts hmeets
  | update id tenantId content nearDuplicate =>
    exact uniqueLive_updateMemory hu id tenantId content nearDuplicate hmeets
  | delete id => exact uniqueLive_softDelete hu id

theorem uniqueLive_serveAll (hu : UniqueLive t) (requests : List Request)
    (hmeets : AllMeet env t requests) : UniqueLive (serveAll env t requests) := by
  induction requests generalizing t with
  | nil => exact hu
  | cons request requests ih => exact ih (uniqueLive_serve hu request hmeets.1) hmeets.2

theorem persist_conflict (hu : UniqueLive t) (mode : WriteMode) (req : WriteRequest)
    (content : String) (hfleet : req.fleetId ≠ some "") {r : Row} (hr : r ∈ t.live)
    (hkey : r.key = (req.row content).key) : (persist mode t req content).2 = .conflict r.id := by
  have hfind : t.findByContentHash (req.row content).tenantId (req.row content).contentHash
      (req.row content).fleetId (some (req.row content).agentId) = .one r := by
    have hmatch := (hashMatches_iff hfleet r).mpr hkey
    have hmem : r ∈ t.live.filter (hashMatches (req.row content).tenantId
        (req.row content).fleetId (some (req.row content).agentId) (req.row content).contentHash) :=
      List.mem_filter.mpr ⟨hr, hmatch⟩
    cases hfound : t.findByContentHash (req.row content).tenantId (req.row content).contentHash
        (req.row content).fleetId (some (req.row content).agentId) with
    | none =>
      rw [scalarOneOrNone_none hfound] at hmem
      exact absurd hmem List.not_mem_nil
    | multiple => exact absurd hfound (findByContentHash_ne_multiple hu _ _ _ _)
    | one s =>
      rw [scalarOneOrNone_one hfound, List.mem_singleton] at hmem
      rw [hmem]
  unfold persist
  simp only [hfind]

theorem persist_ne_serverError (hu : UniqueLive t) (mode : WriteMode) (req : WriteRequest)
    (content : String) : (persist mode t req content).2 ≠ .serverError := by
  unfold persist
  simp only []
  cases hfind : t.findByContentHash (req.row content).tenantId (req.row content).contentHash
      (req.row content).fleetId (some (req.row content).agentId) with
  | multiple => exact absurd hfind (findByContentHash_ne_multiple hu _ _ _ _)
  | one r => simp
  | none =>
    simp only []
    split_ifs
    · simp
    · obtain ⟨t', hinsert⟩ := Table.insert_of_no_request
        (rfl : (req.row content).clientRequestId = none)
      rw [Table.memoryAdd, hinsert]
      simp

theorem handleAutoChunk_ne_serverError (hu : UniqueLive t) (req : WriteRequest) (content : String) :
    (handleAutoChunk t req content).2 ≠ .serverError := by
  unfold handleAutoChunk
  split_ifs with hmany
  · obtain ⟨t', hinsert⟩ := Table.insert_of_no_request
      (rfl : (req.row content).clientRequestId = none)
    have hrequest : ∀ n ∈ req.facts.map req.childRow, n.clientRequestId.getD "" ≠ "" := by
      intro n hn
      obtain ⟨fact, -, rfl⟩ := List.mem_map.mp hn
      simp [WriteRequest.childRow, autoChunkRequestId]
    have hscope : ∀ n ∈ req.facts.map req.childRow, ∀ m ∈ req.facts.map req.childRow,
        n.tenantId = m.tenantId ∧ n.fleetId = m.fleetId := by
      intro n hn m hm
      obtain ⟨fact, -, rfl⟩ := List.mem_map.mp hn
      obtain ⟨fact', -, rfl⟩ := List.mem_map.mp hm
      exact ⟨rfl, rfl⟩
    rw [hinsert]
    simp only [t'.memoryAddAll_accepts hrequest hscope]
    simp
  · exact persist_ne_serverError hu .strong req content

theorem createMemory_ne_serverError (hu : UniqueLive t) (req : WriteRequest) :
    (createMemory env t req).2 ≠ .serverError := by
  unfold createMemory
  cases screen env req.tenantId req.content with
  | short => simp
  | dropped => simp
  | kept content =>
    simp only []
    split_ifs
    · exact handleAutoChunk_ne_serverError hu req content
    · simp
    · exact persist_ne_serverError hu req.mode req content

/-- In every state that requests which meet the condition lead to, a key has at most one
live row, no lookup for an agent finds several, no write is a server error and a repeated
write is a conflict. -/
theorem serveAll_dedup (env : WriteEnv) (requests : List Request)
    (hmeets : AllMeet env Table.empty requests) :
    UniqueLive (serveAll env Table.empty requests) ∧
      (∀ tenantId hash fleetId agentId, (serveAll env Table.empty requests).findByContentHash tenantId
        hash fleetId (some agentId) ≠ .multiple) ∧
      (∀ req, (createMemory env (serveAll env Table.empty requests) req).2 ≠ .serverError) ∧
      ∀ (req : WriteRequest) (content : String), screen env req.tenantId req.content = .kept content →
        ¬ (chunkingThresholdChars < req.content.length ∧ req.autoChunkEnabled) →
        req.policyRefuses = false → req.fleetId ≠ some "" →
        ∀ r ∈ (serveAll env Table.empty requests).live, r.key = (req.row content).key →
          (createMemory env (serveAll env Table.empty requests) req).2 = .conflict r.id := by
  have hu := uniqueLive_serveAll uniqueLive_empty requests hmeets
  refine ⟨hu, findByContentHash_ne_multiple hu, createMemory_ne_serverError hu, ?_⟩
  intro req content hscreen hshort hpolicy hfleet r hr hkey
  rw [createMemory, hscreen]
  simp only [if_neg hshort, hpolicy, Bool.false_eq_true, if_false]
  exact persist_conflict hu req.mode req content hfleet hr hkey

def fleetWrite (content : String) : WriteRequest where
  tenantId := "t"
  fleetId := some "f"
  agentId := "a"
  content := content
  mode := .fast
  autoChunkEnabled := false
  policyRefuses := false
  nearDuplicate := false
  facts := []

def updateToDuplicate : List Request := [
  .create (fleetWrite "the build is green"), .create (fleetWrite "the build is red"),
  .update 1 "t" "the build is green" false]

/-- The update is accepted, and the next write of the content is a server error. -/
theorem update_breaks_dedup :
    ¬ UniqueLive (serveAll plainEnv Table.empty updateToDuplicate) ∧
      (createMemory plainEnv (serveAll plainEnv Table.empty updateToDuplicate)
        (fleetWrite "the build is green")).2 = .serverError := by
  unfold UniqueLive
  decide +kernel

theorem serveAll_dedup_one :
    (createMemory plainEnv (serveAll plainEnv Table.empty [.create (fleetWrite "the build is green")])
      (fleetWrite "the build is green")).2 = .conflict 0 := by
  have hmeets : AllMeet plainEnv Table.empty [.create (fleetWrite "the build is green")] := by
    refine ⟨fun content _ => ?_, trivial⟩
    rw [if_neg (by decide)]
    have hfleet : (fleetWrite "the build is green").fleetId ≠ some "" := by decide
    exact .inl hfleet
  refine (serveAll_dedup plainEnv _ hmeets).2.2.2 (fleetWrite "the build is green")
    "the build is green" (by decide) (by decide) rfl (by decide)
    ⟨(fleetWrite "the build is green").row "the build is green", 0, false⟩ ?_ rfl
  decide +kernel

end Memclaw.Write

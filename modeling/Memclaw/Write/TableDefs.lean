import Mathlib.Data.List.Nodup
import Mathlib.Tactic.Common

/-! The `memories` table as the write path uses it: inserts under the unique index of
bulk attempts, and the lookups by content hash. -/

namespace Memclaw.Write

structure NewRow where
  tenantId : String
  fleetId : Option String
  agentId : String
  content : String
  contentHash : String
  clientRequestId : Option String
deriving DecidableEq

structure Row extends NewRow where
  id : ℕ
  deleted : Bool
deriving DecidableEq

def coalesceFleet (fleetId : Option String) : String := fleetId.getD ""

def SameAttempt (r s : NewRow) : Prop :=
  r.tenantId = s.tenantId ∧ coalesceFleet r.fleetId = coalesceFleet s.fleetId ∧
    r.clientRequestId ≠ none ∧ r.clientRequestId = s.clientRequestId

instance (r s : NewRow) : Decidable (SameAttempt r s) := inferInstanceAs (Decidable (_ ∧ _ ∧ _ ∧ _))

/-- Two live rows that the index does not allow beside each other. -/
def Clash (r s : Row) : Prop :=
  r.deleted = false ∧ s.deleted = false ∧ SameAttempt r.toNewRow s.toNewRow

/-- The table. Ids are drawn in order; nothing depends on more than that they are new. -/
structure Table where
  rows : List Row
  nextId : ℕ
  fresh : ∀ r ∈ rows, r.id < nextId
  nodup : (rows.map (·.id)).Nodup
  attempts : rows.Pairwise fun r s => ¬ Clash r s

def Table.empty : Table where
  rows := []
  nextId := 0
  fresh := by simp
  nodup := List.nodup_nil
  attempts := List.Pairwise.nil

def Table.live (t : Table) : List Row := t.rows.filter (!·.deleted)

def Table.attemptTaken (t : Table) (n : NewRow) : Bool := t.live.any fun r => SameAttempt r.toNewRow n

def Table.insert (t : Table) (n : NewRow) : Option Table :=
  if h : t.attemptTaken n then none
  else some {
    rows := t.rows ++ [⟨n, t.nextId, false⟩]
    nextId := t.nextId + 1
    fresh := by
      intro r hr
      rcases List.mem_append.mp hr with hold | hnew
      · exact Nat.lt_succ_of_lt (t.fresh r hold)
      · rw [List.mem_singleton.mp hnew]
        exact Nat.lt_succ_self _
    nodup := by
      rw [List.map_append, List.nodup_append]
      refine ⟨t.nodup, by simp, ?_⟩
      rintro id hid id' hid' rfl
      obtain ⟨r, hr, rfl⟩ := List.mem_map.mp hid
      have hnext : r.id = t.nextId := by simpa using hid'
      exact absurd (t.fresh r hr) (by omega)
    attempts := by
      rw [List.pairwise_append]
      refine ⟨t.attempts, List.pairwise_singleton _ _, ?_⟩
      intro r hr s hs hclash
      rw [List.mem_singleton.mp hs] at hclash
      refine h (List.any_eq_true.mpr ⟨r, List.mem_filter.mpr ⟨hr, ?_⟩, ?_⟩)
      · rw [hclash.1]
        rfl
      · exact decide_eq_true hclash.2.2 }

/-- `INSERT … ON CONFLICT DO NOTHING RETURNING`: the new table and the returned ids. -/
def Table.insertAll (t : Table) : List NewRow → Table × List (Option String × ℕ)
  | [] => (t, [])
  | n :: items =>
    match t.insert n with
    | none => t.insertAll items
    | some t' =>
      let rest := t'.insertAll items
      (rest.1, (n.clientRequestId, t.nextId) :: rest.2)

structure StorageResult where
  clientRequestId : Option String
  id : Option ℕ
  wasInserted : Bool
deriving DecidableEq

def Table.findAttempt (t : Table) (n : NewRow) : Option ℕ :=
  (t.live.find? fun r =>
    r.tenantId = n.tenantId && r.fleetId = n.fleetId && r.clientRequestId = n.clientRequestId).map (·.id)

def storageResult (inserted : Table × List (Option String × ℕ)) (n : NewRow) : StorageResult :=
  match inserted.2.find? (·.1 = n.clientRequestId) with
  | some entry => ⟨n.clientRequestId, some entry.2, true⟩
  | none => ⟨n.clientRequestId, inserted.1.findAttempt n, false⟩

def Table.memoryAddAll (t : Table) (items : List NewRow) : Option (Table × List StorageResult) :=
  match items with
  | [] => some (t, [])
  | first :: _ =>
    if items.any (fun n => n.clientRequestId.getD "" = "") then none
    else if items.any (fun n => n.tenantId ≠ first.tenantId || n.fleetId ≠ first.fleetId) then none
    else some ((t.insertAll items).1, items.map (storageResult (t.insertAll items)))

/-- `scalar_one_or_none`: several rows raise. -/
inductive ScalarResult
  | none
  | one (r : Row)
  | multiple
deriving DecidableEq

def scalarOneOrNone : List Row → ScalarResult
  | [] => .none
  | [r] => .one r
  | _ => .multiple

/-- `fleet_id = :fleet_id` for a truthy id, else `fleet_id IS NULL`. -/
def fleetMatches (fleetId : Option String) (r : Row) : Bool :=
  if fleetId.getD "" ≠ "" then r.fleetId = fleetId else r.fleetId.isNone

def hashMatches (tenantId : String) (fleetId : Option String) (agentId : Option String)
    (contentHash : String) (r : Row) : Bool :=
  r.tenantId = tenantId && r.contentHash = contentHash && fleetMatches fleetId r &&
    (agentId.isNone || some r.agentId = agentId)

def Table.findByContentHash (t : Table) (tenantId contentHash : String) (fleetId : Option String)
    (agentId : Option String) : ScalarResult :=
  scalarOneOrNone (t.live.filter (hashMatches tenantId fleetId agentId contentHash))

def Table.findDuplicateHash (t : Table) (tenantId contentHash : String) (fleetId : Option String)
    (excludeId : Option ℕ) (agentId : Option String) : ScalarResult :=
  scalarOneOrNone (t.live.filter fun r =>
    hashMatches tenantId fleetId agentId contentHash r && some r.id ≠ excludeId)

structure Existing where
  id : ℕ
  clientRequestId : Option String
deriving DecidableEq

/-- `memory_bulk_find_by_content_hashes`, before its rows become a dict; `order` is the
order in which the query returns them. -/
def Table.bulkFindByContentHashes (t : Table) (order : List Row → List Row) (tenantId : String)
    (hashes : List String) (fleetId : Option String) (agentId : Option String) :
    List (String × Existing) :=
  (order (t.live.filter fun r =>
    hashes.contains r.contentHash && hashMatches tenantId fleetId agentId r.contentHash r)).map
      fun r => (r.contentHash, ⟨r.id, r.clientRequestId⟩)

def dictGet {α : Type} (pairs : List (String × α)) (key : String) : Option α :=
  ((pairs.filter (·.1 = key)).getLast?).map (·.2)

/-- A change that keeps ids and revives no attempt. -/
def Table.map (t : Table) (f : Row → Row) (hid : ∀ r, (f r).id = r.id)
    (hclash : ∀ r s, Clash (f r) (f s) → Clash r s) : Table where
  rows := t.rows.map f
  nextId := t.nextId
  fresh := by
    intro r hr
    obtain ⟨r', hr', rfl⟩ := List.mem_map.mp hr
    rw [hid]
    exact t.fresh r' hr'
  nodup := by
    rw [List.map_map, show (fun r : Row => r.id) ∘ f = (·.id) from funext hid]
    exact t.nodup
  attempts := by
    rw [List.pairwise_map]
    exact t.attempts.imp fun h hf => h (hclash _ _ hf)

def Row.softDelete (id : ℕ) (r : Row) : Row := if r.id = id then { r with deleted := true } else r

def Row.setContent (id : ℕ) (tenantId content contentHash : String) (r : Row) : Row :=
  if r.id = id ∧ r.tenantId = tenantId ∧ r.deleted = false then { r with content, contentHash } else r

theorem Row.softDelete_clash (id : ℕ) (r s : Row) (h : Clash (r.softDelete id) (s.softDelete id)) :
    Clash r s := by
  unfold Row.softDelete Clash at *
  split_ifs at h <;> simp_all

theorem Row.setContent_clash (id : ℕ) (tenantId content contentHash : String) (r s : Row)
    (h : Clash (r.setContent id tenantId content contentHash)
      (s.setContent id tenantId content contentHash)) : Clash r s := by
  unfold Row.setContent at h
  split_ifs at h <;> exact h

def Table.softDelete (t : Table) (id : ℕ) : Table :=
  t.map (Row.softDelete id) (fun r => by unfold Row.softDelete; split_ifs <;> rfl)
    (Row.softDelete_clash id)

def Table.setContent (t : Table) (id : ℕ) (tenantId content contentHash : String) : Table :=
  t.map (Row.setContent id tenantId content contentHash)
    (fun r => by unfold Row.setContent; split_ifs <;> rfl)
    (Row.setContent_clash id tenantId content contentHash)

end Memclaw.Write

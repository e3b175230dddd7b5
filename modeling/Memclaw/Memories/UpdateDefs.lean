import Memclaw.Api.AuthDefs
import Memclaw.Memories.TableDefs
import Memclaw.Write.ServiceDefs

/-! The body of `PATCH /memories/{id}` and the patch that `update_memory` sends for it. -/

namespace Memclaw.Memories

open Memclaw.Lib Memclaw.Api
open Memclaw.Contradiction (Status Visibility)
open Memclaw.Write (contentHash)

variable {V : Type}

inductive MetadataMode
  | merge
  | replace
deriving DecidableEq

structure MemoryUpdate where
  content : Option (Option String) := none
  memoryType : Option (Option MemoryType) := none
  weight : Option (Option ℚ) := none
  title : Option (Option String) := none
  status : Option (Option Status) := none
  visibility : Option (Option Visibility) := none
  metadata : Option (Option Dict) := none
  metadataMode : Option MetadataMode := none
  sourceUri : Option (Option String) := none
  subjectEntityId : Option (Option ℕ) := none
  predicate : Option (Option String) := none
  objectValue : Option (Option String) := none
  tsValidStart : Option (Option ℕ) := none
  tsValidEnd : Option (Option ℕ) := none
  expiresAt : Option (Option ℕ) := none
  entityLinks : Option (Option (List (ℕ × String))) := none

def MemoryUpdate.isEmpty (data : MemoryUpdate) : Bool :=
  data.content.isNone && data.memoryType.isNone && data.weight.isNone && data.title.isNone &&
    data.status.isNone && data.visibility.isNone && data.metadata.isNone &&
    data.metadataMode.isNone && data.sourceUri.isNone && data.subjectEntityId.isNone &&
    data.predicate.isNone && data.objectValue.isNone && data.tsValidStart.isNone &&
    data.tsValidEnd.isNone && data.expiresAt.isNone && data.entityLinks.isNone

def MemoryUpdate.contentChanged (data : MemoryUpdate) (mem : Memory V) : Bool :=
  match data.content with
  | none => false
  | some content => content ≠ some mem.content

/-- A field of `simple_fields` is sent when it differs from what was read. An instant never
equals the text that was read, and is then sent as it is. -/
def changedField {α : Type} [DecidableEq α] (field : Option α) (old : α) : Option α :=
  field.filter (· ≠ old)

def MemoryUpdate.metadataKeys (data : MemoryUpdate) :
    Except HTTPException (Option (Option Dict) × Option Dict) :=
  match data.metadata, data.metadataMode.getD .merge with
  | none, _ => .ok (none, none)
  | some metadata, .replace => .ok (some metadata, none)
  | some none, .merge =>
    .error ⟨400, "metadata=null has no effect in merge mode; " ++
      "use metadata_mode=\"replace\" to clear the column"⟩
  | some (some metadata), .merge => .ok (none, if metadata = [] then none else some metadata)

/-- The columns of a content change. The embedding stays out when the provider failed. -/
def contentPatch (mem : Memory V) (content : String) (newEmbedding : Option V) : Patch V where
  content := some content
  embedding := newEmbedding
  contentHash := some (contentHash mem.tenantId mem.fleetId content)
  supersedesId := if mem.supersedesId.isSome then some none else none
  status := if mem.status = .outdated ∨ mem.status = .conflicted then some (some .active) else none

/-- What a content change starts the patch with; a content of null raises. -/
def MemoryUpdate.basePatch (data : MemoryUpdate) (mem : Memory V) (newEmbedding : Option V) :
    Except HTTPException (Patch V) :=
  if data.contentChanged mem then
    match data.content.getD none with
    | none => .error serverError
    | some content => .ok (contentPatch mem content newEmbedding)
  else .ok {}

/-- The patch of a body for the row that was read. A `subject_entity_id` raises, since JSON
cannot hold it. -/
def MemoryUpdate.patch (data : MemoryUpdate) (mem : Memory V) (newEmbedding : Option V) :
    Except HTTPException (Patch V) := do
  let base ← data.basePatch mem newEmbedding
  let keys ← data.metadataKeys
  if data.isEmpty then .error ⟨400, "No fields to update"⟩
  else if (data.subjectEntityId.getD none).isSome then .error serverError
  else .ok { base with
    memoryType := changedField data.memoryType (some mem.memoryType)
    weight := changedField data.weight mem.weight
    title := changedField data.title mem.title
    status := (changedField data.status (some mem.status)).or base.status
    visibility := changedField data.visibility (some mem.visibility)
    sourceUri := changedField data.sourceUri mem.sourceUri
    subjectEntityId := changedField data.subjectEntityId mem.subjectEntityId
    predicate := changedField data.predicate mem.predicate
    objectValue := changedField data.objectValue mem.objectValue
    tsValidStart := changedField data.tsValidStart mem.tsValidStart
    tsValidEnd := changedField data.tsValidEnd mem.tsValidEnd
    expiresAt := changedField data.expiresAt mem.expiresAt
    metadata := keys.1
    metadataPatch := keys.2 }

theorem MemoryUpdate.patch_eq_ok {data : MemoryUpdate} {mem : Memory V} {newEmbedding : Option V}
    {patch : Patch V} (h : data.patch mem newEmbedding = .ok patch) :
    ∃ base, data.basePatch mem newEmbedding = .ok base ∧ patch.content = base.content ∧
      patch.embedding = base.embedding ∧ patch.contentHash = base.contentHash ∧
      patch.status = (changedField data.status (some mem.status)).or base.status := by
  unfold MemoryUpdate.patch at h
  cases hbase : data.basePatch mem newEmbedding with
  | error e =>
    rw [hbase] at h
    exact nomatch h
  | ok base =>
    cases hkeys : data.metadataKeys with
    | error e =>
      rw [hbase, hkeys] at h
      exact nomatch h
    | ok keys =>
      rw [hbase, hkeys] at h
      simp only [bind, Except.bind] at h
      split at h
      · exact nomatch h
      · split at h
        · exact nomatch h
        · obtain rfl := Except.ok.inj h
          exact ⟨base, rfl, rfl, rfl, rfl, rfl⟩

end Memclaw.Memories

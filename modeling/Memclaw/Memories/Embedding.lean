import Mathlib.Data.List.Rotate
import Memclaw.Memories.EnrichDefs
import Memclaw.Memories.Statements
import Memclaw.Memories.UpdateDefs

/-! The writers of embeddings as parties that take turns over the table: creates, updates of the
content, deliveries of embed requests and the re-embedding in process. Each reads the table in one
turn and writes in another. Stored embeddings against the content beside them. In every run whose
writes land on rows that still hold the text they were computed from, and whose hashes tell texts
apart, each vector is the one of its row's content. -/

namespace Memclaw.Memories

open Memclaw.Lib Memclaw.Lib.Interleave
open Memclaw.Write (contentHash)

variable {V : Type}

/-- `memory_update_embedding`; like the status update it does not ask for a live row. -/
def Table.memoryUpdateEmbedding (t : Table V) (id : ℕ) (tenantId : String) (embedding : V) :
    Table V :=
  Rows.update (Memory.at id tenantId) (fun m => { m with embedding := some embedding }) t

def Memory.hashFound (tenantId hash : String) (m : Memory V) : Bool :=
  m.tenantId = tenantId && m.contentHash = some hash && m.embedding.isSome && m.live

/-- `memory_find_embedding_by_content_hash`: `LIMIT 1` without an order gives any match. -/
def Table.findEmbeddingByContentHash (t : Table V) (tenantId hash : String) (pick : ℕ) :
    Option V :=
  ((t.filter (Memory.hashFound tenantId hash)).rotate pick).head?.bind (·.embedding)

def Write.keepsText : Write V → Bool
  | .memoryAdd _ _ => false
  | .memoryUpdate _ _ patch =>
    patch.content.isNone && patch.embedding.isNone && patch.contentHash.isNone
  | _ => true

structure EmbedRequest where
  memoryId : ℕ
  content : String
  tenantId : String
  contentHash : Option String

structure EmbedState (V : Type) where
  table : Table V
  requests : List EmbedRequest

inductive EmbedTask (V : Type)
  | idle
  | create (data : NewMemory V)
  | update (mem : Memory V) (patch : Patch V)
  | deliver (request : EmbedRequest) (embedding : V)
  | reembed (request : EmbedRequest) (embedding : V)

/-- A call with what its surroundings answer: whether the provider returns a vector, which
row a lookup returns, and the latency of the write. A lookup of the worker that fails is a
miss. Any request is delivered or worked off any number of times. -/
inductive EmbedCall
  | create (data : MemoryCreate) (writeMode : Option String)
      (enrichment : Option EnrichmentResult) (embedded : Bool) (pick writeMs : ℕ)
  | update (memoryId : ℕ) (tenantId : String) (data : MemoryUpdate) (embedded : Bool)
  | deliver (request : ℕ) (embedded : Bool) (pick : Option ℕ)
  | reembed (request : ℕ) (embedded : Bool)
  | backfill (memoryId : ℕ) (tenantId : String)

/-- A turn. A refusal, a duplicate, a raised exception or a storage error end a call without
a write. -/
inductive EmbedTurn (V : Type)
  | start (call : EmbedCall)
  | finish (now : ℕ)
  | fail
  | statement (w : {w : Write V // w.keepsText = true})

def getEmbedding (embed : String → V) (embedded : Bool) (content : String) : Option V :=
  if embedded then some (embed content) else none

/-- `ComputeContentHash` and `ParallelEmbedEnrich`: a lookup when embeddings are computed
inline, else the provider, which the strong mode always asks. -/
def createEmbedding (inlineEmbedding : Bool) (embed : String → V) (t : Table V)
    (data : MemoryCreate) (writeMode : Option String) (embedded : Bool) (pick : ℕ) : Option V :=
  let hash := contentHash data.tenantId data.fleetId data.content
  let cached :=
    if inlineEmbedding then t.findEmbeddingByContentHash data.tenantId hash pick else none
  match cached with
  | some embedding => some embedding
  | none =>
    if writeMode = some "strong" ∨ inlineEmbedding = true then
      getEmbedding embed embedded data.content
    else none

def deliverEmbedding (embed : String → V) (t : Table V) (request : EmbedRequest) (embedded : Bool)
    (pick : Option ℕ) : Option V :=
  let cached := match request.contentHash, pick with
    | some hash, some pick => t.findEmbeddingByContentHash request.tenantId hash pick
    | _, _ => none
  cached.or (getEmbedding embed embedded request.content)

def startCall (inlineEmbedding : Bool) (embed : String → V) (s : EmbedState V) :
    EmbedCall → EmbedTask V × EmbedState V
  | .create data writeMode enrichment embedded pick writeMs =>
    (.create (writeMemoryRow data
      (createEmbedding inlineEmbedding embed s.table data writeMode embedded pick)
      (some (contentHash data.tenantId data.fleetId data.content))
      (mergeEnrichmentFields data enrichment writeMode) writeMs), s)
  | .update memoryId tenantId data embedded =>
    match s.table.getForTenant memoryId tenantId with
    | none => (.idle, s)
    | some mem =>
      let newEmbedding := if data.contentChanged mem then
          (data.content.getD none).bind (getEmbedding embed embedded)
        else none
      match data.patch mem newEmbedding with
      | .error _ => (.idle, s)
      | .ok patch => (.update mem patch, s)
  | .deliver request embedded pick =>
    match s.requests[request]? with
    | none => (.idle, s)
    | some request =>
      match deliverEmbedding embed s.table request embedded pick with
      | none => (.idle, s)
      | some embedding => (.deliver request embedding, s)
  | .reembed request embedded =>
    match s.requests[request]? with
    | none => (.idle, s)
    | some request =>
      match getEmbedding embed embedded request.content with
      | none => (.idle, s)
      | some embedding =>
        match (s.table.get request.memoryId).filter (·.live) with
        | none => (.idle, s)
        | some mem =>
          if mem.embedding.isSome then (.idle, s) else (.reembed request embedding, s)
  | .backfill memoryId tenantId =>
    match s.table.getForTenant memoryId tenantId with
    | none => (.idle, s)
    | some mem =>
      if mem.content = "" then (.idle, s)
      else (.idle, { s with
        requests := s.requests ++ [⟨mem.id, mem.content, tenantId, mem.contentHash⟩] })

/-- The write of a call. A row without a vector has a request published for it. -/
def finishCall (now : ℕ) (s : EmbedState V) : EmbedTask V → EmbedState V
  | .idle => s
  | .create data =>
    { table := s.table.memoryAdd data now
      requests := if data.embedding.isSome then s.requests else
        s.requests ++ [⟨s.table.length, data.content, data.tenantId, data.contentHash⟩] }
  | .update mem patch =>
    match s.table.memoryUpdate mem.id mem.tenantId patch with
    | none => s
    | some (_, t) => { s with table := t }
  | .deliver request embedding =>
    match s.table.memoryUpdate request.memoryId request.tenantId
        { embedding := some embedding
          metadataPatch := some [("embedding_pending", .bool false)] } with
    | none => s
    | some (_, t) => { s with table := t }
  | .reembed request embedding =>
    { s with table := s.table.memoryUpdateEmbedding request.memoryId request.tenantId embedding }

def embedTurn (inlineEmbedding : Bool) (embed : String → V) (turn : EmbedTurn V)
    (task : EmbedTask V) (s : EmbedState V) : EmbedTask V × EmbedState V :=
  match turn, task with
  | .start call, .idle => startCall inlineEmbedding embed s call
  | .start _, task => (task, s)
  | .finish now, task => (.idle, finishCall now s task)
  | .fail, _ => (.idle, s)
  | .statement w, task => (task, { s with table := step s.table w.1 })

def Table.Sound (embed : String → V) (t : Table V) : Prop :=
  ∀ m ∈ t, ∀ v, m.embedding = some v → v = embed m.content

def SameRow (m m' : Memory V) : Prop :=
  m'.id = m.id ∧ m'.tenantId = m.tenantId ∧ m'.fleetId = m.fleetId

theorem SameRow.refl (m : Memory V) : SameRow m m := ⟨rfl, rfl, rfl⟩

structure Memory.Consistent (embed : String → V) (m : Memory V) : Prop where
  sound : ∀ v, m.embedding = some v → v = embed m.content
  hashed : ∀ hash, m.contentHash = some hash →
    hash = Write.contentHash m.tenantId m.fleetId m.content

section Condition

variable (embed : String → V)

/-- Whatever row a lookup by hash can find has the vector of the text looked up. -/
def TellsApart (t : Table V) (tenantId hash text : String) : Prop :=
  ∀ m ∈ t, m.tenantId = tenantId → m.live = true → m.embedding.isSome = true →
    contentHash tenantId m.fleetId m.content = hash → embed m.content = embed text

def MayStart (inlineEmbedding : Bool) (s : EmbedState V) : EmbedCall → Prop
  | .create data _ _ _ _ _ => inlineEmbedding = true →
    TellsApart embed s.table data.tenantId
      (contentHash data.tenantId data.fleetId data.content) data.content
  | .deliver n _ _ => ∀ request ∈ s.requests[n]?, ∀ hash ∈ request.contentHash,
    TellsApart embed s.table request.tenantId hash request.content
  | _ => True

/-- What a call may write: a content without its vector only to a row without one or with
the same, and a vector only to a row whose content has it. -/
def MayFinish (s : EmbedState V) : EmbedTask V → Prop
  | .update mem patch => patch.embedding.isNone = true → ∀ content ∈ patch.content,
    ∀ m ∈ s.table, m.at mem.id mem.tenantId = true → m.live = true →
      m.embedding.isNone = true ∨ embed m.content = embed content
  | .deliver request _ => ∀ m ∈ s.table, m.at request.memoryId request.tenantId = true →
    m.live = true → embed m.content = embed request.content
  | .reembed request _ => ∀ m ∈ s.table, m.at request.memoryId request.tenantId = true →
    embed m.content = embed request.content
  | _ => True

def EmbedPermitted {ι : Type} (inlineEmbedding : Bool) (pool : Pool ι (EmbedState V) (EmbedTask V))
    (event : ι × EmbedTurn V) : Prop :=
  match event.2 with
  | .start call => MayStart embed inlineEmbedding pool.shared call
  | .finish _ => MayFinish embed pool.shared (pool.parties event.1)
  | _ => True

variable [DecidableEq V]

instance TellsApart.decidable (t : Table V) (tenantId hash text : String) :
    Decidable (TellsApart embed t tenantId hash text) :=
  inferInstanceAs (Decidable (∀ m ∈ t, m.tenantId = tenantId → m.live = true →
    m.embedding.isSome = true → contentHash tenantId m.fleetId m.content = hash →
      embed m.content = embed text))

instance MayStart.decidable (inlineEmbedding : Bool) (s : EmbedState V) :
    ∀ call, Decidable (MayStart embed inlineEmbedding s call)
  | .create data _ _ _ _ _ => inferInstanceAs (Decidable (inlineEmbedding = true →
    TellsApart embed s.table data.tenantId
      (contentHash data.tenantId data.fleetId data.content) data.content))
  | .deliver n _ _ => inferInstanceAs (Decidable (∀ request ∈ s.requests[n]?,
    ∀ hash ∈ request.contentHash,
      TellsApart embed s.table request.tenantId hash request.content))
  | .update _ _ _ _ => .isTrue trivial
  | .reembed _ _ => .isTrue trivial
  | .backfill _ _ => .isTrue trivial

instance MayFinish.decidable (s : EmbedState V) : ∀ task, Decidable (MayFinish embed s task)
  | .update mem patch => inferInstanceAs (Decidable (patch.embedding.isNone = true →
    ∀ content ∈ patch.content, ∀ m ∈ s.table, m.at mem.id mem.tenantId = true → m.live = true →
      m.embedding.isNone = true ∨ embed m.content = embed content))
  | .deliver request _ => inferInstanceAs (Decidable (∀ m ∈ s.table,
    m.at request.memoryId request.tenantId = true → m.live = true →
      embed m.content = embed request.content))
  | .reembed request _ => inferInstanceAs (Decidable (∀ m ∈ s.table,
    m.at request.memoryId request.tenantId = true → embed m.content = embed request.content))
  | .idle => .isTrue trivial
  | .create _ => .isTrue trivial

instance EmbedPermitted.decidable {ι : Type} (inlineEmbedding : Bool)
    (pool : Pool ι (EmbedState V) (EmbedTask V)) :
    ∀ event, Decidable (EmbedPermitted embed inlineEmbedding pool event)
  | (_, .start call) =>
    inferInstanceAs (Decidable (MayStart embed inlineEmbedding pool.shared call))
  | (i, .finish _) => inferInstanceAs (Decidable (MayFinish embed pool.shared (pool.parties i)))
  | (_, .fail) => .isTrue trivial
  | (_, .statement _) => .isTrue trivial

end Condition

theorem step_sameRow (t : Table V) (w : Write V) : Rows.Evolves SameRow t (step t w) := by
  rcases step_cases t w with ⟨data, now, -, hrows⟩ | hsame | hrows
  · rw [hrows]
    exact Rows.Evolves.append SameRow.refl t _
  · rw [hsame]
    exact Rows.Evolves.refl SameRow.refl t
  · rw [hrows]
    refine Rows.Evolves.update SameRow.refl fun m _ _ => ?_
    cases w <;> exact ⟨rfl, rfl, rfl⟩

theorem Write.rewrite_consistent {embed : String → V} {w : Write V} (hw : w.keepsText = true)
    {m : Memory V} (h : m.Consistent embed) : (w.rewrite m).Consistent embed := by
  cases w with
  | memoryAdd data now => exact h
  | memoryUpdate id tenantId patch =>
    -- the patch writes neither of the three columns
    simp only [Write.keepsText, Bool.and_eq_true, Option.isNone_iff_eq_none] at hw
    obtain ⟨⟨hcontent, hembedding⟩, hhash⟩ := hw
    refine ⟨?_, ?_⟩
    · simpa [Write.rewrite, Patch.apply, hcontent, hembedding] using h.sound
    · simpa [Write.rewrite, Patch.apply, hcontent, hhash] using h.hashed
  | softDeleteWhere p now => exact ⟨h.sound, h.hashed⟩
  | memoryUpdateStatus u => exact ⟨h.sound, h.hashed⟩
  | retract u => exact ⟨h.sound, h.hashed⟩
  | setSupersedes id tenantId supersedesId => exact ⟨h.sound, h.hashed⟩
  | insightsRestorePriors tenantId priorIds => exact ⟨h.sound, h.hashed⟩

theorem step_consistent {embed : String → V} {t : Table V} (h : ∀ m ∈ t, m.Consistent embed)
    {w : Write V} (hw : w.keepsText = true) : ∀ m ∈ step t w, m.Consistent embed := by
  rcases step_cases t w with ⟨data, now, rfl, -⟩ | hsame | hrows
  · exact nomatch hw
  · rw [hsame]
    exact h
  · rw [hrows]
    exact Rows.forall_update h fun m _ _ hm => Write.rewrite_consistent hw hm

theorem findEmbeddingByContentHash_eq_some {t : Table V} {tenantId hash : String} {pick : ℕ}
    {v : V} (h : t.findEmbeddingByContentHash tenantId hash pick = some v) :
    ∃ m ∈ t, m.hashFound tenantId hash = true ∧ m.embedding = some v := by
  obtain ⟨m, hhead, hv⟩ := Option.bind_eq_some_iff.mp h
  have hmem := List.mem_of_head? hhead
  rw [List.mem_rotate, List.mem_filter] at hmem
  exact ⟨m, hmem.1, hmem.2, hv⟩

theorem lookup_sound {embed : String → V} {t : Table V} (h : ∀ m ∈ t, m.Consistent embed)
    {tenantId hash text : String} (happart : TellsApart embed t tenantId hash text) {pick : ℕ}
    {v : V} (hv : t.findEmbeddingByContentHash tenantId hash pick = some v) : v = embed text := by
  obtain ⟨m, hm, hfound, hembedding⟩ := findEmbeddingByContentHash_eq_some hv
  simp only [Memory.hashFound, Bool.and_eq_true, decide_eq_true_eq] at hfound
  obtain ⟨⟨⟨htenant, hhash⟩, hsome⟩, hlive⟩ := hfound
  have hrow := (h m hm).hashed hash hhash
  rw [htenant] at hrow
  exact ((h m hm).sound v hembedding).trans (happart m hm htenant hlive hsome hrow.symm)

theorem getEmbedding_sound {embed : String → V} {embedded : Bool} {content : String} {v : V}
    (h : getEmbedding embed embedded content = some v) : v = embed content := by
  unfold getEmbedding at h
  split at h
  · exact (Option.some.inj h).symm
  · exact nomatch h

theorem createEmbedding_sound {embed : String → V} {inlineEmbedding : Bool} {t : Table V}
    (h : ∀ m ∈ t, m.Consistent embed) {data : MemoryCreate}
    (happart : inlineEmbedding = true → TellsApart embed t data.tenantId
      (contentHash data.tenantId data.fleetId data.content) data.content)
    {writeMode : Option String} {embedded : Bool} {pick : ℕ} {v : V}
    (hv : createEmbedding inlineEmbedding embed t data writeMode embedded pick = some v) :
    v = embed data.content := by
  simp only [createEmbedding] at hv
  split at hv
  · next cached hcached =>
    obtain rfl := Option.some.inj hv
    split at hcached
    · next hinline => exact lookup_sound h (happart hinline) hcached
    · exact nomatch hcached
  · split at hv
    · exact getEmbedding_sound hv
    · exact nomatch hv

theorem deliverEmbedding_sound {embed : String → V} {t : Table V}
    (h : ∀ m ∈ t, m.Consistent embed) {request : EmbedRequest}
    (happart : ∀ hash ∈ request.contentHash,
      TellsApart embed t request.tenantId hash request.content)
    {embedded : Bool} {pick : Option ℕ} {v : V}
    (hv : deliverEmbedding embed t request embedded pick = some v) : v = embed request.content := by
  simp only [deliverEmbedding, Option.or_eq_some_iff] at hv
  rcases hv with hcached | ⟨-, hprovider⟩
  · split at hcached
    · next hash _ hhash => exact lookup_sound h (happart hash hhash) hcached
    · exact nomatch hcached
  · exact getEmbedding_sound hprovider

def PatchOk (embed : String → V) (mem : Memory V) (patch : Patch V) : Prop :=
  (patch.content = none ∧ patch.embedding = none ∧ patch.contentHash = none) ∨
    ∃ content, patch.content = some content ∧
      patch.contentHash = some (contentHash mem.tenantId mem.fleetId content) ∧
      ∀ v, patch.embedding = some v → v = embed content

theorem patch_ok {embed : String → V} {data : MemoryUpdate} {mem : Memory V} {embedded : Bool}
    {patch : Patch V}
    (h : data.patch mem (if data.contentChanged mem then
      (data.content.getD none).bind (getEmbedding embed embedded) else none) = .ok patch) :
    PatchOk embed mem patch := by
  obtain ⟨base, hbase, hcontent, hembedding, hhash, -⟩ := MemoryUpdate.patch_eq_ok h
  unfold PatchOk
  rw [hcontent, hembedding, hhash]
  unfold MemoryUpdate.basePatch at hbase
  split at hbase
  · next hchanged =>
    split at hbase
    · exact nomatch hbase
    · next content hsome =>
      obtain rfl := Except.ok.inj hbase
      refine .inr ⟨content, rfl, rfl, fun v hv => ?_⟩
      simp only [contentPatch, hsome, Option.bind_some] at hv
      exact getEmbedding_sound hv
  · obtain rfl := Except.ok.inj hbase
    exact .inl ⟨rfl, rfl, rfl⟩

theorem PatchOk.apply {embed : String → V} {mem m : Memory V} {patch : Patch V}
    (hpatch : PatchOk embed mem patch) (htenant : m.tenantId = mem.tenantId)
    (hfleet : m.fleetId = mem.fleetId) (h : m.Consistent embed)
    (hlands : patch.embedding.isNone = true → ∀ content ∈ patch.content,
      m.embedding.isNone = true ∨ embed m.content = embed content) :
    (patch.apply m).Consistent embed := by
  rcases hpatch with ⟨hcontent, hembedding, hhash⟩ | ⟨content, hcontent, hhash, hvector⟩
  · refine ⟨?_, ?_⟩
    · simpa [Patch.apply, hcontent, hembedding] using h.sound
    · simpa [Patch.apply, hcontent, hhash] using h.hashed
  · refine ⟨fun v hv => ?_, fun hash hhash' => ?_⟩
    · simp only [Patch.apply, hcontent, Option.getD_some] at hv ⊢
      cases hnew : patch.embedding with
      | some new =>
        rw [hnew, Option.some_or] at hv
        exact hvector v (hnew.trans hv)
      | none =>
        -- the provider failed, and the vector of the old text stays
        rw [hnew, Option.none_or] at hv
        rcases hlands (by rw [hnew]; rfl) content hcontent with hnone | hsame
        · rw [hv] at hnone
          exact nomatch hnone
        · exact (h.sound v hv).trans hsame
    · simp only [Patch.apply, hcontent, hhash, Option.some_or, Option.getD_some,
        Option.some.injEq] at hhash' ⊢
      rw [htenant, hfleet, hhash']

section Turns

variable (embed : String → V)

def TaskOk (s : EmbedState V) : EmbedTask V → Prop
  | .idle => True
  | .create data =>
    data.contentHash = some (contentHash data.tenantId data.fleetId data.content) ∧
      ∀ v, data.embedding = some v → v = embed data.content
  | .update mem patch =>
    PatchOk embed mem patch ∧ ∃ m, s.table[mem.id]? = some m ∧ SameRow mem m
  | .deliver request embedding => embedding = embed request.content
  | .reembed request embedding => embedding = embed request.content

structure EmbedInv (s : EmbedState V) : Prop where
  numbered : s.table.Numbered
  consistent : ∀ m ∈ s.table, m.Consistent embed

variable {embed}

theorem EmbedInv.start : EmbedInv embed (⟨[], []⟩ : EmbedState V) :=
  ⟨Table.Numbered.nil, fun _ h => nomatch h⟩

theorem SameRow.trans {a b c : Memory V} (h : SameRow a b) (h' : SameRow b c) : SameRow a c :=
  ⟨h'.1.trans h.1, h'.2.1.trans h.2.1, h'.2.2.trans h.2.2⟩

theorem TaskOk.evolves {s s' : EmbedState V} (hrows : Rows.Evolves SameRow s.table s'.table)
    {task : EmbedTask V} (h : TaskOk embed s task) : TaskOk embed s' task := by
  cases task with
  | update mem patch =>
    obtain ⟨hpatch, m, hm, hsame⟩ := h
    obtain ⟨m', hm', hsame'⟩ := hrows mem.id m hm
    exact ⟨hpatch, m', hm', hsame.trans hsame'⟩
  | idle => trivial
  | create data => exact h
  | deliver request embedding => exact h
  | reembed request embedding => exact h

theorem startCall_ok {inlineEmbedding : Bool} {s : EmbedState V} (h : EmbedInv embed s)
    {call : EmbedCall} (hok : MayStart embed inlineEmbedding s call) :
    (startCall inlineEmbedding embed s call).2.table = s.table ∧
      TaskOk embed s (startCall inlineEmbedding embed s call).1 := by
  -- The reads of a call leave the table alone and establish what the call knows.
  cases call with
  | create data writeMode enrichment embedded pick writeMs =>
    exact ⟨rfl, rfl, fun v hv => createEmbedding_sound h.consistent hok hv⟩
  | update memoryId tenantId data embedded =>
    simp only [startCall]
    split
    · exact ⟨rfl, trivial⟩
    · next mem hmem =>
      split
      · exact ⟨rfl, trivial⟩
      · next patch hpatch =>
        obtain ⟨hget, hid, -, -⟩ := getForTenant_eq_some h.numbered hmem
        exact ⟨rfl, patch_ok hpatch, mem, hid.symm ▸ hget, SameRow.refl mem⟩
  | deliver n embedded pick =>
    simp only [startCall]
    split
    · exact ⟨rfl, trivial⟩
    · next request hrequest =>
      split
      · exact ⟨rfl, trivial⟩
      · next embedding hembedding =>
        exact ⟨rfl, deliverEmbedding_sound h.consistent (hok request hrequest) hembedding⟩
  | reembed n embedded =>
    simp only [startCall]
    split
    · exact ⟨rfl, trivial⟩
    · split
      · exact ⟨rfl, trivial⟩
      · next embedding hembedding =>
        split
        · exact ⟨rfl, trivial⟩
        · split
          · exact ⟨rfl, trivial⟩
          · exact ⟨rfl, getEmbedding_sound hembedding⟩
  | backfill memoryId tenantId =>
    simp only [startCall]
    split
    · exact ⟨rfl, trivial⟩
    · split
      · exact ⟨rfl, trivial⟩
      · exact ⟨rfl, trivial⟩

theorem EmbedInv.update {s : EmbedState V} (h : EmbedInv embed s) {p : Memory V → Bool}
    {f : Memory V → Memory V} (hf : ∀ m, SameRow m (f m))
    (hlands : ∀ m ∈ s.table, p m = true → (f m).Consistent embed)
    {s' : EmbedState V} (hs' : s'.table = Rows.update p f s.table) :
    EmbedInv embed s' ∧ Rows.Evolves SameRow s.table s'.table := by
  -- The table after the write of a call: a row more, no change, or rows rewritten in place.
  refine ⟨⟨?_, ?_⟩, ?_⟩
  · rw [hs']
    exact h.numbered.update fun m => (hf m).1
  · rw [hs']
    exact Rows.forall_update h.consistent fun m hm hp _ => hlands m hm hp
  · rw [hs']
    exact Rows.Evolves.update SameRow.refl fun m _ _ => hf m

theorem EmbedInv.same {s s' : EmbedState V} (h : EmbedInv embed s) (hs' : s'.table = s.table) :
    EmbedInv embed s' ∧ Rows.Evolves SameRow s.table s'.table := by
  refine ⟨⟨hs' ▸ h.numbered, hs' ▸ h.consistent⟩, ?_⟩
  rw [hs']
  exact Rows.Evolves.refl SameRow.refl s.table

theorem EmbedInv.memoryUpdate {s : EmbedState V} (h : EmbedInv embed s) {id : ℕ}
    {tenantId : String} {patch : Patch V}
    (hlands : ∀ m ∈ s.table, m.at id tenantId = true → m.live = true →
      (patch.apply m).Consistent embed) {s' : EmbedState V}
    (hs' : s' = match s.table.memoryUpdate id tenantId patch with
      | none => s
      | some (_, t) => { s with table := t }) :
    EmbedInv embed s' ∧ Rows.Evolves SameRow s.table s'.table := by
  split at hs'
  · exact h.same (by rw [hs'])
  · next found t hupdate =>
    rcases memoryUpdate_cases hupdate with hsame | ⟨-, hrows⟩
    · exact h.same (by rw [hs', hsame])
    · have hrow : ∀ m : Memory V, SameRow m (patch.apply m) := fun m => ⟨rfl, rfl, rfl⟩
      refine h.update hrow (fun m hm hp => ?_) (by rw [hs', hrows])
      obtain ⟨hat, hlive⟩ := Bool.and_eq_true_iff.mp hp
      exact hlands m hm hat hlive

theorem finishCall_ok {s : EmbedState V} (h : EmbedInv embed s) {task : EmbedTask V}
    (htask : TaskOk embed s task) (hok : MayFinish embed s task) (now : ℕ) :
    EmbedInv embed (finishCall now s task) ∧
      Rows.Evolves SameRow s.table (finishCall now s task).table := by
  cases task with
  | idle => exact h.same rfl
  | create data =>
    obtain ⟨hhash, hvector⟩ := htask
    refine ⟨⟨h.numbered.append rfl, Rows.forall_append h.consistent ⟨hvector, ?_⟩⟩, ?_⟩
    · intro hash hsome
      exact Option.some.inj (hsome.symm.trans hhash)
    · exact Rows.Evolves.append SameRow.refl s.table _
  | update mem patch =>
    obtain ⟨hpatch, row, hrow, hsame⟩ := htask
    refine h.memoryUpdate (fun m hm hat hlive => ?_) rfl
    -- the row of the id is the one that was read
    obtain ⟨hm', htenant⟩ := h.numbered.at_eq hrow hm hat
    refine hpatch.apply htenant (hm' ▸ hsame.2.2) (h.consistent m hm) ?_
    intro hnone content hcontent
    exact hok hnone content hcontent m hm hat hlive
  | deliver request embedding =>
    refine h.memoryUpdate (fun m hm hat hlive => ?_) rfl
    refine ⟨fun v hv => ?_, (h.consistent m hm).hashed⟩
    have hvector : embedding = v := Option.some.inj hv
    exact hvector ▸ htask.trans (hok m hm hat hlive).symm
  | reembed request embedding =>
    have hrow : ∀ m : Memory V, SameRow m { m with embedding := some embedding } :=
      fun m => ⟨rfl, rfl, rfl⟩
    refine h.update hrow (fun m hm hat => ?_) rfl
    refine ⟨fun v hv => ?_, (h.consistent m hm).hashed⟩
    have hvector : embedding = v := Option.some.inj hv
    exact hvector ▸ htask.trans (hok m hm hat).symm

end Turns

section Runs

variable {ι : Type} [DecidableEq ι]

def EmbedPool.start : Pool ι (EmbedState V) (EmbedTask V) := ⟨⟨[], []⟩, fun _ => .idle⟩

abbrev EmbedPool.Holds (embed : String → V) (pool : Pool ι (EmbedState V) (EmbedTask V)) : Prop :=
  pool.Holds (EmbedInv embed) (fun _ task s => TaskOk embed s task) (fun _ _ => True)

/-- A turn that keeps the table's invariant and moves its rows in place. -/
theorem EmbedPool.Holds.turn {inlineEmbedding : Bool} {embed : String → V}
    {pool : Pool ι (EmbedState V) (EmbedTask V)} (h : EmbedPool.Holds embed pool)
    (event : ι × EmbedTurn V) (next : EmbedTask V × EmbedState V)
    (hnext : embedTurn inlineEmbedding embed event.2 (pool.parties event.1) pool.shared = next)
    (hinv : EmbedInv embed next.2 ∧ Rows.Evolves SameRow pool.shared.table next.2.table)
    (hown : TaskOk embed next.2 next.1) :
    EmbedPool.Holds embed (pool.step (embedTurn inlineEmbedding embed) event) :=
  Pool.Holds.step h event next hnext hinv.1 hown (fun j _ => (h.own j).evolves hinv.2)
    (fun _ _ => ⟨trivial, trivial⟩)

theorem EmbedPool.Holds.next {inlineEmbedding : Bool} {embed : String → V}
    {pool : Pool ι (EmbedState V) (EmbedTask V)} (h : EmbedPool.Holds embed pool)
    {event : ι × EmbedTurn V} (hok : EmbedPermitted embed inlineEmbedding pool event) :
    EmbedPool.Holds embed (pool.step (embedTurn inlineEmbedding embed) event) := by
  obtain ⟨i, turn⟩ := event
  have hown := h.own i
  cases turn with
  | start call =>
    cases htask : pool.parties i with
    | idle =>
      obtain ⟨hsame, hstarted⟩ := startCall_ok h.shared hok
      have hinv := h.shared.same hsame
      refine h.turn (i, .start call) (startCall inlineEmbedding embed pool.shared call) ?_ hinv
        (hstarted.evolves hinv.2)
      simp only [htask, embedTurn]
    | _ =>
      -- a party that is in a call has to finish it first
      refine h.turn (i, .start call) (pool.parties i, pool.shared) ?_ (h.shared.same rfl) hown
      simp only [htask, embedTurn]
  | finish now =>
    exact h.turn (i, .finish now) _ rfl (finishCall_ok h.shared hown hok now) trivial
  | fail => exact h.turn (i, .fail) _ rfl (h.shared.same rfl) trivial
  | statement w =>
    have hrows := step_sameRow pool.shared.table w.1
    refine h.turn (i, .statement w) _ rfl ⟨⟨?_, ?_⟩, hrows⟩ (hown.evolves hrows)
    · exact step_numbered h.shared.numbered w.1
    · exact step_consistent h.shared.consistent w.2

theorem embeddings_sound (inlineEmbedding : Bool) (embed : String → V)
    {events : List (ι × EmbedTurn V)}
    (hok : Along (Pool.step (embedTurn inlineEmbedding embed))
      (EmbedPermitted embed inlineEmbedding) EmbedPool.start events) :
    (run (Pool.step (embedTurn inlineEmbedding embed)) EmbedPool.start
      events).shared.table.Sound embed := by
  have hstart : EmbedPool.Holds embed (EmbedPool.start : Pool ι (EmbedState V) (EmbedTask V)) :=
    ⟨EmbedInv.start, fun _ => trivial, fun _ _ _ => trivial⟩
  have hstep : ∀ (pool : Pool ι (EmbedState V) (EmbedTask V)) (event : ι × EmbedTurn V),
      EmbedPool.Holds embed pool → EmbedPermitted embed inlineEmbedding pool event →
        EmbedPool.Holds embed (pool.step (embedTurn inlineEmbedding embed) event) :=
    fun _ _ h hevent => EmbedPool.Holds.next h hevent
  have hend := hok.invariant hstep hstart
  exact fun m hm => (hend.shared.consistent m hm).sound

end Runs

def sampleCreate (agentId : String) : MemoryCreate where
  tenantId := "t"
  fleetId := none
  agentId := agentId
  content := "the sky is blue"
  memoryType := none
  weight := none
  status := none
  tsValidStart := none
  tsValidEnd := none
  sourceUri := none
  runId := none
  metadata := none
  expiresAt := none
  subjectEntityId := none
  predicate := none
  objectValue := none
  visibility := none

/-- The provider fails for a create, the row is embedded later, another agent's create finds
the vector, and the content is updated. -/
theorem embeddings_sound_sample :
    (run (Pool.step (embedTurn true id)) (EmbedPool.start : Pool ℕ _ _)
      [(0, .start (.create (sampleCreate "a") (some "fast") none false 0 1)), (0, .finish 1),
        (1, .start (.reembed 0 true)), (1, .finish 2),
        (2, .start (.create (sampleCreate "b") (some "fast") none false 0 1)), (2, .finish 3),
        (3, .start (.update 0 "t" { content := some (some "the sky is grey") } true)),
        (3, .finish 4)]).shared.table.Sound id :=
  embeddings_sound true id (by decide +kernel)

/-- A request that is delivered after the content was updated writes the old text's vector. -/
theorem late_delivery_unsound :
    ¬ (run (Pool.step (embedTurn false id)) (EmbedPool.start : Pool ℕ _ _)
      [(0, .start (.create (sampleCreate "a") (some "fast") none true 0 1)), (0, .finish 1),
        (1, .start (.update 0 "t" { content := some (some "the sky is grey") } true)),
        (1, .finish 2), (2, .start (.deliver 0 true (some 0))),
        (2, .finish 3)]).shared.table.Sound id := by
  intro h
  have hrows : ((run (Pool.step (embedTurn false id)) (EmbedPool.start : Pool ℕ _ _)
      [(0, .start (.create (sampleCreate "a") (some "fast") none true 0 1)), (0, .finish 1),
        (1, .start (.update 0 "t" { content := some (some "the sky is grey") } true)),
        (1, .finish 2), (2, .start (.deliver 0 true (some 0))),
        (2, .finish 3)]).shared.table.map fun m => (m.content, m.embedding)) =
      [("the sky is grey", some "the sky is blue")] := by decide +kernel
  have hpair := List.mem_map.mp (hrows ▸ List.mem_singleton_self
    ("the sky is grey", some "the sky is blue"))
  obtain ⟨m, hm, heq⟩ := hpair
  obtain ⟨hcontent, hembedding⟩ := Prod.mk.inj heq
  have hsound := h m hm _ hembedding
  rw [hcontent] at hsound
  exact absurd hsound (by decide)

end Memclaw.Memories

import Memclaw.Lib.Dict
import Memclaw.Memories.FakeEnrichDefs
import Memclaw.Memories.Statements

/-! Redeliveries of an enrich request that fall back to the heuristic: when the row is what
the answers of the model alone would have left. -/

namespace Memclaw.Memories

open Memclaw.Lib Memclaw.Lib.Interleave
open Memclaw.Contradiction (Status)

variable {V : Type}

def enrichedKeys : List String :=
  ["summary", "tags", "contains_pii", "pii_types", "business_relevance", "retrieval_hint"]

structure EnrichedValues where
  memoryType : MemoryType
  weight : Option ℚ
  title : Option String
  status : Status
  tsValidStart : Option ℕ
  tsValidEnd : Option ℕ
  metadata : List (Option Json)

def Memory.enriched (m : Memory V) : EnrichedValues where
  memoryType := m.memoryType
  weight := m.weight
  title := m.title
  status := m.status
  tsValidStart := m.tsValidStart
  tsValidEnd := m.tsValidEnd
  metadata := enrichedKeys.map (Dict.find (m.metadata.getD []))

def Memory.enrich (m : Memory V) (e : EnrichmentResult) : Memory V := (buildPatch e none).apply m

theorem enrich_metadata (m : Memory V) (e : EnrichmentResult) :
    (m.enrich e).metadata = some ((m.metadata.getD []).update e.metadataPatch) := by
  have hpatch : e.metadataPatch ≠ [] := by simp [EnrichmentResult.metadataPatch]
  simp only [Memory.enrich, Patch.apply, Patch.mergedMetadata, buildPatch, if_neg hpatch,
    Option.getD_none]

theorem enrich_title (m : Memory V) (e : EnrichmentResult) :
    (m.enrich e).title = if e.title = "" then m.title else some e.title := by
  simp only [Memory.enrich, Patch.apply, buildPatch]
  split
  · rfl
  · rfl

theorem enriched_of_answer (m : Memory V) {e : EnrichmentResult} (he : 0 < e.llmMs) :
    (m.enrich e).enriched =
      { memoryType := e.memoryType
        weight := some e.weight
        title := if e.title = "" then m.title else some e.title
        status := e.status
        tsValidStart := e.tsValidStart
        tsValidEnd := e.tsValidEnd
        metadata := [some (.str e.summary), some (strings e.tags), some (.bool e.containsPii),
          some (strings e.piiTypes), some (.str e.businessRelevance),
          some (.str e.retrievalHint)] } := by
  have hms : e.llmMs ≠ 0 := he.ne'
  have hts : ∀ value old : Option ℕ, (e.tsPatch value).getD old = value := by
    intro value old
    cases value with
    | none => simp [EnrichmentResult.tsPatch, hms]
    | some t => rfl
  have hmeta : enrichedKeys.map (Dict.find ((m.enrich e).metadata.getD [])) =
      [some (.str e.summary), some (strings e.tags), some (.bool e.containsPii),
        some (strings e.piiTypes), some (.str e.businessRelevance),
        some (.str e.retrievalHint)] := by
    rw [enrich_metadata]
    simp [enrichedKeys, EnrichmentResult.metadataPatch, hms, Dict.update]
  unfold Memory.enriched
  rw [hmeta, enrich_title]
  congr 1
  · exact hts e.tsValidStart m.tsValidStart
  · exact hts e.tsValidEnd m.tsValidEnd

theorem enriched_of_heuristic (m : Memory V) {e : EnrichmentResult} (hms : e.llmMs = 0)
    (hstart : e.tsValidStart = none) (hend : e.tsValidEnd = none) :
    (m.enrich e).enriched =
      { m.enriched with
        memoryType := e.memoryType
        weight := some e.weight
        title := if e.title = "" then m.title else some e.title
        status := e.status } := by
  -- The heuristic sets the type, the weight, the status and, when it has one, the title.
  have hts : ∀ old : Option ℕ, (e.tsPatch none).getD old = old := by
    intro old
    simp [EnrichmentResult.tsPatch, hms]
  have hmeta : enrichedKeys.map (Dict.find ((m.enrich e).metadata.getD [])) =
      enrichedKeys.map (Dict.find (m.metadata.getD [])) := by
    rw [enrich_metadata]
    simp [enrichedKeys, EnrichmentResult.metadataPatch, hms, Dict.update]
  unfold Memory.enriched
  rw [hmeta, enrich_title]
  congr 1
  · exact (congrArg (fun v => (e.tsPatch v).getD m.tsValidStart) hstart).trans (hts _)
  · exact (congrArg (fun v => (e.tsPatch v).getD m.tsValidEnd) hend).trans (hts _)

theorem heuristic_result (methods : TextMethods) (content : String) :
    let e := demoteReservedEnrichment (fakeEnrich methods content)
    e.llmMs = 0 ∧ e.tsValidStart = none ∧ e.tsValidEnd = none := by
  intro e
  simp only [e, demoteReservedEnrichment]
  split
  · exact ⟨rfl, rfl, rfl⟩
  · exact ⟨rfl, rfl, rfl⟩

/-- The row of a memory, with the row that the answers alone would have left, and whether an
answer has come. -/
structure Trail (V : Type) where
  row : Memory V
  answersOnly : Memory V
  answered : Bool

def Trail.begin (m : Memory V) : Trail V := ⟨m, m, false⟩

variable (methods : TextMethods)

def Trail.next (c : Trail V) (d : String × Enriched) : Trail V where
  row := c.row.enrich (d.2.result methods d.1)
  answersOnly :=
    if d.2.isAnswered then c.answersOnly.enrich (d.2.result methods d.1) else c.answersOnly
  answered := c.answered || d.2.isAnswered

/-- Once an answer has come, the row shows the answers alone. -/
def Trail.Determined (c : Trail V) : Prop :=
  c.answered = true → c.row.enriched = c.answersOnly.enriched

def EnrichmentResult.Repeats (e : EnrichmentResult) (m : Memory V) : Prop :=
  e.memoryType = m.memoryType ∧ some e.weight = m.weight ∧ e.status = m.status ∧
    (e.title = "" ∨ some e.title = m.title)

/-- A heuristic after an answer repeats the row; a first answer has a title, or the heuristics
before it have left the title that the row had. -/
def Trail.Harmless (c : Trail V) (d : String × Enriched) : Prop :=
  match d.2 with
  | .answered e _ =>
    c.answered = true ∨ e.title ≠ "" ∨ c.row.title = c.answersOnly.title
  | .fellBack =>
    c.answered = true → (Enriched.fellBack.result methods d.1).Repeats c.row

theorem repeats_iff (m : Memory V) {e : EnrichmentResult} (hms : e.llmMs = 0)
    (hstart : e.tsValidStart = none) (hend : e.tsValidEnd = none) :
    (m.enrich e).enriched = m.enriched ↔ e.Repeats m := by
  have htitle : (if e.title = "" then m.title else some e.title) = m.title ↔
      e.title = "" ∨ some e.title = m.title := by
    by_cases h : e.title = ""
    · simp [h]
    · simp [h]
  rw [enriched_of_heuristic m hms hstart hend, EnrichmentResult.Repeats, ← htitle]
  simp only [Memory.enriched, EnrichedValues.mk.injEq, and_true]
  exact ⟨fun ⟨htype, hweight, hsame, hstatus⟩ => ⟨htype, hweight, hstatus, hsame⟩,
    fun ⟨htype, hweight, hstatus, hsame⟩ => ⟨htype, hweight, hsame, hstatus⟩⟩

theorem determined_next_iff (c : Trail V) (d : String × Enriched) (h : c.Determined) :
    (c.next methods d).Determined ↔ c.Harmless methods d := by
  obtain ⟨content, result⟩ := d
  cases result with
  | answered e he =>
    have hboth : (c.next methods (content, .answered e he)).Determined ↔
        (c.row.enrich e).enriched = (c.answersOnly.enrich e).enriched := by
      simp [Trail.Determined, Trail.next, Enriched.isAnswered, Enriched.result]
    rw [hboth, enriched_of_answer _ he, enriched_of_answer _ he]
    by_cases htitle : e.title = ""
    · have hsame : c.answered = true → c.row.title = c.answersOnly.title :=
        fun hanswered => congrArg EnrichedValues.title (h hanswered)
      simpa [Trail.Harmless, htitle] using hsame
    · simp [Trail.Harmless, htitle]
  | fellBack =>
    obtain ⟨hms, hstart, hend⟩ := heuristic_result methods content
    have hboth : (c.next methods (content, .fellBack)).Determined ↔ (c.answered = true →
        (c.row.enrich (Enriched.fellBack.result methods content)).enriched =
          c.answersOnly.enriched) := by
      simp [Trail.Determined, Trail.next, Enriched.isAnswered]
    rw [hboth]
    refine forall_congr' fun hanswered => ?_
    rw [← h hanswered]
    exact repeats_iff c.row hms hstart hend

def Memory.enrichAll (m : Memory V) (deliveries : List (String × Enriched)) : Memory V :=
  deliveries.foldl (fun m d => m.enrich (d.2.result methods d.1)) m

theorem run_trail (c : Trail V) (deliveries : List (String × Enriched)) :
    run (Trail.next methods) c deliveries =
      ⟨c.row.enrichAll methods deliveries,
        c.answersOnly.enrichAll methods (deliveries.filter (·.2.isAnswered)),
        c.answered || deliveries.any (·.2.isAnswered)⟩ := by
  induction deliveries generalizing c with
  | nil => simp [Memory.enrichAll]
  | cons d deliveries ih =>
    rw [run_cons, ih]
    cases h : d.2.isAnswered with
    | true => simp [Trail.next, Memory.enrichAll, h]
    | false => simp [Trail.next, Memory.enrichAll, h]

def Table.rowOf (t : Table V) (id : ℕ) (tenantId : String) : Option (Memory V) :=
  t.find? (Memory.at id tenantId)

theorem at_enrich (id : ℕ) (tenantId : String) (m : Memory V) (e : EnrichmentResult) :
    (m.enrich e).at id tenantId = m.at id tenantId := rfl

theorem find?_update {p q : Memory V → Bool} {f : Memory V → Memory V}
    (hp : ∀ m, p (f m) = p m) (t : Table V) : (Rows.update q f t).find? p =
      (t.find? p).map fun m => if q m then f m else m := by
  have hkept : (p ∘ fun m => if q m then f m else m) = p := by
    funext m
    simp only [Function.comp]
    split
    · exact hp m
    · rfl
  rw [Rows.update, List.find?_map, hkept]

theorem rowOf_handleEnrichRequest (t : Table V) (id : ℕ) (tenantId content : String)
    (e : EnrichmentResult) :
    (handleEnrichRequest t ⟨id, tenantId, content, none⟩ e).rowOf id tenantId =
      (t.rowOf id tenantId).map fun m => if m.live then m.enrich e else m := by
  have hnulls : (buildPatch e none : Patch V).nullsRequired = false := by
    simp [Patch.nullsRequired, buildPatch]
  cases hrow : t.rowOf id tenantId with
  | none =>
    have hfind : t.find? (Memory.at id tenantId) = none := hrow
    simp only [handleEnrichRequest, Table.memoryUpdate, hfind]
    exact hrow
  | some m =>
    have hfind : t.find? (Memory.at id tenantId) = some m := hrow
    have hat : m.at id tenantId = true := List.find?_some hfind
    cases hlive : m.live with
    | false =>
      simp only [handleEnrichRequest, Table.memoryUpdate, hfind, hlive, Bool.not_false, if_true]
      simpa [hlive] using hrow
    | true =>
      simp only [handleEnrichRequest, Table.memoryUpdate, hfind, hlive, hnulls, Bool.not_true,
        Bool.false_eq_true, if_false]
      refine (find?_update (fun m => at_enrich id tenantId m e) t).trans ?_
      simp [hfind, hat, hlive, Memory.enrich]

theorem rowOf_deliverAll (t : Table V) (id : ℕ) (tenantId : String)
    (deliveries : List (String × Enriched)) :
    (deliverAll methods id tenantId t deliveries).rowOf id tenantId =
      (t.rowOf id tenantId).map fun m => if m.live then m.enrichAll methods deliveries else m := by
  induction deliveries generalizing t with
  | nil => simp [deliverAll, Memory.enrichAll]
  | cons d deliveries ih =>
    refine (ih _).trans ?_
    rw [rowOf_handleEnrichRequest, Option.map_map]
    refine congrArg (fun f => (t.rowOf id tenantId).map f) (funext fun m => ?_)
    cases hlive : m.live with
    | false => simp [hlive]
    | true =>
      have hlive' : (m.enrich (d.2.result methods d.1)).live = true := hlive
      simp [hlive, hlive', Memory.enrichAll]

theorem enriched_deliverAll {t : Table V} {id : ℕ} {tenantId : String} {m : Memory V}
    (hrow : t.rowOf id tenantId = some m) (hlive : m.live = true)
    (deliveries : List (String × Enriched)) :
    ((deliverAll methods id tenantId t deliveries).rowOf id tenantId).map Memory.enriched =
      some (m.enrichAll methods deliveries).enriched := by
  rw [rowOf_deliverAll, hrow]
  simp [hlive]

/-- The stored values are those of the answers alone, from the first answer on, exactly when
each heuristic after an answer repeats the row and a first answer without a title finds the
title that the row had. -/
theorem answers_alone_iff (t : Table V) (id : ℕ) (tenantId : String)
    (deliveries : List (String × Enriched)) :
    (∀ past, past <+: deliveries → past.any (·.2.isAnswered) = true →
      ((deliverAll methods id tenantId t past).rowOf id tenantId).map Memory.enriched =
        ((deliverAll methods id tenantId t (past.filter (·.2.isAnswered))).rowOf id tenantId).map
          Memory.enriched) ↔
    ∀ m, t.rowOf id tenantId = some m → m.live = true →
      Along (Trail.next methods) (Trail.Harmless methods) (Trail.begin m) deliveries := by
  have hbegin : ∀ m : Memory V, (Trail.begin m).Determined := fun m _ => rfl
  have htrail : ∀ m : Memory V,
      Along (Trail.next methods) (Trail.Harmless methods) (Trail.begin m) deliveries ↔
        ∀ past, past <+: deliveries → past.any (·.2.isAnswered) = true →
          (m.enrichAll methods past).enriched =
            (m.enrichAll methods (past.filter (·.2.isAnswered))).enriched := by
    intro m
    rw [← Along.iff_kept (fun c d _ hc => determined_next_iff methods c d hc) (hbegin m),
      Along.iff_prefix (hbegin m)]
    simp only [run_trail, Trail.Determined, Trail.begin, Bool.false_or]
  constructor
  · intro h m hrow hlive
    refine (htrail m).mpr fun past hpast hany => ?_
    have hboth := h past hpast hany
    rw [enriched_deliverAll methods hrow hlive, enriched_deliverAll methods hrow hlive] at hboth
    exact Option.some.inj hboth
  · intro h past hpast hany
    cases hrow : t.rowOf id tenantId with
    | none => simp [rowOf_deliverAll, hrow]
    | some m =>
      cases hlive : m.live with
      | false => simp [rowOf_deliverAll, hrow, hlive]
      | true =>
        rw [enriched_deliverAll methods hrow hlive, enriched_deliverAll methods hrow hlive]
        exact congrArg some ((htrail m).mp (h m hrow hlive) past hpast hany)

/-- A model's answer for a text, and a redelivery of the same request that falls back. -/
def outage : List (String × Enriched) :=
  [("You must never use port 80", .answered
      { memoryType := .decision, weight := 9 / 10, title := "Port 80", summary := "No port 80",
        status := .confirmed, llmMs := 700 } (by decide)),
    ("You must never use port 80", .fellBack)]

/-- The redelivery makes a fact of the decision: the keywords say rule, which is demoted. -/
theorem fallback_overwrites_answer :
    ¬ ∀ (t : Table ℕ) (id : ℕ) (tenantId : String) (deliveries past : List (String × Enriched)),
      past <+: deliveries → past.any (·.2.isAnswered) = true →
        ((deliverAll .ascii id tenantId t past).rowOf id tenantId).map Memory.enriched =
          ((deliverAll .ascii id tenantId t
            (past.filter (·.2.isAnswered))).rowOf id tenantId).map Memory.enriched := by
  intro h
  have hsame := h [sampleMemory.row 0 1] 0 "t" outage outage List.prefix_rfl rfl
  have htype := congrArg (Option.map EnrichedValues.memoryType) hsame
  have hfact : (((deliverAll .ascii 0 "t" [sampleMemory.row 0 1] outage).rowOf 0 "t").map
      Memory.enriched).map EnrichedValues.memoryType = some .fact := by decide
  exact absurd (hfact.symm.trans htype) (by decide)

end Memclaw.Memories

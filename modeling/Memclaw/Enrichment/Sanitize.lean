import Memclaw.Lib.Calendar
import Memclaw.Lib.Fallible
import Memclaw.Lib.FloatText
import Memclaw.Lib.Timestamp
import Memclaw.Memories.FakeEnrichDefs

/-! The sanitiser of a model's answer: `_validate_enrichment`, with the validators of the schema
that it builds the result by. What the sanitiser lets through: every answer that a model can give
ends in a `ValueError` or in a result within the vocabularies and the bounds, but for a weight that
`float` does not take. -/

namespace Memclaw.Enrichment

open Memclaw.Lib
open Memclaw.Memories (MemoryType TextMethods)

/-- What the sanitiser takes from the interpreter and from dateutil: the text methods, the
characters that `repr` leaves as they are, and `parser.parse`. That gives the fields of a
datetime and its offset in microseconds, if it has one, and nothing where it raises
`ValueError`, `OverflowError` or `ParserError`. -/
structure EnrichEnv where
  methods : TextMethods
  printable : Char → Bool
  parseDate : String → Option (DateTime × Option ℤ)

/-- Pydantic's `ValidationError` is a `ValueError`. -/
inductive EnrichmentError
  | valueError
  | overflowError
deriving DecidableEq

def memoryTypes : List MemoryType :=
  [.fact, .episode, .decision, .preference, .task, .semantic, .intention, .plan, .commitment,
    .action, .outcome, .cancellation, .rule, .insight]

def serverReservedMemoryTypes : List MemoryType := [.outcome, .rule, .insight]

def classifierDeprecatedMemoryTypes : List MemoryType := [.semantic]

def memoryStatuses : List String :=
  ["active", "pending", "confirmed", "cancelled", "outdated", "conflicted", "archived", "deleted"]

def offeredType (j : Json) : MemoryType :=
  match j.asStr.bind fun s => memoryTypes.find? (·.value = s) with
  | some t =>
    if t ∈ serverReservedMemoryTypes ∨ t ∈ classifierDeprecatedMemoryTypes then .fact else t
  | none => .fact

def offeredStatus (j : Json) : String := (j.asStr.filter (· ∈ memoryStatuses)).getD "active"

structure AtomicFact where
  content : String
  suggestedType : MemoryType
  retrievalHint : String

structure EnrichmentResult where
  memoryType : MemoryType
  weight : PyFloat
  title : String
  summary : String
  tags : List String
  status : String
  tsValidStart : Option String
  tsValidEnd : Option String
  containsPii : Bool
  piiTypes : List String
  businessRelevance : String
  retrievalHint : String
  atomicFacts : Option (List AtomicFact)
  llmMs : ℕ

def orValueError {α : Type} : Option α → Except EnrichmentError α
  | some a => .ok a
  | none => .error .valueError

def astimezone (clock : DateTime) (offset : ℤ) : Option DateTime :=
  if offset.natAbs < 86400000000 then DateTime.ofMicro (clock.micro - offset) else none

section Fields

variable (env : EnrichEnv)

def parseTemporal (val : String) : Option DateTime :=
  match env.parseDate val with
  | none => none
  | some (clock, offset) =>
    let dt := match offset with
      | none => some clock
      | some offset => astimezone clock offset
    dt.filter fun dt => !(dt.year < 1970 || 2100 < dt.year)

def parsedTs (raw : Dict) (field : String) : Option DateTime :=
  match (raw.get field).asStr with
  | some val => if val = "" then none else parseTemporal env val
  | none => none

def isoText (dt : DateTime) : String := String.ofList (Timestamp.utc dt).isoformat

def strip (text : String) : List Char :=
  ((text.toList.dropWhile env.methods.chars.space).reverse.dropWhile
    env.methods.chars.space).reverse

/-- The weight before it is clamped; `float` raises `TypeError` on lists and dicts. -/
def readWeight (j : Json) : Except EnrichmentError PyFloat :=
  let default : PyFloat := .finite ⟨false, 6305039478318694, -53, by decide⟩
  match j with
  | .null => .ok default
  | .bool b => .ok (.finite (if b then .one else .zero))
  | .int i =>
    match Binary64.ofInt i with
    | some x => .ok (.finite x)
    | none => .error .overflowError
  | .float x => .ok x
  | .str s => .ok ((floatOfText env.methods.chars s.toList).getD default)
  | .arr _ => .ok default
  | .obj _ => .ok default

def cleanHint (j : Json) : String :=
  match j.asStr with
  | some hint => String.ofList ((strip env hint).take 200)
  | none => ""

def cleanFact (f : Json) : Option AtomicFact :=
  match f.asDict with
  | none => none
  | some f =>
    match (f.get "content").asStr with
    | none => none
    | some fc =>
      if strip env fc = [] then none
      else some {
        content := String.ofList ((strip env fc).take 10000)
        suggestedType := offeredType (f.get "suggested_type")
        retrievalHint := cleanHint env (f.get "retrieval_hint") }

def cleanFacts (j : Json) : Option (List AtomicFact) :=
  match j with
  | .arr items =>
    let cleaned := items.filterMap (cleanFact env)
    if cleaned.isEmpty then none else some cleaned
  | _ => none

/-- `_TAG_SEPARATOR_RE.sub("-", s)`; `inRun` behind a separator. -/
def hyphenate (inRun : Bool) : List Char → List Char
  | [] => []
  | c :: cs =>
    if env.methods.chars.space c || c = '_' then
      if inRun then hyphenate true cs else '-' :: hyphenate true cs
    else c :: hyphenate false cs

def normalizeTag (raw : Json) : Option (List Char) :=
  match raw with
  | .null => some []
  | raw => do
    let text ← raw.pyStr env.printable
    let s := env.methods.lower (strip env (String.ofList text))
    some (if s = [] then [] else Uuid.stripChars ['-'] (hyphenate env false s))

def tagsMax : ℕ := 5

def collectTags : List String → List Json → Option (List String)
  | normalised, [] => some normalised
  | normalised, item :: items => do
    let tag := String.ofList (← normalizeTag env item)
    if tag = "" ∨ tag ∈ normalised then collectTags normalised items
    else if tagsMax ≤ normalised.length + 1 then some (normalised ++ [tag])
    else collectTags (normalised ++ [tag]) items

def normalizeTags (raw : Json) : Option (List String) :=
  match raw with
  | .arr items => collectTags env [] items
  | _ => some []

end Fields

def textField (raw : Dict) (field default : String) : Option String :=
  match raw.find field with
  | none => some default
  | some j => j.asStr

def piiTypesField (j : Json) : Option (List String) :=
  if j.truthy then
    match j with
    | .arr items => items.mapM Json.asStr
    | _ => none
  else some []

def validateEnrichment (env : EnrichEnv) (raw : Json) (llmMs : ℕ) :
    Except EnrichmentError EnrichmentResult := do
  let raw ← orValueError raw.asDict
  let memoryType := offeredType (raw.get "memory_type")
  let status := offeredStatus (raw.get "status")
  let weight ← readWeight env (raw.get "weight")
  let title ← orValueError (((raw.find "title").getD (.str "")).pyStr env.printable)
  let start := parsedTs env raw "ts_valid_start"
  let stop := parsedTs env raw "ts_valid_end"
  -- An end that is not after the start is dropped, and so is the end of an episode.
  let ordered := stop.filter fun e => !start.any fun s => e.micro ≤ s.micro
  let kept := if memoryType = .episode then none else ordered
  let summary ← orValueError (textField raw "summary" "")
  let tags ← orValueError (normalizeTags env (raw.get "tags"))
  let piiTypes ← orValueError (piiTypesField (raw.get "pii_types"))
  .ok {
    memoryType := memoryType
    weight := weight.clamp
    title := String.ofList (title.take 80)
    summary := summary
    tags := tags
    status := status
    tsValidStart := start.map isoText
    tsValidEnd := kept.map isoText
    containsPii := (raw.get "contains_pii").truthy
    piiTypes := piiTypes
    businessRelevance :=
      ((raw.get "business_relevance").asStr.filter (· ∈ ["business", "personal"])).getD "business"
    retrievalHint := cleanHint env (raw.get "retrieval_hint")
    atomicFacts := cleanFacts env (raw.get "atomic_facts")
    llmMs := llmMs }

variable {env : EnrichEnv}

def Offered (t : MemoryType) : Prop :=
  t ∈ memoryTypes ∧ t ∉ serverReservedMemoryTypes ∧ t ∉ classifierDeprecatedMemoryTypes

theorem offered_fact : Offered .fact := by
  unfold Offered
  decide

theorem offered_offeredType (j : Json) : Offered (offeredType j) := by
  unfold offeredType
  split
  · rename_i t ht
    split_ifs with hkept
    · exact offered_fact
    · obtain ⟨s, -, hfind⟩ := Option.bind_eq_some_iff.mp ht
      exact ⟨List.mem_of_find?_eq_some hfind, not_or.mp hkept⟩
  · exact offered_fact

theorem offeredStatus_mem (j : Json) : offeredStatus j ∈ memoryStatuses := by
  unfold offeredStatus
  cases hstatus : j.asStr.filter (· ∈ memoryStatuses) with
  | none => decide
  | some s =>
    obtain ⟨-, hmem⟩ := Option.filter_eq_some_iff.mp hstatus
    exact of_decide_eq_true hmem

theorem cleanHint_length (j : Json) : (cleanHint env j).length ≤ 200 := by
  unfold cleanHint
  split
  · rw [String.length_ofList]
    exact List.length_take_le 200 _
  · decide

theorem cleanFact_some {f : Json} {fact : AtomicFact} (h : cleanFact env f = some fact) :
    fact.content ≠ "" ∧ Offered fact.suggestedType := by
  unfold cleanFact at h
  split at h
  · cases h
  · split at h
    · cases h
    · rename_i fc _
      split_ifs at h with hempty
      obtain rfl := Option.some.inj h
      refine ⟨fun hcontent => ?_, offered_offeredType _⟩
      have htake : (strip env fc).take 10000 = [] := by
        have hlist := congrArg String.toList hcontent
        rwa [String.toList_ofList] at hlist
      rcases List.take_eq_nil_iff.mp htake with hzero | hnil
      · cases hzero
      · exact hempty hnil

theorem mem_cleanFacts {j : Json} {facts : List AtomicFact} (h : cleanFacts env j = some facts) :
    ∀ fact ∈ facts, fact.content ≠ "" ∧ Offered fact.suggestedType := by
  intro fact hfact
  unfold cleanFacts at h
  split at h
  · dsimp only at h
    split_ifs at h
    obtain rfl := Option.some.inj h
    obtain ⟨f, -, hclean⟩ := List.mem_filterMap.mp hfact
    exact cleanFact_some hclean
  · cases h

theorem fromisoformat_isoText (dt : DateTime) :
    Timestamp.fromisoformat (isoText dt).toList = some (dt, some 0) := by
  rw [isoText, String.toList_ofList, Timestamp.fromisoformat_isoformat]
  rfl

variable (env) in
theorem readWeight_ok {j : Json} (h : ∀ i, j = .int i → (Binary64.ofInt i).isSome) :
    ∃ w, readWeight env j = .ok w := by
  unfold readWeight
  cases j with
  | int i =>
    obtain ⟨x, hx⟩ := Option.isSome_iff_exists.mp (h i rfl)
    refine ⟨.finite x, ?_⟩
    dsimp only
    rw [hx]
  | _ => exact ⟨_, rfl⟩

theorem orValueError_error {α : Type} {found : Option α} {e : EnrichmentError}
    (h : orValueError found = .error e) : e = .valueError := by
  cases found with
  | none => exact (Except.error.inj h).symm
  | some a => cases h

def Stands (text : String) (instant : ℤ) : Prop :=
  ∃ t : Timestamp, Timestamp.fromisoformat text.toList = some (t.clock, some t.offset) ∧
    t.instant = instant

structure EnrichmentResult.Sanitized (r : EnrichmentResult) : Prop where
  memoryType : Offered r.memoryType
  status : r.status ∈ memoryStatuses
  weight : r.weight.InUnit
  title : r.title.length ≤ 80
  hint : r.retrievalHint.length ≤ 200
  start : ∀ s, r.tsValidStart = some s → ∃ t, Stands s t
  stop : ∀ e, r.tsValidEnd = some e → ∃ t, Stands e t
  order : ∀ s e, r.tsValidStart = some s → r.tsValidEnd = some e →
    ∃ ts te, Stands s ts ∧ Stands e te ∧ ts < te
  episode : r.memoryType = .episode → r.tsValidEnd = none
  facts : ∀ facts, r.atomicFacts = some facts →
    ∀ fact ∈ facts, fact.content ≠ "" ∧ Offered fact.suggestedType
  relevance : r.businessRelevance = "business" ∨ r.businessRelevance = "personal"

theorem stands_isoText (dt : DateTime) : Stands (isoText dt) dt.micro := by
  refine ⟨Timestamp.utc dt, fromisoformat_isoText dt, ?_⟩
  rw [Timestamp.instant, Timestamp.utc, sub_zero]

theorem sanitized_of_ok {raw : Json} {llmMs : ℕ} {r : EnrichmentResult}
    (h : validateEnrichment env raw llmMs = .ok r) : r.Sanitized := by
  unfold validateEnrichment at h
  obtain ⟨raw, -, h⟩ := ok_of_bind h
  obtain ⟨weight, -, h⟩ := ok_of_bind h
  obtain ⟨title, -, h⟩ := ok_of_bind h
  obtain ⟨summary, -, h⟩ := ok_of_bind h
  obtain ⟨tags, -, h⟩ := ok_of_bind h
  obtain ⟨piiTypes, -, h⟩ := ok_of_bind h
  obtain rfl := Except.ok.inj h
  refine {
    memoryType := offered_offeredType _
    status := offeredStatus_mem _
    weight := PyFloat.inUnit_clamp _
    title := ?_
    hint := cleanHint_length _
    start := ?_
    stop := ?_
    order := ?_
    episode := ?_
    facts := fun facts hfacts => mem_cleanFacts hfacts
    relevance := ?_ }
  · rw [String.length_ofList]
    exact List.length_take_le 80 _
  · intro s hs
    obtain ⟨dt, -, rfl⟩ := Option.map_eq_some_iff.mp hs
    exact ⟨_, stands_isoText dt⟩
  · intro e he
    obtain ⟨dt, -, rfl⟩ := Option.map_eq_some_iff.mp he
    exact ⟨_, stands_isoText dt⟩
  · intro s e hs he
    obtain ⟨start, hstart, rfl⟩ := Option.map_eq_some_iff.mp hs
    obtain ⟨stop, hstop, rfl⟩ := Option.map_eq_some_iff.mp he
    refine ⟨_, _, stands_isoText start, stands_isoText stop, ?_⟩
    split_ifs at hstop
    obtain ⟨-, hafter⟩ := Option.filter_eq_some_iff.mp hstop
    rw [hstart, Option.any_some, Bool.not_eq_true', decide_eq_false_iff_not, Nat.not_le] at hafter
    exact Int.ofNat_lt.mpr hafter
  · intro hepisode
    have hkind : offeredType (Dict.get raw "memory_type") = .episode := hepisode
    dsimp only
    rw [if_pos hkind, Option.map_none]
  · dsimp only
    cases hrelevance : (Dict.get raw "business_relevance").asStr.filter
        (· ∈ ["business", "personal"]) with
    | none => exact .inl rfl
    | some s =>
      obtain ⟨-, hmem⟩ := Option.filter_eq_some_iff.mp hrelevance
      have hmem := of_decide_eq_true hmem
      rw [List.mem_cons, List.mem_singleton] at hmem
      exact hmem

def WeightFits (raw : Json) : Prop :=
  ∀ fields i, raw = .obj fields → Dict.get fields "weight" = .int i → (Binary64.ofInt i).isSome

theorem error_eq {raw : Json} {llmMs : ℕ} {e : EnrichmentError} (hweight : WeightFits raw)
    (h : validateEnrichment env raw llmMs = .error e) : e = .valueError := by
  unfold validateEnrichment at h
  rcases error_of_bind h with hraised | ⟨fields, hfields, h⟩
  · exact orValueError_error hraised
  have hobj : raw = .obj fields := by
    cases raw with
    | obj entries => rw [Except.ok.inj hfields]
    | _ => cases hfields
  obtain ⟨w, hw⟩ := readWeight_ok env (fun i => hweight fields i hobj)
  dsimp only at h
  rw [hw] at h
  rcases error_of_bind h with hraised | ⟨weight, -, h⟩
  · cases hraised
  rcases error_of_bind h with hraised | ⟨title, -, h⟩
  · exact orValueError_error hraised
  rcases error_of_bind h with hraised | ⟨summary, -, h⟩
  · exact orValueError_error hraised
  rcases error_of_bind h with hraised | ⟨tags, -, h⟩
  · exact orValueError_error hraised
  rcases error_of_bind h with hraised | ⟨piiTypes, -, h⟩
  · exact orValueError_error hraised
  · cases h

/-- A `ValueError`, or a result that keeps to the vocabularies and the bounds. -/
theorem validateEnrichment_sanitizes (env : EnrichEnv) (raw : Json) (llmMs : ℕ)
    (hweight : WeightFits raw) :
    validateEnrichment env raw llmMs = .error .valueError ∨
      ∃ r, validateEnrichment env raw llmMs = .ok r ∧ r.Sanitized := by
  cases houtcome : validateEnrichment env raw llmMs with
  | error e => exact .inl (congrArg Except.error (error_eq hweight houtcome))
  | ok r => exact .inr ⟨r, rfl, sanitized_of_ok houtcome⟩

def sampleEnv : EnrichEnv where
  methods := TextMethods.ascii
  printable c := 32 ≤ c.toNat && c.toNat < 127
  parseDate val :=
    if val = "2026-05-01" then some (⟨2026, 5, 1, 0, 0, 0, 0, by decide⟩, none) else none

theorem validateEnrichment_sanitizes_rule :
    let raw : Json := .obj [("memory_type", .str "rule"), ("weight", .int 5),
      ("ts_valid_start", .str "2026-05-01"), ("ts_valid_end", .str "2026-05-01")]
    ∃ r, validateEnrichment sampleEnv raw 12 = .ok r ∧ r.Sanitized := by
  intro raw
  have hweight : WeightFits raw := by
    intro fields i hobj hget
    obtain rfl := Json.obj.inj hobj
    have hfive : Dict.get [("memory_type", .str "rule"), ("weight", .int 5),
        ("ts_valid_start", .str "2026-05-01"), ("ts_valid_end", .str "2026-05-01")] "weight" =
          .int 5 := by
      rfl
    rw [hfive] at hget
    rw [← Json.int.inj hget]
    decide
  rcases validateEnrichment_sanitizes sampleEnv raw 12 hweight with hraised | hok
  · have hends : (validateEnrichment sampleEnv raw 12).toOption.isSome = true := by
      decide
    rw [hraised] at hends
    cases hends
  · exact hok

/-- The status "deleted" is kept, and a weight of 400 digits raises an `OverflowError`. -/
theorem not_live_deleted :
    (¬ ∃ r, validateEnrichment sampleEnv (.obj [("status", .str "deleted")]) 0 = .ok r ∧
      r.Sanitized ∧ r.status ≠ "deleted") ∧
    validateEnrichment sampleEnv (.obj [("status", .str "deleted")]) 0 ≠ .error .valueError ∧
    (∀ r, validateEnrichment sampleEnv (.obj [("weight", .int (10 ^ 400))]) 0 ≠ .ok r) ∧
    validateEnrichment sampleEnv (.obj [("weight", .int (10 ^ 400))]) 0 ≠ .error .valueError := by
  have hkept : (validateEnrichment sampleEnv (.obj [("status", .str "deleted")]) 0).map
      (·.status) = .ok "deleted" := by
    decide
  have hraised : (validateEnrichment sampleEnv (.obj [("weight", .int (10 ^ 400))]) 0).map
      (·.status) = .error .overflowError := by
    decide +kernel
  refine ⟨?_, ?_, ?_, ?_⟩
  · rintro ⟨r, hr, -, hstatus⟩
    rw [hr] at hkept
    exact hstatus (Except.ok.inj hkept)
  · intro h
    rw [h] at hkept
    cases hkept
  · intro r h
    rw [h] at hraised
    cases hraised
  · intro h
    rw [h] at hraised
    cases hraised

end Memclaw.Enrichment

import Mathlib.Data.List.Infix
import Memclaw.Memories.EnrichDefs

/-! The keyword heuristic that `enrich_memory` falls back to. -/

namespace Memclaw.Memories

open Memclaw.Lib
open Memclaw.Contradiction (Status)

structure TextMethods where
  chars : CharData
  lower : List Char → List Char

def TextMethods.ascii : TextMethods := ⟨.ascii, List.map Char.toLower⟩

def TextMethods.split (methods : TextMethods) (text : List Char) : List (List Char) :=
  (text.splitOnP methods.chars.space).filter (· ≠ [])

/-- `any(kw in lower for kw in …)`. -/
def mentions (lower : List Char) (keywords : List String) : Bool :=
  keywords.any fun kw => kw.toList <:+: lower

def keywordClass (lower : List Char) : MemoryType × ℚ × Status :=
  if mentions lower ["decided", "chose", "going with", "approved", "we will"] then
    (.decision, 17 / 20, .active)
  else if mentions lower ["prefers", "likes", "always wants", "rather", "favorite"] then
    (.preference, 7 / 10, .active)
  else if mentions lower
      ["always notify", "always do", "never do", "never use", "never store", "never commit",
        "do not ever", "must always", "should always", "policy:", "guideline:", "rule:",
        "whenever you ", "whenever a ", "constraint:", "requirement:", "mandatory"] then
    (.rule, 17 / 20, .active)
  else if mentions lower ["deployed", "happened", "launched", "met with", "incident"] then
    (.episode, 13 / 20, .active)
  else if mentions lower ["task", "todo", "assigned", "need to", "must"] then
    (.task, 7 / 10, .pending)
  else if mentions lower ["plan", "steps", "roadmap", "strategy"] then
    (.plan, 3 / 4, .pending)
  else if mentions lower ["commit", "promise", "guarantee", "agreed to"] then
    (.commitment, 4 / 5, .pending)
  else if mentions lower ["cancelled", "abandoned", "stopped", "withdrew"] then
    (.cancellation, 13 / 20, .active)
  else if mentions lower ["result", "outcome", "achieved", "completed"] then
    (.outcome, 7 / 10, .confirmed)
  else if mentions lower ["intend", "aim", "goal", "want to"] then
    (.intention, 13 / 20, .active)
  else if mentions lower ["did", "executed", "performed", "ran"] then
    (.action, 13 / 20, .active)
  else (.fact, 7 / 10, .active)

def fakeEnrich (methods : TextMethods) (content : String) : EnrichmentResult :=
  let (memoryType, weight, status) := keywordClass (methods.lower content.toList)
  let words := methods.split content.toList
  { memoryType := memoryType
    weight := weight
    title := String.ofList
      (List.intercalate [' '] (words.take 10) ++ if words.length > 10 then "...".toList else [])
    summary := String.ofList (content.toList.take 200)
    tags := []
    status := status
    llmMs := 0 }

def serverReservedMemoryTypes : List MemoryType := [.outcome, .rule, .insight]

def demoteReservedEnrichment (result : EnrichmentResult) : EnrichmentResult :=
  if result.memoryType ∈ serverReservedMemoryTypes then { result with memoryType := .fact }
  else result

/-- What `enrich_memory` came to for a content: the answer of a model that was really called,
or the heuristic. -/
inductive Enriched
  | answered (e : EnrichmentResult) (real : 0 < e.llmMs)
  | fellBack

def Enriched.isAnswered : Enriched → Bool
  | answered _ _ => true
  | fellBack => false

def Enriched.result (methods : TextMethods) (content : String) : Enriched → EnrichmentResult
  | answered e _ => e
  | fellBack => demoteReservedEnrichment (fakeEnrich methods content)

/-- The deliveries of one request for a memory, of which the agent set no field; the content
of each delivery is its own. -/
def deliverAll {V : Type} (methods : TextMethods) (id : ℕ) (tenantId : String)
    (t : Table V) (deliveries : List (String × Enriched)) : Table V :=
  deliveries.foldl (fun t d =>
    handleEnrichRequest t ⟨id, tenantId, d.1, none⟩ (d.2.result methods d.1)) t

end Memclaw.Memories

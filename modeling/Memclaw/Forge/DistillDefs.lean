import Memclaw.Forge.FingerprintDefs
import Memclaw.Skills.WorkerDefs

/-! `_distill_cluster`: a cluster of session traces and the answer of the model become a candidate
skill with the fingerprint of the cluster. -/

namespace Memclaw.Forge

open Memclaw.Lib

structure SessionTraceRow where
  agentId : String
  memoryIds : List String
  entityIds : List String

structure ParsedAnswer where
  kind : String
  goalPhrase : String
  domain : String
  stepSkeleton : List String
  name : String
  slug : String
  description : String
  summary : String
  tags : List String
  content : String
  goal : String
  evidence : String

def entitiesOf (clusterTraces : List SessionTraceRow) : List String :=
  clusterTraces.flatMap SessionTraceRow.entityIds

/-- `sorted({e for trace in cluster_traces for e in trace.entity_ids})[:ENTITY_TOP_K]`. -/
def topEntityIds (clusterTraces : List SessionTraceRow) : List String :=
  (SortedSet.sorted (· ≤ ·) (entitiesOf clusterTraces)).take entityTopK

def fingerprintInputs (parsed : ParsedAnswer) (clusterTraces : List SessionTraceRow) :
    ClusterFingerprintInputs where
  goalPhrase := parsed.goalPhrase
  domain := parsed.domain
  entityIds := topEntityIds clusterTraces
  stepSkeleton := parsed.stepSkeleton
  entityCentralities := none

def distillCluster (chars : CaseChars) (nowIso scannedAt : String) (parsed : ParsedAnswer)
    (clusterTraces : List SessionTraceRow) : Skills.Distilled where
  kind := parsed.kind
  name := parsed.name
  slug := parsed.slug
  description := parsed.description
  summary := parsed.summary
  domain := parsed.domain
  tags := parsed.tags
  content := parsed.content
  goal := parsed.goal
  evidence := parsed.evidence
  fingerprint := (computeFingerprint chars (fingerprintInputs parsed clusterTraces)).fp
  cites := SortedSet.sorted (· ≤ ·) (clusterTraces.flatMap SessionTraceRow.memoryIds)
  clusterSize := clusterTraces.length
  distinctAgents := (clusterTraces.map SessionTraceRow.agentId).dedup.length
  nowIso := nowIso
  scannedAt := scannedAt

end Memclaw.Forge

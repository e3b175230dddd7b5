import Memclaw.Lib.JsonPath

/-! The tables of the settings service: the schema with its defaults, the declared types and
ranges of leaves, the allowed values of governance settings and the rules of search
profiles. -/

namespace Memclaw.Settings

open Memclaw.Lib

def twoFloat : PyFloat := .finite ⟨false, 2 ^ 52, -51, by decide⟩

def modelSection (enabled : Bool) : Json :=
  .obj ([("provider", .null), ("model", .null)] ++ if enabled then [("enabled", .null)] else [])

def defaultSkillsFactory : Dict :=
  [("enabled", .bool false), ("description_max_bytes", .int 160), ("body_max_bytes", .int 40000),
    ("inbox_max_pending", .int 50), ("rejection_cooloff_days", .int 30),
    ("sentinel", .obj [("fail_on_critical", .bool true), ("auto_promote_clean", .bool false)]),
    ("forge", .obj
      [("cron_interval_hours", .int 6), ("min_cluster_size", .int 3),
        ("min_distinct_agents", .int 3), ("freshness_window_days", .int 14),
        ("llm_tokens_per_run", .int 50000), ("max_writes_per_run", .int 20)]),
    ("openclaw_bridge", .obj [("enabled", .bool false)])]

def defaultGovernance : Dict :=
  [("pii", .obj
      [("enabled", .bool false), ("action", .null),
        ("categories", .obj
          [("email", .bool false), ("phone", .bool false), ("credit_card", .bool false),
            ("iban", .bool false), ("national_id", .bool false), ("api_key", .bool false),
            ("secret", .bool false)])]),
    ("non_business", .obj
      [("enabled", .bool false), ("disposition", .null),
        ("pregate", .obj
          [("enabled", .bool false), ("provider", .null), ("model", .null),
            ("min_confidence", .null), ("fail_closed", .bool false)])])]

def defaultSettings : Dict :=
  [("enrichment", modelSection true), ("recall", modelSection true),
    ("embedding", modelSection false), ("entity_extraction", modelSection true),
    ("fallback_llm", modelSection false),
    ("agent_digest", .obj
      [("enabled", .bool false), ("cadence", .str "daily"), ("provider", .str "openai"),
        ("model", .str "gpt-5.4-mini"), ("top_n", .int 25), ("max_memories_per_agent", .int 60),
        ("min_activity_threshold", .int 3), ("max_cost_per_run_usd", .float twoFloat),
        ("retention_days", .int 90)]),
    ("search", .obj
      [("recall_boost", .null), ("graph_retrieval", .null), ("default_profile", .obj [])]),
    ("crystallizer", .obj [("auto_crystallize", .null)]),
    ("dedup", .obj [("semantic_dedup_enabled", .null)]),
    ("lifecycle", .obj
      [("lifecycle_automation_enabled", .null), ("memory_retention_days", .null)]),
    ("entity_linking", .obj [("auto_entity_linking_enabled", .null)]),
    ("insights", .obj [("auto_insights_enabled", .null)]),
    ("observability", .obj
      [("recall_logging_enabled", .null), ("search_recall_logging_enabled", .null),
        ("search_recall_near_miss_sample_rate", .null)]),
    ("chunking", .obj [("auto_chunk_enabled", .null)]),
    ("write", .obj
      [("default_write_mode", .null), ("triple_emission_enabled", .null),
        ("retraction_enabled", .null)]),
    ("agents", .obj [("require_agent_approval", .null)]),
    ("memclaw", .obj [("auto_upgrade_enabled", .null)]),
    ("security_audit", .obj
      [("schedule_enabled", .null), ("schedule_cron", .null), ("alerts_enabled", .null),
        ("alert_recipients", .null), ("alert_score_below", .null),
        ("alert_critical_findings_min", .null), ("alert_score_drop_delta", .null)]),
    ("skills_factory", .obj defaultSkillsFactory),
    ("interviewer", .obj
      [("enabled", .bool false), ("period_hours", .int 12), ("template_id", .str "default-v1")]),
    ("entity_blocklist", .arr (List.map Json.str
      ["team", "meeting", "project", "system", "process", "approach", "update", "issue", "change",
        "result", "group", "company", "person", "user", "client", "thing", "stuff", "idea", "work",
        "code"])),
    ("governance", .obj defaultGovernance),
    ("api_keys", .obj [])]

inductive LeafType
  | bool
  | int
  | str
  | list
  | number
deriving DecidableEq

def LeafType.name : LeafType → String
  | .bool => "bool"
  | .int => "int"
  | .str => "str"
  | .list => "list"
  | .number => "int or float"

def LeafType.accepts : LeafType → Json → Bool
  | .bool, .bool _ => true
  | .int, .int _ => true
  | .str, .str _ => true
  | .list, .arr _ => true
  | .number, .int _ => true
  | .number, .float _ => true
  | _, _ => false

def leafTypes : List (String × LeafType) :=
  [("security_audit.schedule_enabled", .bool), ("security_audit.schedule_cron", .str),
    ("security_audit.alerts_enabled", .bool), ("security_audit.alert_recipients", .list),
    ("security_audit.alert_score_below", .number),
    ("security_audit.alert_critical_findings_min", .int),
    ("security_audit.alert_score_drop_delta", .number), ("search.recall_boost", .bool),
    ("search.graph_retrieval", .bool), ("crystallizer.auto_crystallize", .bool),
    ("dedup.semantic_dedup_enabled", .bool), ("lifecycle.lifecycle_automation_enabled", .bool),
    ("lifecycle.memory_retention_days", .int),
    ("entity_linking.auto_entity_linking_enabled", .bool),
    ("insights.auto_insights_enabled", .bool), ("observability.recall_logging_enabled", .bool),
    ("observability.search_recall_logging_enabled", .bool),
    ("observability.search_recall_near_miss_sample_rate", .number),
    ("chunking.auto_chunk_enabled", .bool), ("agents.require_agent_approval", .bool),
    ("entity_blocklist", .list), ("memclaw.auto_upgrade_enabled", .bool),
    ("write.triple_emission_enabled", .bool), ("write.retraction_enabled", .bool),
    ("skills_factory.enabled", .bool), ("skills_factory.description_max_bytes", .int),
    ("skills_factory.body_max_bytes", .int), ("skills_factory.inbox_max_pending", .int),
    ("skills_factory.rejection_cooloff_days", .int),
    ("skills_factory.sentinel.fail_on_critical", .bool),
    ("skills_factory.sentinel.auto_promote_clean", .bool),
    ("skills_factory.forge.cron_interval_hours", .int),
    ("skills_factory.forge.min_cluster_size", .int),
    ("skills_factory.forge.min_distinct_agents", .int),
    ("skills_factory.forge.freshness_window_days", .int),
    ("skills_factory.forge.llm_tokens_per_run", .int),
    ("skills_factory.forge.max_writes_per_run", .int),
    ("skills_factory.openclaw_bridge.enabled", .bool), ("interviewer.enabled", .bool),
    ("interviewer.period_hours", .int), ("interviewer.template_id", .str),
    ("governance.pii.enabled", .bool), ("governance.pii.action", .str),
    ("governance.pii.categories.email", .bool), ("governance.pii.categories.phone", .bool),
    ("governance.pii.categories.credit_card", .bool), ("governance.pii.categories.iban", .bool),
    ("governance.pii.categories.national_id", .bool),
    ("governance.pii.categories.api_key", .bool), ("governance.pii.categories.secret", .bool),
    ("governance.non_business.enabled", .bool), ("governance.non_business.disposition", .str),
    ("governance.non_business.pregate.enabled", .bool),
    ("governance.non_business.pregate.provider", .str),
    ("governance.non_business.pregate.model", .str),
    ("governance.non_business.pregate.min_confidence", .number),
    ("governance.non_business.pregate.fail_closed", .bool)]

def leafRanges : List (String × (ℤ × ℤ)) :=
  [("lifecycle.memory_retention_days", (1, 30)),
    ("skills_factory.rejection_cooloff_days", (1, 365)), ("interviewer.period_hours", (1, 168)),
    ("skills_factory.body_max_bytes", (1, 10000000)),
    ("skills_factory.description_max_bytes", (1, 10000))]

def piiActions : List String := ["drop", "flag", "mask"]

def nonBusinessDispositions : List String := ["drop", "keep_private", "store"]

def pregateProviders : List String :=
  ["anthropic", "fake", "gemini", "local", "none", "openai", "openrouter", "vertex"]

structure SearchRule where
  isFloat : Bool
  lo : Json
  hi : Json

def decimal (mant : ℕ) (exp : ℤ) : Json :=
  (Binary64.mk? false mant exp).elim .null fun x => .float (.finite x)

def searchProfileRules : List (String × SearchRule) :=
  let zero := decimal 0 (-1074)
  let tenth := decimal 7205759403792794 (-56)
  let nineTenths := decimal 8106479329266893 (-53)
  let one := decimal (2 ^ 52) (-52)
  let three := decimal (3 * 2 ^ 51) (-51)
  [("top_k", ⟨false, .int 1, .int 20⟩), ("min_similarity", ⟨true, tenth, nineTenths⟩),
    ("fts_weight", ⟨true, zero, one⟩), ("freshness_floor", ⟨true, zero, one⟩),
    ("freshness_decay_days", ⟨false, .int 7, .int 730⟩),
    ("recall_boost_cap", ⟨true, one, three⟩),
    ("recall_decay_window_days", ⟨false, .int 7, .int 365⟩),
    ("graph_max_hops", ⟨false, .int 0, .int 5⟩), ("similarity_blend", ⟨true, zero, one⟩),
    ("candidate_pool_size", ⟨false, .int 0, .int 200⟩)]

end Memclaw.Settings

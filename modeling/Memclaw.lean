import Memclaw.Lib.Sha256
import Memclaw.Lib.Binary64
import Memclaw.Lib.Json
import Memclaw.Lib.FixedWidth
import Memclaw.Lib.HashChain
import Memclaw.Lib.JsonText
import Memclaw.Lib.Keyset
import Memclaw.Lib.Base64
import Memclaw.Lib.Timestamp
import Memclaw.Lib.Rounding
import Memclaw.Audit.Purge
import Memclaw.Audit.Isolation
import Memclaw.Contradiction.Acyclic
import Memclaw.Contradiction.Order
import Memclaw.Contradiction.Retraction
import Memclaw.Write.Dedup
import Memclaw.Write.BulkRetry
import Memclaw.Write.Account
import Memclaw.Fleet.Lifecycle
import Memclaw.Fleet.Isolation
import Memclaw.Fleet.Budget
import Memclaw.Fleet.Versions
import Memclaw.Agents.Ownership
import Memclaw.Agents.Trust
import Memclaw.Idempotency.Inbox
import Memclaw.Governance.Mask
import Memclaw.Governance.Gate
import Memclaw.Skills.Displace
import Memclaw.Skills.Transitions
import Memclaw.Skills.Scanned
import Memclaw.Memories.Deletion
import Memclaw.Memories.Gates
import Memclaw.Memories.Enrichment
import Memclaw.Memories.Embedding
import Memclaw.Memories.Confinement
import Memclaw.Settings.Serial
import Memclaw.Settings.Cache
import Memclaw.Settings.History
import Memclaw.Settings.Diff
import Memclaw.Settings.Profile
import Memclaw.Lifecycle.Dedup
import Memclaw.Memories.Fallback
import Memclaw.Memories.Paging
import Memclaw.Audit.Queue
import Memclaw.Entities.Quotient
import Memclaw.Entities.Resolve
import Memclaw.Entities.Fleets
import Memclaw.Entities.Connectivity
import Memclaw.Entities.Report
import Memclaw.Entities.Infer
import Memclaw.Search.Crowd
import Memclaw.Search.Overfetch
import Memclaw.Search.Boost
import Memclaw.Search.Score
import Memclaw.Search.Temporal
import Memclaw.Enrichment.Sanitize
import Memclaw.Governance.Overlaps
import Memclaw.Skills.Smuggling
import Memclaw.Skills.Paths
import Memclaw.Skills.Promoter
import Memclaw.Skills.Outage
import Memclaw.Ingest.Bounds
import Memclaw.Forge.Growth
import Memclaw.Forge.Clusters
import Memclaw.Evolve.Scope
import Memclaw.Insights.Generations
import Memclaw.Insights.Persist
import Memclaw.Interview.BufferRuns
import Memclaw.Interview.Faults
import Memclaw.Interview.Coverage
import Memclaw.Interview.Windows
import Memclaw.Skills.Installed
import Memclaw.Plugin.Deploy
import Memclaw.Plugin.Cooldown
import Memclaw.Plugin.Transport
import Memclaw.Stm.Backends
import Memclaw.Interview.Report
import Memclaw.Plugin.Keystones
import Memclaw.Plugin.Signature
import Memclaw.Plugin.Education
import Memclaw.Plugin.KeystoneCache
import Memclaw.Usage.Aggregator

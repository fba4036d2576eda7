import Prismal.A2A.Codec
import Prismal.A2A.Credentials
import Prismal.A2A.DeviceCode
import Prismal.A2A.Isolation
import Prismal.A2A.Listing
import Prismal.A2A.OAuth
import Prismal.A2A.RemoteStream
import Prismal.Agents.CallPairing
import Prismal.Agents.CompactionGain
import Prismal.Agents.HitlGate
import Prismal.Agents.LatsSearch
import Prismal.Agents.MaskedArtifacts
import Prismal.Agents.NodeRetries
import Prismal.Agents.ReactTurns
import Prismal.Agents.ReactPairing
import Prismal.Agents.SkynetThreads
import Prismal.Agents.ThoughtSearches
import Prismal.Agents.ToolSearch
import Prismal.Budget.TenantQuota
import Prismal.Composition.AuditChain
import Prismal.Decisions.HitlBand
import Prismal.Decisions.Isotonic
import Prismal.Decisions.Resolving
import Prismal.Eval.Runner
import Prismal.Events.Atomicity
import Prismal.Events.ExactPatch
import Prismal.Events.Interleaving
import Prismal.Identity.Did
import Prismal.Mcp.TaskPoller
import Prismal.Mcp.ToolCache
import Prismal.Memory.Admission
import Prismal.Memory.Coverage
import Prismal.Memory.ErasureClosure
import Prismal.Memory.LongTerm
import Prismal.Memory.PlaybookCuration
import Prismal.Memory.PlaybookErasure
import Prismal.Memory.Preferences
import Prismal.Memory.Recall
import Prismal.Memory.Supersession
import Prismal.Providers.BatchLines
import Prismal.Providers.PromptCache
import Prismal.Providers.Quota
import Prismal.Rag.ContextBudget
import Prismal.Rag.Hierarchical
import Prismal.Rag.Hybrid
import Prismal.Routing.BatchContract
import Prismal.Routing.BatchDuality
import Prismal.Routing.BatchGuarantees
import Prismal.Routing.CanonicalTarget
import Prismal.Routing.Escalation
import Prismal.Routing.PlanCache
import Prismal.Routing.PlanValidation
import Prismal.Scheduler.OneShot
import Prismal.Scheduler.Removal
import Prismal.Security.Audit
import Prismal.Security.HardeningRun
import Prismal.Security.IndirectInjection
import Prismal.Skills.Gates
import Prismal.Skills.ZipInstall
import Prismal.Security.PiiSanitizer
import Prismal.Memory.Graph
import Prismal.Routing.ResponseCache
import Prismal.Security.ActionInterceptor
import Prismal.Decisions.Shadow
import Prismal.Events.WebhookDispatcher
import Prismal.Agents.Reflection
import Prismal.Agents.RunStores
import Prismal.Budget.Enforcement

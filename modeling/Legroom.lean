import Legroom.Sse.LineAgreement
import Legroom.Bedrock.EventStreamAcceptance
import Legroom.LiveZone.ManifestExact
import Legroom.Ccr.InMemoryRuns
import Legroom.SmartCrusher.AnchorBudget
import Legroom.Bedrock.TranslatedStream
import Legroom.CacheStabilization.DriftRuns
import Legroom.SmartCrusher.Conservation
import Legroom.SmartCrusher.LosslessOnly
import Legroom.SmartCrusher.RowDrop
import Legroom.Transforms.DedupRestore
import Legroom.Transforms.DedupSavings
import Legroom.Cache.LineageRuns
import Legroom.Proxy.MetricsRuns
import Legroom.Proxy.HistoryCompaction
import Legroom.Proxy.RateLaw
import Legroom.Proxy.SavingsRollup
import Legroom.Proxy.SavingsRestart
import Legroom.Compression.ToolStage
import Legroom.Cache.FeedbackEvents
import Legroom.Cache.CompressionReplay
import Legroom.Ccr.StreamingHandler
import Legroom.Ccr.Continuation
import Legroom.Transforms.Pipeline
import Legroom.Transforms.ReadLifecycleAccounts
import Legroom.Cache.BreakpointOwnership
import Legroom.Cache.PrefixKey
import Legroom.Transforms.MaturationReplay
import Legroom.Sse.FramerAgreement
import Legroom.Transforms.LogTemplateLossless
import Legroom.Ccr.ContextIsolation
import Legroom.Ccr.Pointers
import Legroom.Transforms.LosslessMarkers
import Legroom.Transforms.ReversibleRuns
import Legroom.Transforms.RouterCacheSafety
import Legroom.Streams.TerminalStatus
import Legroom.Transforms.TagSymmetry
import Legroom.SmartCrusher.Priorities
import Legroom.SmartCrusher.CrusherLaws
import Legroom.Transforms.LogSelection
import Legroom.Transforms.DiffChanges
import Legroom.Transforms.LogTraceCap
import Legroom.Transforms.SearchAccounts
import Legroom.Transforms.NetCostGate
import Legroom.Transforms.DiffNoise
import Legroom.Transforms.BatchSplitting
import Legroom.Transforms.FencedContent
import Legroom.Transforms.RelevanceRecovery
import Legroom.SmartCrusher.SizerBounds
import Legroom.Bedrock.Envelope

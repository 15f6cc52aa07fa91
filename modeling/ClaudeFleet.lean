import ClaudeFleet.Transition
import ClaudeFleet.Lease
import ClaudeFleet.LeaseExclusion
import ClaudeFleet.PgLease
import ClaudeFleet.PgLeaseFence
import ClaudeFleet.Table
import ClaudeFleet.Rollup
import ClaudeFleet.IngestParse
import ClaudeFleet.StateDb
import ClaudeFleet.Ingest
import ClaudeFleet.IngestKnown
import ClaudeFleet.ReplayEffect
import ClaudeFleet.Reingest
import ClaudeFleet.StateOps
import ClaudeFleet.SessionRollups
import ClaudeFleet.BrokerMapping
import ClaudeFleet.TabPromotion
import ClaudeFleet.TabResume
import ClaudeFleet.ReplayBuffer
import ClaudeFleet.AttachHub
import ClaudeFleet.HubStep
import ClaudeFleet.HubSettles
import ClaudeFleet.HubWiring
import ClaudeFleet.HubUpstreams
import ClaudeFleet.HubMembership
import ClaudeFleet.HubStream
import ClaudeFleet.HubOwners
import ClaudeFleet.RingBuffer
import ClaudeFleet.PrefixDecoder
import ClaudeFleet.FrameCodec
import ClaudeFleet.BrokerServer
import ClaudeFleet.BrokerStep
import ClaudeFleet.BrokerIsolation
import ClaudeFleet.BrokerNotices
import ClaudeFleet.BrokerStream
import ClaudeFleet.SerializingDriver
import ClaudeFleet.WriteGate
import ClaudeFleet.Keyset
import ClaudeFleet.StoreExport
import ClaudeFleet.ExportExact
import ClaudeFleet.StoreImport
import ClaudeFleet.ImportExact
import ClaudeFleet.StoreSwitch
import ClaudeFleet.SwitchSafety
import ClaudeFleet.UserState
import ClaudeFleet.LastWriter
import ClaudeFleet.QueryIsolation
import ClaudeFleet.QueryScope
import ClaudeFleet.QueryRevocation
import ClaudeFleet.CaptureScheduler
import ClaudeFleet.CaptureBounds
import ClaudeFleet.ClaimService
import ClaudeFleet.ClaimSafety
import ClaudeFleet.CaptureSettings
import ClaudeFleet.Control
import ClaudeFleet.Manifest
import ClaudeFleet.ManifestSerial
import ClaudeFleet.Vault
import ClaudeFleet.VaultDurable
import ClaudeFleet.Federation
import ClaudeFleet.FederationComplete
import ClaudeFleet.Occurrence
import ClaudeFleet.Loadout
import ClaudeFleet.MarkedRegions
import ClaudeFleet.LoadoutText
import ClaudeFleet.ClaudeMd
import ClaudeFleet.LineSplitter
import ClaudeFleet.Records
import ClaudeFleet.HostIngest
import ClaudeFleet.HostIngestExact
import ClaudeFleet.JsonlWatcher
import ClaudeFleet.WatcherLines
import ClaudeFleet.HistoryMirror
import ClaudeFleet.IngestProgress
import ClaudeFleet.McpDispatch
import ClaudeFleet.RawCodec
import ClaudeFleet.Retention
import ClaudeFleet.RetentionComplete
import ClaudeFleet.RetentionPass
import ClaudeFleet.Notify
import ClaudeFleet.NotifyDigest
import ClaudeFleet.Automations
import ClaudeFleet.ScheduleTicks
import ClaudeFleet.ScheduleOnce
import ClaudeFleet.Proposals
import ClaudeFleet.CaptureStop
import ClaudeFleet.CapturePolicy
import ClaudeFleet.CaptureCost
import ClaudeFleet.QueryAdmission
import ClaudeFleet.UserStateMerge
import ClaudeFleet.MergeLaws
import ClaudeFleet.SqliteFiles
import ClaudeFleet.SidecarSafety
import ClaudeFleet.CaptureEpochs
import ClaudeFleet.LocalSessions
import ClaudeFleet.EmbedderClient
import ClaudeFleet.EmbedderSettles
import ClaudeFleet.IdentityService
import ClaudeFleet.SignInPair
import ClaudeFleet.Roster
import ClaudeFleet.CaptureRatchet
import ClaudeFleet.InputWait
import ClaudeFleet.SourceCredentials
import ClaudeFleet.SessionRefresh
import ClaudeFleet.JsText
import ClaudeFleet.SkipSearch
import ClaudeFleet.Calendar
import ClaudeFleet.Cron
import ClaudeFleet.NextFire
import ClaudeFleet.LabelledBlocks
import ClaudeFleet.Template
import ClaudeFleet.TemplateBlocks
import ClaudeFleet.JsValue
import ClaudeFleet.Check
import ClaudeFleet.Definition
import ClaudeFleet.Validation
import ClaudeFleet.Placeholders
import ClaudeFleet.Normal
import ClaudeFleet.NormalForm
import ClaudeFleet.LineSplitter
import ClaudeFleet.RejectionBudget
import ClaudeFleet.InboxReplay
import ClaudeFleet.ActivityDetector
import ClaudeFleet.VerifyCaches
import ClaudeFleet.AsyncCache
import ClaudeFleet.QueryWorker
import ClaudeFleet.SelfDelimiting
import ClaudeFleet.TokenScope
import ClaudeFleet.TokenReply
import ClaudeFleet.TokenMinter
import ClaudeFleet.MinterSafety
import ClaudeFleet.TextOrder
import ClaudeFleet.PeerStatusWatcher
import ClaudeFleet.PeerStatusSnapshot
import ClaudeFleet.AscendingCode
import ClaudeFleet.ByteOrder
import ClaudeFleet.CommonSubsequence
import ClaudeFleet.LineDiff
import ClaudeFleet.MessageGuard
import ClaudeFleet.StackSearch
import ClaudeFleet.PortOwners
import ClaudeFleet.Numbered
import ClaudeFleet.PortMonitor
import ClaudeFleet.PortExposure
import ClaudeFleet.ExposureLifecycle
import ClaudeFleet.ServingBroadcasts
import ClaudeFleet.PortForward
import ClaudeFleet.StripFaithful
import ClaudeFleet.RunQueue
import ClaudeFleet.RunGates
import ClaudeFleet.RunDrain
import ClaudeFleet.Classify
import ClaudeFleet.AutoApply
import ClaudeFleet.StoreSupervisor
import ClaudeFleet.Calls
import ClaudeFleet.ScriptOutput
import ClaudeFleet.RunEnds

import Delegatus.HandoffFence
import Delegatus.HandoffRollback
import Delegatus.HandoffMigration
import Delegatus.SeatMessageFence
import Delegatus.LastWriter
import Delegatus.LinkedDeletion
import Delegatus.LinkedConvergence
import Delegatus.LinkedAgreement
import Delegatus.LinkedWrites
import Delegatus.LinkedRefusals
import Delegatus.MuxIncarnations
import Delegatus.PairingGrants
import Delegatus.CpuAdmissionFairness
import Delegatus.StageVerdictChannels
import Delegatus.StateRefinement
import Delegatus.StateUpdates
import Delegatus.NativeQueueAccepted
import Delegatus.MembershipRemoval
import Delegatus.MembershipConvergence
import Delegatus.BoardReducer
import Delegatus.BoardClocks
import Delegatus.RelayStoreLock
import Delegatus.FileTransactionExclusion
import Delegatus.RuntimeImageExclusion
import Delegatus.RuntimeImageReachability
import Delegatus.MergeSettling
import Delegatus.RelayRequests
import Delegatus.PostMergeReverts
import Delegatus.HistoryRefinement
import Delegatus.AgentExchange
import Delegatus.LogTails
import Delegatus.LifecycleJournal
import Delegatus.LifecycleAppends
import Delegatus.LifecycleDigest
import Delegatus.LifecycleRelays
import Delegatus.LifecyclePolls
import Delegatus.LifecycleCursors
import Delegatus.InboxComposition
import Delegatus.TaskFeedRuns
import Delegatus.SingleHolders
import Delegatus.TaskFindings
import Delegatus.HandoffOrder
import Delegatus.MembershipFailures
import Delegatus.LatestValues
import Delegatus.CheckRollup
import Delegatus.CheckRollupOrder
import Delegatus.Utf8Decoding
import Delegatus.EventLedger
import Delegatus.EventLedgerTails
import Delegatus.HostTurnRecord
import Delegatus.HostTurnScan
import Delegatus.StageVerdictRecords
import Delegatus.JsonTextLines
import Delegatus.FencedBlocks
import Delegatus.FencedReports
import Delegatus.PendingRows
import Delegatus.LinkedPageWrites
import Delegatus.LinkedRefusedPages
import Delegatus.SeatInbox
import Delegatus.SeatInboxRecords
import Delegatus.SeatInboxOnce
import Delegatus.SlidingWindows
import Delegatus.OrderedLists
import Delegatus.HistoryCounts
import Delegatus.HistoryCountContent
import Delegatus.HistoryCountAnswers
import Delegatus.HistoryWarmCounts
import Delegatus.HeadlessRounds
import Delegatus.HeadlessRoundLog
import Delegatus.HeadlessCaches
import Delegatus.HeadlessWalks
import Delegatus.PublicationHistory
import Delegatus.PublicationRecords
import Delegatus.PublicationMerges
import Delegatus.LegacyReviews
import Delegatus.LegacyReverts
import Delegatus.Sha256
import Delegatus.DeliveryDedup
import Delegatus.VoiceChunks
import Delegatus.Base64
import Delegatus.StructuredUserText
import Delegatus.StampTexts
import Delegatus.RuntimeImageBatches
import Delegatus.RuntimeImageRollback
import Delegatus.BoardKeyCoverage
import Delegatus.BoardAcknowledgements

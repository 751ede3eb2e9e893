import Evener.Lib.KeyedList
import Evener.Lib.UpperBound
import Evener.Lib.Versioned
import Evener.Lib.JsString
import Evener.Lib.JsValue
import Evener.Lib.Transaction
import Evener.Transcript.BootGeneration
import Evener.Transcript.Items
import Evener.Transcript.MergeHistory
import Evener.Transcript.MergeOrder
import Evener.Transcript.History
import Evener.Transcript.Display
import Evener.Transcript.Reducer
import Evener.Transcript.HistoryStep
import Evener.Transcript.NoMixing
import Evener.Transcript.Fence
import Evener.Transcript.DisplayDerived
import Evener.Transcript.DisplayComplete
import Evener.Outbox.Records
import Evener.Outbox.Storage
import Evener.Outbox.Operations
import Evener.Outbox.Run
import Evener.Outbox.Tidy
import Evener.Outbox.Requests
import Evener.Outbox.Effects
import Evener.Outbox.RecoveryEffects
import Evener.Outbox.SettleEffects
import Evener.Outbox.RetargetEffects
import Evener.Outbox.Outcome
import Evener.Outbox.RowFate
import Evener.Outbox.StopFence
import Evener.Outbox.Attempts
import Evener.Outbox.Representation
import Evener.Outbox.RetargetStop
import Evener.Lib.StableSort
import Evener.Jobstore.Records
import Evener.Jobstore.Fold
import Evener.Jobstore.Terminal
import Evener.Lib.Lines
import Evener.Jobstore.Store
import Evener.Jobstore.Coherence
import Evener.Delegatestore.Records
import Evener.Delegatestore.Fold
import Evener.Lib.CheckedFold
import Evener.Delegatestore.Lifecycle
import Evener.Delegatestore.Refinement
import Evener.Delegatestore.Apply
import Evener.Delegatestore.Invariant
import Evener.Delegatestore.SubtreeStop
import Evener.Delegatestore.StoreRuns
import Evener.Foldcache.Sessions
import Evener.Foldcache.Concurrent
import Evener.Lib.Text
import Evener.Lib.Sequences
import Evener.TurnHistory.Items
import Evener.TurnHistory.Coalesce
import Evener.TurnHistory.Partition
import Evener.TurnHistory.Place
import Evener.Lib.JsObject
import Evener.TurnHistory.Placement
import Evener.TurnHistory.OneIdentity
import Evener.ClientMutation.Mentions
import Evener.ClientMutation.StopRuns
import Evener.ClientMutation.Delivery
import Evener.ClientMutation.StartOrder
import Evener.Llm.PartialReads
import Evener.Tool.BreakerRuns
import Evener.Hubcore.RecoveryStore
import Evener.Hubcore.ResumeLocks
import Evener.Hubcore.Fences
import Evener.Hubcore.Authority
import Evener.Hubcore.RemoteWalks
import Evener.Jobstore.OutputRuns
import Evener.Jobstore.OutputFiles
import Evener.Jobstore.OutputCrash
import Evener.TaskStore.Runs
import Evener.Hostreg.Registrations
import Evener.Hostreg.Cycles
import Evener.Jobstore.WatchSends
import Evener.Jobstore.Reconcile
import Evener.Jobstore.JournalRuns
import Evener.Tool.PatchSplice
import Evener.Registry.Globs
import Evener.Shellquote.Words
import Evener.Appoverlay.Recent
import Evener.Jobstore.Grep
import Evener.Valueexpr.Expr
import Evener.Sessionlog.Log
import Evener.Apilog.Codec
import Evener.Cappedoutput.Buffer
import Evener.Delegatestore.DeliveryRuns
import Evener.Apphistory.ChangesKept
import Evener.Contextmgr.Cutoff
import Evener.Contextmgr.SummaryLayout
import Evener.Contextmgr.Budgets
import Evener.Contextmgr.NoteTruth
import Evener.Delegatestore.ReadEvents
import Evener.TranscriptIndex.Keys
import Evener.Jobstore.WatchLiterals
import Evener.Jobstore.OutputPages
import Evener.TranscriptIndex.Continuation
import Evener.Llm.Accumulated
import Evener.GlobPattern.Partners
import Evener.Tool.RepairAliases
import Evener.Tool.Fingerprint
import Evener.Tool.Dispatch
import Evener.Jobstore.OutputEdges

import Marsh.Validator.RegexSemantics
import Marsh.Validator.Transition
import Marsh.Library.Totality
import Marsh.Validator.TransitionSemantics
import Marsh.Validator.Derivative
import Marsh.Validator.SymbolicSemantics
import Marsh.Validator.Compile
import Marsh.Validator.Validator
import Marsh.Validator.CompileSemantics
import Marsh.Validator.Correctness
import Marsh.Validator.FastPaths
import Marsh.Validator.Constructors
import Marsh.Validator.Interning
import Marsh.Validator.Reordering
import Marsh.Library.LastChange
import Marsh.Policy.Git
import Marsh.Policy.KernelSemantics
import Marsh.Policy.GitReference
import Marsh.Policy.GitLanguages
import Marsh.Policy.GitCorrectness
import Marsh.Policy.GitFixes
import Marsh.Policy.GitProjection
import Marsh.Trace.NoSurprise
import Marsh.Library.TransitionSystem
import Marsh.Shellmux.Authority
import Marsh.Shellmux.AuthoritySemantics
import Marsh.Shellmux.History
import Marsh.Shellmux.Interleaving
import Marsh.Shellmux.ReadValidity
import Marsh.Shellmux.JobTable
import Marsh.Shellmux.JobMachine
import Marsh.Shellmux.JobCounts
import Marsh.Shellmux.FailedConclusion
import Marsh.Shellmux.JobSteps
import Marsh.Shellmux.LaunchReservations
import Marsh.Shellmux.ForcedStop
import Marsh.Shellmux.JobSeats
import Marsh.Shellmux.SnapshotLifetime
import Marsh.Shellmux.ClosingJobs
import Marsh.Shellmux.EventDedup
import Marsh.Shellmux.ReaderLeases
import Marsh.Shellmux.LockOrder
import Marsh.Exec.TraceDecoding
import Marsh.Shellmux.OneName
import Marsh.Shellmux.ClosedStorage
import Marsh.Shellmux.DiffApply
import Marsh.Shellmux.WalFrames
import Marsh.Shellmux.Replay
import Marsh.Shellmux.SecondRecovery
import Marsh.Shellmux.JsonLog
import Marsh.Shellmux.Sweep
import Marsh.Exec.GitGrammar
import Marsh.Exec.GitShell
import Marsh.Shellmux.ExecutedPaths
import Marsh.Shellmux.WorkingDirectories
import Marsh.Shellmux.CommitFrames
import Marsh.Validator.Checkpoints
import Marsh.Shellmux.JobNames
import Marsh.Shellmux.MergesQueue
import Marsh.Shellmux.Reconcile
import Marsh.Brush.Syntax
import Marsh.Brush.Evaluation
import Marsh.Brush.Literals
import Marsh.Shellmux.Purity
import Marsh.Shellmux.PureCommands
import Marsh.Shellmux.PurePrograms
import Marsh.Library.StableSort
import Marsh.Shellmux.ExecutionEvidence
import Marsh.Shellmux.SpanBookkeeping
import Marsh.Shellmux.SequentialSpans
import Marsh.Exec.SplitCalls
import Marsh.Exec.Rejoining
import Marsh.Shellmux.RejoinedTraces
import Marsh.Library.PendingWrites
import Marsh.Shellmux.Frontends
import Marsh.Shellmux.Geometry
import Marsh.Shellmux.GeometryAgreement
import Marsh.Shellmux.JobViews
import Marsh.Shellmux.RestFrontend
import Marsh.Shellmux.DisplayConvergence
import Marsh.Library.SegmentWalk
import Marsh.Shellmux.JobDirectories
import Marsh.Shellmux.Repl
import Marsh.Shellmux.JobReferences
import Marsh.Brush.Tokenizer
import Marsh.Shellmux.BackgroundLines
import Marsh.Shellmux.LearnedPurity
import Marsh.Library.LineFraming
import Marsh.Tui.Instrumentation
import Marsh.Tui.Diagnostics
import Marsh.Tui.InputRouting
import Marsh.Tui.InputOrder
import Marsh.Shellmux.CommandLedger
import Marsh.Shellmux.CompletionCallbacks
import Marsh.Shellmux.SoundLedgers
import Marsh.Shellmux.CommandAccounts
import Marsh.Shellmux.CommandReports
import Marsh.Library.EarlyReturn
import Marsh.Library.FileWrites
import Marsh.Gitexec.Repository
import Marsh.Gitexec.Builtins
import Marsh.Gitexec.WorkTree
import Marsh.Gitexec.EntryLists
import Marsh.Gitexec.Refusals
import Marsh.Gitexec.IndexEffects
import Marsh.Gitexec.Committing
import Marsh.Gitexec.Removals
import Marsh.Gitexec.Restoring
import Marsh.Gitexec.Stashing
import Marsh.Gitexec.Acceptance
import Marsh.Trace.Generator
import Marsh.Gitexec.Places
import Marsh.Trace.RowAgreement
import Marsh.Trace.Execution
import Marsh.Trace.GrantedTraces
import Marsh.Trace.ValidatedTraces
import Marsh.Gitexec.Effects
import Marsh.Library.OptimisticStore
import Marsh.Shellmux.DurableAuthority
import Marsh.Shellmux.SerialCommits

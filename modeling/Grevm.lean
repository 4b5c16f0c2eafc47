import Grevm.Applied
import Grevm.BalanceUpdates
import Grevm.Beneficiary
import Grevm.BeneficiaryHistory
import Grevm.Bundle
import Grevm.CacheAnswers
import Grevm.CacheCoherence
import Grevm.CommittedView
import Grevm.Database
import Grevm.Delegated.Funding
import Grevm.Delegated.Handler
import Grevm.Delegated.Journal
import Grevm.Delegated.Planner
import Grevm.IncarnationDb
import Grevm.Leads
import Grevm.LiveReads
import Grevm.Locks
import Grevm.MVMemory
import Grevm.Model
import Grevm.OrderedCommit
import Grevm.ParallelState
import Grevm.PartitionPoint
import Grevm.Plain
import Grevm.Precompile.Facade
import Grevm.Precompile.Internals
import Grevm.ReadCoverage
import Grevm.Reads
import Grevm.RetryQueue
import Grevm.Runs
import Grevm.Scheduler.Agreement
import Grevm.Scheduler.CachedAccounts
import Grevm.Scheduler.CommitPrefix
import Grevm.Scheduler.Completion
import Grevm.Scheduler.Context
import Grevm.Scheduler.Control
import Grevm.Scheduler.Coordinators
import Grevm.Scheduler.Cursor
import Grevm.Scheduler.Deadlock
import Grevm.Scheduler.Enabled
import Grevm.Scheduler.ErrorAgreement
import Grevm.Scheduler.ExecutionFrontier
import Grevm.Scheduler.Explained
import Grevm.Scheduler.Finality
import Grevm.Scheduler.FreshReads
import Grevm.Scheduler.Frontier
import Grevm.Scheduler.Guards
import Grevm.Scheduler.HeadErrors
import Grevm.Scheduler.Machine
import Grevm.Scheduler.Ownership
import Grevm.Scheduler.Progress
import Grevm.Scheduler.Replay
import Grevm.Scheduler.Requeue
import Grevm.Scheduler.Results
import Grevm.Scheduler.Retry
import Grevm.Scheduler.Revalidate
import Grevm.Scheduler.Rounds
import Grevm.Scheduler.Safety
import Grevm.Scheduler.Serial
import Grevm.Scheduler.SharedCache
import Grevm.Scheduler.Solo
import Grevm.Scheduler.State
import Grevm.Scheduler.Steps
import Grevm.Scheduler.Validity
import Grevm.Scheduler.WakeUps
import Grevm.Scheduler.Worker
import Grevm.Sequential
import Grevm.Settlement
import Grevm.SlotOrigin
import Grevm.TxDependency
import Grevm.ViewAgreement
import Grevm.Words

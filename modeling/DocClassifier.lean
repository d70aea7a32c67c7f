import DocClassifier.Lib.Sessions
import DocClassifier.Services
import DocClassifier.ServiceSpecs
import DocClassifier.AuditReplay
import DocClassifier.LastAdmin
import DocClassifier.BatchTransitions
import DocClassifier.Lib.Program
import DocClassifier.Documents
import DocClassifier.Effects
import DocClassifier.Ingest
import DocClassifier.Worker
import DocClassifier.Pipeline
import DocClassifier.Histories
import DocClassifier.Records
import DocClassifier.Locks
import DocClassifier.Stores
import DocClassifier.Predictions
import DocClassifier.Objects
import DocClassifier.Conservation
import DocClassifier.Watcher
import DocClassifier.Restarts
import DocClassifier.Marks
import DocClassifier.Statuses
import DocClassifier.DoneRows
import DocClassifier.Retries
import DocClassifier.FailureFree
import DocClassifier.ExactlyOnce
import DocClassifier.Calls
import DocClassifier.RelabelHistory
import DocClassifier.RelabelPolicy
import DocClassifier.ActiveAdmins
import DocClassifier.LoginNames
import DocClassifier.Queries
import DocClassifier.Rollback
import DocClassifier.AuditTrail
import DocClassifier.Lib.CacheAside
import DocClassifier.Routes
import DocClassifier.Invalidation
import DocClassifier.ListPages
import DocClassifier.CacheAuthorization
import DocClassifier.Lib.CacheRace
import DocClassifier.StaleFill
import DocClassifier.Lib.SlidingWindow
import DocClassifier.LoginLimiter
import DocClassifier.FileNames
import DocClassifier.AcceptedNames
import DocClassifier.Lib.TwoRuns
import DocClassifier.Passwords
import DocClassifier.References
import DocClassifier.Lib.Handlers
import DocClassifier.Isolation
import DocClassifier.Working
import DocClassifier.UploadRoute
import DocClassifier.Settling
import DocClassifier.Lib.LastWrite
import DocClassifier.UploadKeeps
import DocClassifier.ServiceAnswers
import DocClassifier.SerialAdmins
import DocClassifier.MutatingRoutes
import DocClassifier.Lib.Fields
import DocClassifier.PolicyFile
import DocClassifier.Lib.Crash
import DocClassifier.PolicySeeding
import DocClassifier.Lib.ProofOutline
import DocClassifier.ConcurrentCalls
import DocClassifier.Lib.RowHistory
import DocClassifier.CommitOrder
import DocClassifier.Lib.CacheTtl
import DocClassifier.Staleness
import DocClassifier.RequestRights
import DocClassifier.ShippedPolicy
import DocClassifier.Provenance
import DocClassifier.Lib.Simulation
import DocClassifier.Archive
import DocClassifier.BatchFrame
import DocClassifier.WorkingJobs
import DocClassifier.Recovery
import DocClassifier.Resumption
import DocClassifier.AnsweredUploads
import DocClassifier.ShippedReads
import DocClassifier.Lib.Paging
import DocClassifier.BatchPages
import DocClassifier.Lib.Erasure
import DocClassifier.Labels
import DocClassifier.Deployment
import DocClassifier.Lib.JoinedLocks
import DocClassifier.DeploymentHistory

import Admission.Follower
import Admission.Watched.Registry
import Admission.Bucket.Waiting
import Admission.Bucket.Exact
import Admission.Text.Address
import Admission.Document.Json
import Admission.Store.HistoryDocument
import Admission.Fault
import Admission.Main
import Admission.Proofs.Tally
import Admission.Proofs.Cell
import Admission.Proofs.Store
import Admission.Proofs.Commit
import Admission.Proofs.Run
import Admission.Proofs.Ledger
import Admission.Proofs.Commuting
import Admission.Proofs.Ceiling
import Admission.Proofs.Import
import Admission.Proofs.Traversal
import Admission.Proofs.Compiling
import Admission.Proofs.Viewing
import Admission.Proofs.Present
import Admission.Proofs.Restart
import Admission.Proofs.CellRun
import Admission.Proofs.Comparing
import Admission.Proofs.Returning
import Admission.Proofs.Sweeping
import Admission.Proofs.Expiring
import Admission.Proofs.Fitting
import Admission.Proofs.FixedWindow
import Admission.Proofs.Custody
import Admission.Proofs.Amounts
import Admission.Proofs.Nearest
import Admission.Proofs.Doubles
import Admission.Proofs.DoubleArithmetic
import Admission.Proofs.FloatAmounts
import Admission.Proofs.Zeros
import Admission.Proofs.Numbers
import Admission.Proofs.Buckets
import Admission.Proofs.BucketRun
import Admission.Proofs.Spending
import Admission.Proofs.BucketBound
import Admission.Proofs.BucketSweeping
import Admission.Proofs.Restoring
import Admission.Proofs.Touching
import Admission.Proofs.Rewinding
import Admission.Proofs.Admitting
import Admission.Proofs.Escaping
import Admission.Proofs.Grouping
import Admission.Proofs.DescriptorText
import Admission.Proofs.Trimming
import Admission.Proofs.Rereading
import Admission.Proofs.Answering
import Admission.Proofs.Agreeing
import Admission.Proofs.Joining
import Admission.Proofs.Watching
import Admission.Proofs.Serving
import Admission.Proofs.Announcing
import Admission.Proofs.Waiting
import Admission.Proofs.WaitEnding
import Admission.Proofs.Recording
import Admission.Proofs.Keys
import Admission.Proofs.Following

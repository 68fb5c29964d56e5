import NuMoo.Code.Emit
import NuMoo.Code.Image
import NuMoo.Db.Chparent
import NuMoo.Db.VerbCache
import NuMoo.Exec.Handlers
import NuMoo.Code.Sources
import NuMoo.Net.PullInput
import NuMoo.Task.Accounting
import NuMoo.Task.InputRuns
import NuMoo.Waif.Safety
import NuMoo.Waif.Store
import NuMoo.Lib.Assemble
import NuMoo.Task.Wakeup
import NuMoo.Db.Players
import NuMoo.Db.Validate
import NuMoo.Task.Ledger
import NuMoo.Task.Pairing
import NuMoo.Db.Dump
import NuMoo.Lib.Power
import NuMoo.Exec.Numbers
import NuMoo.Exec.Ranges
import NuMoo.Net.Index
import NuMoo.Code.Growth
import NuMoo.Db.Propdefs
import NuMoo.Waif.Reconcile
import NuMoo.Task.Control
import NuMoo.Exec.Failure
import NuMoo.Exec.Scatter
import NuMoo.Exec.Division
import NuMoo.Exec.Positions
import NuMoo.Db.VerbNames
import NuMoo.Db.Match
import NuMoo.Db.Chunks
import NuMoo.Task.Command
import NuMoo.Exec.Binary
import NuMoo.Exec.RangeLoop
import NuMoo.Db.VerbNumbers
import NuMoo.Db.Intern
import NuMoo.Exec.PatternCache
import NuMoo.Net.OutputQueue
import NuMoo.Code.Comments
import NuMoo.Exec.Substitute
import NuMoo.Code.Literal
import NuMoo.Code.Accepted
import NuMoo.Exec.Statement

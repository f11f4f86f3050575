import Wirelog.Columnar.BatchInsert
import Wirelog.Columnar.DeltaStep
import Wirelog.Columnar.NameDirectory
import Wirelog.IR.Stratify
import Wirelog.Plan.Compiled
import Wirelog.Memory.Accounting
import Wirelog.Intern.Bijection
import Wirelog.Workqueue.Progress
import Wirelog.Facade.Rollback
import Wirelog.Columnar.ConsolidateExact
import Wirelog.Arena.LiveHandles
import Wirelog.Arena.HandleRemap
import Wirelog.Extension.Lifetime
import Wirelog.SemiNaive.ForcedDelta
import Wirelog.SemiNaive.Affected
import Wirelog.Plan.PartitionedJoin
import Wirelog.Columnar.RangeSort
import Wirelog.Transport.Deltas
import Wirelog.Functions.Crc32
import Wirelog.Columnar.Publication
import Wirelog.Functions.Uuid5

import Explode.Check.BerkeleyDB
import Explode.Crash.CacheLockstep
import Explode.Crash.Component
import Explode.Crash.DistinctCrashes
import Explode.Crash.FsckTree
import Explode.Crash.KernelChoice
import Explode.Crash.KernelData
import Explode.Crash.LastCheck
import Explode.Crash.RandomSamples
import Explode.Crash.SkipPrefix
import Explode.Crash.WriteSet
import Explode.Driver.Accepted
import Explode.Driver.CanonData
import Explode.Driver.CanonRegions
import Explode.Driver.CheckData
import Explode.Driver.FreshNames
import Explode.Driver.IntersectedRange
import Explode.Driver.Rename
import Explode.Driver.SelfCheck
import Explode.Driver.TreeCanonForm
import Explode.Ekm.LogRoundTrip
import Explode.Ekm.Lsn
import Explode.Mcl.ArchiveBuffer
import Explode.Mcl.BugTrace
import Explode.Mcl.Chains
import Explode.Mcl.Monitor
import Explode.Mcl.PrioQueue
import Explode.Mcl.Restart
import Explode.Mcl.SkipRest

import Karac.Exhaustive.Uninhabited
import Karac.Effects.GroupExpansion
import Karac.Effects.GateCoverage
import Karac.Resolver.LockfileRoundTrip
import Karac.Resolver.GraphWalk
import Karac.Concurrency.EarlyExit
import Karac.Codegen.LoopAssumes
import Karac.Runtime.Csv
import Karac.Runtime.LockWord
import Karac.Runtime.SortByStable
import Karac.Typechecker.Layouts
import Karac.Exhaustive.Unreachable
import Karac.Typechecker.ElisionSound
import Karac.Stdlib.PriorityQueue
import Karac.Runtime.HandleFreed
import Karac.Runtime.StructuredJoin
import Karac.Runtime.ChannelProtocol
import Karac.Runtime.RegistrationKept
import Karac.Lowering.PresizeSound
import Karac.Typechecker.VarianceSound
import Karac.Effects.ViralRule
import Karac.Codegen.PopcountSound
import Karac.Lowering.DefaultArgsFilled
import Karac.Runtime.OutputCapture
import Karac.Cli.FixFaithful
import Karac.Typechecker.InstantiateSound
import Karac.Typechecker.MonoToken
import Karac.Typechecker.BranchJoinBound
import Karac.Flow.UamReal
import Karac.Effects.WithEReported
import Karac.Runtime.LazyOptimized
import Karac.Runtime.WebSocketCleanEnd
import Karac.Runtime.QueryPairs
import Karac.Resolver.RegistryComplete
import Karac.Runtime.BufCacheOwned
import Karac.Interpreter.HalfFloat
import Karac.Runtime.IntFmtAgrees
import Karac.Hash.FixedWidth
import Karac.Map.Reserve
import Karac.Exhaustive.RefinementLiterals
import Karac.Codegen.FanoutRange
import Karac.Concurrency.Reorder
import Karac.Runtime.JsonTree
import Karac.Codegen.AsciiConstLoops
import Karac.Codegen.DequeLowering
import Karac.Concurrency.TabulateSound
import Karac.Stdlib.ProtoTermination
import Karac.Exhaustive.Termination
import Karac.Disjoint.CountedWhile
import Karac.Runtime.WakeupsKept

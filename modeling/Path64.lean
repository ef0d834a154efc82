import Path64.OpenMP.Ring
import Path64.OpenMP.Ordered
import Path64.OpenMP.Single
import Path64.OpenMP.Nested
import Path64.OpenMP.Workers
import Path64.OpenMP.Barrier
import Path64.OpenMP.ForkJoin
import Path64.Bdce.Mark
import Path64.Bdce.Delete
import Path64.Simp.Order
import Path64.Simp.Knot
import Path64.Cg.MinII
import Path64.Cg.SortOPs
import Path64.Cg.IISearch
import Path64.TargInfo.ResRes
import Path64.Cg.LoopScc
import Path64.Util.IdMapEnlarge
import Path64.Util.PriorityQueue
import Path64.Util.BitChoose
import Path64.Com.PuHeader
import Path64.Com.StrTab
import Path64.Com.SegmentedArray
import Path64.Arith.Integer
import Path64.Arith.IeeeAdd
import Path64.Soe.Overflow
import Path64.Soe.ChangeBase
import Path64.Soe.SubTerminates
import Path64.Soe.ProjectExact
import Path64.Soe.AcyclicExact
import Path64.Soe.RemoveRow
import Path64.Dep.Blockable
import Path64.Dep.NormalizeStep
import Path64.Dep.SimpleGcd
import Path64.Dep.CreateArray
import Path64.OpenMP.StaticInit4
import Path64.OpenMP.GuidedMinimum
import Path64.OpenMP.NestLock
import Path64.Dep.BlockablePart
import Path64.Simp.ModRem
import Path64.Simp.EqNeq
import Path64.Simp.Cancel
import Path64.Simp.Chain
import Path64.Simp.Cvt
import Path64.Cg.DominateRegion
import Path64.Opt.DomFrontier
import Path64.Cg.LoopUpdate
import Path64.X8664.X87Stack
import Path64.Lno.Frac
import Path64.Dep.Dependences

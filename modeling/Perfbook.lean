import Perfbook.Conc.Sys
import Perfbook.Lifo.Push
import Perfbook.Conc.Path
import Perfbook.Lifo.Inv
import Perfbook.Lifo.Deliver
import Perfbook.Rcu.Nest
import Perfbook.Rcu.NestInv
import Perfbook.Rcu.NestGp
import Perfbook.Existence.Group
import Perfbook.Existence.Lock
import Perfbook.Existence.Flip
import Perfbook.Existence.Member
import Perfbook.Existence.Switch
import Perfbook.Count.Atomic
import Perfbook.Count.AtomicInv
import Perfbook.Count.AtomicExact
import Perfbook.Count.Sig
import Perfbook.Count.SigInv
import Perfbook.Count.SigExact
import Perfbook.Conc.Ring
import Perfbook.Hash.Table
import Perfbook.Conc.Lin
import Perfbook.Conc.Objects
import Perfbook.Queue.Wf
import Perfbook.Queue.WfInv
import Perfbook.Queue.WfFifo
import Perfbook.Deque.Deq
import Perfbook.Deque.Tandem
import Perfbook.Deque.TandemLin
import Perfbook.Deque.Hashed
import Perfbook.Deque.HashedLin
import Perfbook.CLib.Sort
import Perfbook.Hazptr.Scan
import Perfbook.Bst.Tree
import Perfbook.Issaquah.Tree
import Perfbook.Issaquah.Shape
import Perfbook.Issaquah.Update
import Perfbook.Issaquah.Map
import Perfbook.Issaquah.Forest
import Perfbook.Issaquah.TreeMap
import Perfbook.Issaquah.Move
import Perfbook.Conc.Chain
import Perfbook.Queue.Q
import Perfbook.Queue.QInv
import Perfbook.Hazptr.Route
import Perfbook.Hazptr.RouteInv
import Perfbook.Conc.Prog
import Perfbook.Deque.Rw
import Perfbook.Deque.RwInv
import Perfbook.Deque.RwSafe
import Perfbook.Hash.Has
import Perfbook.Hash.Contents
import Perfbook.Conc.Sections
import Perfbook.Rcu.AtomicGp
import Perfbook.Rcu.Nest32
import Perfbook.Rcu.Nest32Inv
import Perfbook.Rcu.Rcpls
import Perfbook.Rcu.RcplsInv
import Perfbook.Rcu.Ts
import Perfbook.Rcu.Qs
import Perfbook.Rcu.NestQs
import Perfbook.Rcu.Retrigger
import Perfbook.Rcu.Sig
import Perfbook.Promela.Qrcu
import Perfbook.Promela.Dyntick
import Perfbook.Promela.DyntickInv
import Perfbook.Graph.Rank
import Perfbook.Maze.Maze
import Perfbook.Maze.Ops
import Perfbook.Maze.Inv
import Perfbook.Maze.Segment
import Perfbook.Maze.Boundary
import Perfbook.Maze.Create
import Perfbook.Hash.Deletes
import Perfbook.Hash.Trails
import Perfbook.Hash.Readers
import Perfbook.Hash.ReaderSteps
import Perfbook.Hash.Lookups
import Perfbook.Count.Lim
import Perfbook.Count.LimExact
import Perfbook.Hash.Bkt
import Perfbook.Maze.Solve
import Perfbook.Maze.Fg
import Perfbook.Maze.FgInv
import Perfbook.Maze.FgStep
import Perfbook.Conc.Linked
import Perfbook.Skip.Fine
import Perfbook.Skip.Fsck
import Perfbook.Skip.Global
import Perfbook.Skip.Map
import Perfbook.Skip.Par
import Perfbook.Skip.ParInv
import Perfbook.Skip.ParStep
import Perfbook.Skip.Order
import Perfbook.Skip.Lookup
import Perfbook.Alloc.Procon
import Perfbook.Alloc.ProconInv
import Perfbook.Alloc.ProconStep
import Perfbook.Alloc.Smpalloc
import Perfbook.Alloc.SmpallocInv
import Perfbook.Alloc.SmpallocStep
import Perfbook.Count.EndRcu
import Perfbook.Count.EndRcuInv
import Perfbook.Count.EndRcuStep
import Perfbook.Count.Eventual
import Perfbook.Defer.RouteCacm
import Perfbook.Defer.RouteCacmDone
import Perfbook.Defer.Seqlock
import Perfbook.Existence.Kaleidoscope
import Perfbook.Existence.KaleidoscopeInv
import Perfbook.Rcu.FakeKern
import Perfbook.Rcu.FakeKernInv
import Perfbook.Rcu.Srcu
import Perfbook.Rcu.SrcuInv
import Perfbook.Rcu.SrcuStep
import Perfbook.Arith.Schrage
import Perfbook.Issaquah.LockMult
import Perfbook.Lib.Random
import Perfbook.Matmul.Rows
import Perfbook.Skip.Balance
import Perfbook.Skip.Iter
import Perfbook.Conc.Avoid
import Perfbook.Conc.Hung
import Perfbook.Issaquah.Cache
import Perfbook.Issaquah.CacheInv
import Perfbook.Maze.Part
import Perfbook.Maze.Route
import Perfbook.Maze.Start
import Perfbook.Maze.StartFits
import Perfbook.Maze.Stitch
import Perfbook.Maze.Children
import Perfbook.Maze.ChildrenInv
import Perfbook.Maze.ChildrenStep
import Perfbook.Maze.ChildrenDone
import Perfbook.Maze.ChildrenStart
import Perfbook.Conc.Finds
import Perfbook.Conc.Glimpse
import Perfbook.Defer.RouteRcu
import Perfbook.Defer.RouteRcuInv
import Perfbook.Defer.RouteRcuLin
import Perfbook.Hash.BktRcu
import Perfbook.Hash.BktRcuInv
import Perfbook.Hash.BktRcuLin
import Perfbook.Conc.Tally
import Perfbook.Count.End
import Perfbook.Count.EndInv
import Perfbook.Count.Stat
import Perfbook.Defer.RouteSeqlock
import Perfbook.Defer.RouteSeqlockInv
import Perfbook.Defer.RouteSeqlockLin

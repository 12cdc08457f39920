import Hotpath.Book.Cleared
import Hotpath.Book.CrossVal
import Hotpath.Book.FlatBest
import Hotpath.Book.FlatBook
import Hotpath.Book.FlatMap
import Hotpath.Book.FlatRefine
import Hotpath.Book.FlatRep
import Hotpath.Book.FlatSnapshot
import Hotpath.Book.FreshStart
import Hotpath.Book.FuzzBook
import Hotpath.Book.HybridBest
import Hotpath.Book.HybridFifo
import Hotpath.Book.HybridGrid
import Hotpath.Book.HybridLevels
import Hotpath.Book.HybridLine
import Hotpath.Book.HybridOneBid
import Hotpath.Book.HybridOps
import Hotpath.Book.HybridOrders
import Hotpath.Book.HybridQueues
import Hotpath.Book.HybridRefine
import Hotpath.Book.HybridRep
import Hotpath.Book.HybridSnapshot
import Hotpath.Book.IntrusiveBook
import Hotpath.Book.IntrusiveRefine
import Hotpath.Book.IntrusiveTwin
import Hotpath.Book.Line
import Hotpath.Book.LiveRefs
import Hotpath.Book.MapBook
import Hotpath.Book.MapLevels
import Hotpath.Book.Rejection
import Hotpath.Book.Room
import Hotpath.Book.Tape
import Hotpath.Core.OpenHashRefine
import Hotpath.Core.OpenHashSame
import Hotpath.Core.OpenHashValues
import Hotpath.Ipc.Handles
import Hotpath.Ipc.ShmGaps
import Hotpath.Ipc.ShmLayout
import Hotpath.Ipc.ShmLossless
import Hotpath.Ipc.ShmPublish
import Hotpath.Ipc.ShmRead
import Hotpath.Ipc.SpscInvariant
import Hotpath.Ipc.SpscQueue
import Hotpath.Ipc.SpscRing
import Hotpath.Ipc.SpscSpin
import Hotpath.Ipc.SpscWhole
import Hotpath.Ipc.SpscWords
import Hotpath.Itch.ByteOrder
import Hotpath.Itch.Decode
import Hotpath.Itch.Framing
import Hotpath.Itch.FuzzParse
import Hotpath.Itch.Messages
import Hotpath.Itch.Reader
import Hotpath.Itch.StreamEnd
import Hotpath.Itch.SymbolText
import Hotpath.Rtl.Assertions
import Hotpath.Rtl.CoSim
import Hotpath.Rtl.ItchParse
import Hotpath.Rtl.Refine
import Hotpath.Rtl.Serial
import Hotpath.Rtl.Testbench
import Hotpath.Sim.Accounts
import Hotpath.Sim.Bootstrap
import Hotpath.Sim.BootstrapBlocks
import Hotpath.Sim.BootstrapMean
import Hotpath.Sim.BootstrapPaired
import Hotpath.Sim.Breakdowns
import Hotpath.Sim.FillDominance
import Hotpath.Sim.Flight
import Hotpath.Sim.MarketMaker
import Hotpath.Sim.Membership
import Hotpath.Sim.NaivePass
import Hotpath.Sim.NoSweep
import Hotpath.Sim.Outcomes
import Hotpath.Sim.QueueAhead
import Hotpath.Sim.QueueRun
import Hotpath.Sim.SharedBook
import Hotpath.Sim.SignalReport
import Hotpath.Sim.SignalStudy
import Hotpath.Sim.StrategyEval
import Hotpath.Sim.Touch
import Hotpath.Sim.TradedVolume
import Hotpath.Support.Fallible
import Hotpath.Support.Layout
import Hotpath.Support.Places
import Hotpath.Support.Recycled
import Hotpath.Support.Rising
import Hotpath.Support.ShiftRegister
import Hotpath.Support.XorShift
import Hotpath.Tools.BenchParse
import Hotpath.Tools.ExtractTape
import Hotpath.Tools.FuzzCampaign
import Hotpath.Tools.GateAgreement
import Hotpath.Tools.ItchStat
import Hotpath.Tools.Litmus
import Hotpath.Tools.Pipeline
import Hotpath.Tools.PipelineProgress
import Hotpath.Tools.PipelineRun
import Hotpath.Tools.ShmSession
import Hotpath.Tools.TapeFiles
import Hotpath.Tools.TapeSlots
import Hotpath.Tools.TapeStat
import Hotpath.Tools.TapeStream

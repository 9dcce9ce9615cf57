import Gem5.Proofs.Arch.Riscv.PMP
import Gem5.Proofs.Base.CircularQueue
import Gem5.Proofs.Base.TrieRun
import Gem5.Proofs.Mem.CacheBlk
import Gem5.Proofs.Mem.Compressors.Sizes
import Gem5.Proofs.Mem.MemChecker
import Gem5.Proofs.Mem.PacketQueue
import Gem5.Proofs.Mem.SkewedAssociative
import Gem5.Proofs.MyMinor.Buffers
import Gem5.Proofs.MyMinor.Coherence
import Gem5.Proofs.MyMinor.Interrupts
import Gem5.Proofs.MyMinor.LSQCounters
import Gem5.Proofs.MyMinor.LSQPanics
import Gem5.Proofs.MyMinor.LVPT
import Gem5.Proofs.MyMinor.Scoreboard
import Gem5.Proofs.MyMinor.SelfStallingPipeline
import Gem5.Proofs.MyMinor.SplitLoad
import Gem5.Proofs.MyMinor.StoreCoverage
import Gem5.Proofs.MyMinor.Training
import Gem5.Proofs.MyMinor.UseCVU
import Gem5.Proofs.MyMinor.ValuePrediction
import Gem5.Proofs.O3.StoreSet
import Gem5.Proofs.Pred.GlobalHistory
import Gem5.Proofs.Pred.Poison
import Gem5.Proofs.Pred.RAS
import Gem5.Proofs.Sim.Checkpoint
import Gem5.Proofs.Sim.FutexMap

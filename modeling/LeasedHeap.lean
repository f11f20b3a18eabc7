import LeasedHeap.Crew
import LeasedHeap.Pool
import LeasedHeap.Proofs.Drops
import LeasedHeap.Proofs.Immutability
import LeasedHeap.Proofs.Interleaving
import LeasedHeap.Session
import LeasedHeap.Proofs.Comparison
import LeasedHeap.Proofs.HighWater
import LeasedHeap.Proofs.Activations
import LeasedHeap.Proofs.Towers
import LeasedHeap.Proofs.Deeds
import LeasedHeap.Proofs.LeastLimit
import LeasedHeap.Proofs.RunningTotals
import LeasedHeap.Proofs.SerialOrder
import LeasedHeap.Proofs.Spans
import LeasedHeap.Proofs.SharedReclaiming
import LeasedHeap.Proofs.Readability
import LeasedHeap.Proofs.Sequences
import LeasedHeap.Proofs.Acyclicity
import LeasedHeap.Proofs.Blocks
import LeasedHeap.Proofs.Breaks
import LeasedHeap.Proofs.Indentation
import LeasedHeap.Proofs.Layouts

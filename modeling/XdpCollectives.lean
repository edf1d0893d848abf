import XdpCollectives.Benchmark.Number
import XdpCollectives.Benchmark.Results
import XdpCollectives.Benchmark.Theorems.Format
import XdpCollectives.Benchmark.Theorems.RoundTrip
import XdpCollectives.Cascade.Basic
import XdpCollectives.Circular.Basic
import XdpCollectives.Csv.Basic
import XdpCollectives.Cycle.Basic
import XdpCollectives.Fold.Basic
import XdpCollectives.Fold.Differ
import XdpCollectives.Kernel.Arrival
import XdpCollectives.Kernel.Forwarding
import XdpCollectives.Kernel.Frame
import XdpCollectives.Kernel.Mirror
import XdpCollectives.Kernel.Queue
import XdpCollectives.Kernel.Tables
import XdpCollectives.Kernel.Tc
import XdpCollectives.Kernel.Theorems.Checksum
import XdpCollectives.Kernel.Theorems.Copies
import XdpCollectives.Kernel.Theorems.Delivery
import XdpCollectives.Kernel.Theorems.Frame
import XdpCollectives.Kernel.Theorems.Handle
import XdpCollectives.Kernel.Theorems.Hosts
import XdpCollectives.Kernel.Theorems.Journey
import XdpCollectives.Kernel.Theorems.Linear
import XdpCollectives.Kernel.Theorems.Population
import XdpCollectives.Kernel.Theorems.Queue
import XdpCollectives.Kernel.Theorems.Recognition
import XdpCollectives.Kernel.Theorems.Relay
import XdpCollectives.Kernel.Theorems.Ring
import XdpCollectives.Kernel.Theorems.Storm
import XdpCollectives.Kernel.Theorems.Tree
import XdpCollectives.Kernel.Xdp
import XdpCollectives.Machine.Basic
import XdpCollectives.Memory.Basic
import XdpCollectives.Mesh.Basic
import XdpCollectives.Mesh.Theorems.Loop
import XdpCollectives.Mpi.Basic
import XdpCollectives.Mpi.Collectives
import XdpCollectives.Mpi.Forwarding
import XdpCollectives.Mpi.Hosts
import XdpCollectives.Mpi.Main
import XdpCollectives.Mpi.Medium
import XdpCollectives.Mpi.Recv
import XdpCollectives.Mpi.Reduce
import XdpCollectives.Mpi.Send
import XdpCollectives.Mpi.Slots
import XdpCollectives.Mpi.Theorems.Agreement
import XdpCollectives.Mpi.Theorems.Alignment
import XdpCollectives.Mpi.Theorems.AlignmentLaw
import XdpCollectives.Mpi.Theorems.AnySource
import XdpCollectives.Mpi.Theorems.Assembly
import XdpCollectives.Mpi.Theorems.Backlog
import XdpCollectives.Mpi.Theorems.Barrier
import XdpCollectives.Mpi.Theorems.BarrierLaw
import XdpCollectives.Mpi.Theorems.Binomial
import XdpCollectives.Mpi.Theorems.BinomialLaw
import XdpCollectives.Mpi.Theorems.Bounds
import XdpCollectives.Mpi.Theorems.Course
import XdpCollectives.Mpi.Theorems.Datagrams
import XdpCollectives.Mpi.Theorems.Doubled
import XdpCollectives.Mpi.Theorems.Duplicates
import XdpCollectives.Mpi.Theorems.Eager
import XdpCollectives.Mpi.Theorems.Fallback
import XdpCollectives.Mpi.Theorems.Forwarding
import XdpCollectives.Mpi.Theorems.FragmentPlan
import XdpCollectives.Mpi.Theorems.Fragments
import XdpCollectives.Mpi.Theorems.Framing
import XdpCollectives.Mpi.Theorems.Hops
import XdpCollectives.Mpi.Theorems.Hosts
import XdpCollectives.Mpi.Theorems.Linear
import XdpCollectives.Mpi.Theorems.Losses
import XdpCollectives.Mpi.Theorems.Main
import XdpCollectives.Mpi.Theorems.Mixing
import XdpCollectives.Mpi.Theorems.Observed
import XdpCollectives.Mpi.Theorems.Parts
import XdpCollectives.Mpi.Theorems.Peers
import XdpCollectives.Mpi.Theorems.PeersLaw
import XdpCollectives.Mpi.Theorems.Pipeline
import XdpCollectives.Mpi.Theorems.Plain
import XdpCollectives.Mpi.Theorems.Plans
import XdpCollectives.Mpi.Theorems.Reassembly
import XdpCollectives.Mpi.Theorems.Recovery
import XdpCollectives.Mpi.Theorems.RecoveryLaw
import XdpCollectives.Mpi.Theorems.Reduce
import XdpCollectives.Mpi.Theorems.Relapses
import XdpCollectives.Mpi.Theorems.Relays
import XdpCollectives.Mpi.Theorems.Results
import XdpCollectives.Mpi.Theorems.Ring
import XdpCollectives.Mpi.Theorems.Rounds
import XdpCollectives.Mpi.Theorems.Schedule
import XdpCollectives.Mpi.Theorems.Separation
import XdpCollectives.Mpi.Theorems.SizeGuard
import XdpCollectives.Mpi.Theorems.Slots
import XdpCollectives.Mpi.Theorems.Stored
import XdpCollectives.Mpi.Theorems.Tree
import XdpCollectives.Mpi.Theorems.Unordered
import XdpCollectives.Mpi.Theorems.Untrusted
import XdpCollectives.Mpi.Theorems.Xdp
import XdpCollectives.OnesComplement.Basic
import XdpCollectives.Packet.Checksum
import XdpCollectives.Packet.Theorems.Checksum
import XdpCollectives.Process.Basic
import XdpCollectives.Process.Contract
import XdpCollectives.Process.Erasure
import XdpCollectives.Process.Feed
import XdpCollectives.Process.Gathering
import XdpCollectives.Process.Network
import XdpCollectives.Process.Performs
import XdpCollectives.Process.Reordering
import XdpCollectives.Process.Simulation
import XdpCollectives.Process.Stream
import XdpCollectives.Process.Traces
import XdpCollectives.Rounding.Basic
import XdpCollectives.Script.Basic
import XdpCollectives.Script.Count
import XdpCollectives.Script.Flow
import XdpCollectives.Script.Rounds
import XdpCollectives.Script.Runs
import XdpCollectives.Store.Basic
import XdpCollectives.Wire.Header
import XdpCollectives.Wire.Hton
import XdpCollectives.Wire.Theorems.Order
import XdpCollectives.Wire.Types

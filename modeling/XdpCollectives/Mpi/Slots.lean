import XdpCollectives.Mpi.Collectives
import XdpCollectives.Process.Erasure

-- The collectives before an observer who writes down every index into `socket_tcp_fd` and `peer_addrs`.
namespace Mpi

open Memory Wire Process

-- A note that was taken before, or an index.
inductive Mark
  | note (n : Note)
  | slot (i : Int)

instance : Observer Mark where
  note   := .note
  slot i := some (.slot i)

abbrev Marked := Prog Mark

def Mark.note? : Mark → Option Note
  | note n => some n
  | slot _ => none

-- The program without its slots.
def erase (x : Marked α) : Program α :=
  x.filterNotes Mark.note?

-- The collectives that one program may call.
inductive Collective
  | barrierRing
  | bcast
  | bcastRing
  | bcastLinear
  | bcastRingXdp
  | bcastLinearXdp
  | bcastRingXdpEager
  | bcastXdp
  deriving DecidableEq, Repr

namespace Collective

variable {E : Type} [Observer E]

def perform (c : Collective) (p : ProcessInfo) (buf : Mem) (count : Int) (datatype : MPIDatatype) (root : Nat) :
    Prog E Unit :=
  match c with
  | barrierRing       => discard <| mpiBarrierRing p
  | bcast             => discard <| mpiBcast p buf count datatype root
  | bcastRing         => discard <| mpiBcastRing p buf count datatype root
  | bcastLinear       => discard <| mpiBcastLinear p buf count datatype root
  | bcastRingXdp      => discard <| mpiBcastRingXdp p buf count datatype root
  | bcastLinearXdp    => discard <| mpiBcastLinearXdp p buf count datatype root
  | bcastRingXdpEager => discard <| mpiBcastRingXdpEager p buf count datatype root
  | bcastXdp          => discard <| mpiBcastXdp p buf count datatype root

variable (c : Collective) (count : Int) (datatype : MPIDatatype) (root : Nat)

-- All of the `n` ranks call it with the same arguments, but for their buffers.
def observed (n : Nat) (P : Nat → ProcessInfo) (bufs : Nat → Mem) : Net E :=
  .start fun r => if r < n then c.perform (P r) (bufs r) count datatype root else .ret ()

def network (n : Nat) (P : Nat → ProcessInfo) (bufs : Nat → Mem) : Net Note :=
  c.observed count datatype root n P bufs

def marked (n : Nat) (P : Nat → ProcessInfo) (bufs : Nat → Mem) : Net Mark :=
  c.observed count datatype root n P bufs

end Collective
end Mpi

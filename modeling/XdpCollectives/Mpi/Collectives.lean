import XdpCollectives.Mpi.Recv
import XdpCollectives.Process.Network

open Memory Wire Process

namespace Mpi

variable {E : Type} [Observer E]

def mpiBarrierRing (p : ProcessInfo) : Prog E Int := do
  let dummy : Mem := fun _ => 0
  let tag := 9999
  if p.rank = 0 then
    let _ ← _mpiSendTcp p dummy 1 .int p.rank p.next tag .send
    let _ ← _mpiRecvTcp p dummy 1 .int p.prev
    return 0
  else
    let (_, dummy) ← _mpiRecvTcp p dummy 1 .int p.prev
    let _ ← _mpiSendTcp p dummy 1 .int p.rank p.next tag .send
    return 0

def mpiBcastRing (p : ProcessInfo) (buf : Mem) (count : Int) (datatype : MPIDatatype) (root : Nat) :
    Prog E (Int × Mem × ProcessInfo) := do
  let tag := 1
  if p.rank = root then
    let (_, p) ← mpiSend p buf count datatype p.next tag
    return (0, buf, p)
  else
    let (err, buf, p) ← mpiRecv p buf count datatype p.prev tag
    if err < 0 then return (-1, buf, p)
    _mpiSendTcpLostPacket p .ack p.rank p.prev tag .send
    if p.next ≠ root then
      let (_, p) ← mpiSend p buf count datatype p.next tag
      return (0, buf, p)
    return (0, buf, p)

def mpiBcastRingXdpEager (p : ProcessInfo) (buf : Mem) (count : Int) (datatype : MPIDatatype)
    (root : Nat) : Prog E (Int × Mem × ProcessInfo) := do
  let tag := 1
  if p.rank = root then
    let (_, p) ← _mpiSend p buf count datatype root p.next tag .bcastRing
    return (0, buf, p)
  else
    let (err, buf, p) ← mpiRecvNoAck p buf count datatype p.prev
    if err < 0 then return (-1, buf, p)
    return (0, buf, p)

-- The root waits for one header from each of the other ranks, in the order of their numbers.
def recvAcks (p : ProcessInfo) (buf : Mem) (count : Int) (datatype : MPIDatatype) (tag : Int)
    (rest : Mem) : List Nat → Prog E Unit
  | []      => pure ()
  | i :: is => do
    if p.rank ≠ i then
      let h ← recvHeader p i rest
      if h.datatype.toNat = MPIDatatype.nack.code then
        let _ ← _mpiSendTcp p buf count datatype p.rank h.root.toInt tag .send
    recvAcks p buf count datatype tag rest is

-- `mpi_bcast_ring_xdp` and `mpi_bcast_linear_xdp` differ in the opcode of the datagram, and in what
-- is in the memory for the headers before they are received.
def bcastXdp (collective : MPICollective) (rest : Mem) (p : ProcessInfo) (buf : Mem) (count : Int)
    (datatype : MPIDatatype) (root : Nat) : Prog E (Int × Mem × ProcessInfo) := do
  let tag := 1
  if p.rank = root then
    let (_, p) ← _mpiSend p buf count datatype root p.next tag collective
    recvAcks p buf count datatype tag rest (List.range p.size)
    return (0, buf, p)
  else
    let (err, buf, p) ← mpiRecv p buf count datatype p.prev tag
    if err < 0 then return (-1, buf, p)
    _mpiSendTcpLostPacket p .ack p.rank root tag .send
    return (0, buf, p)

def mpiBcastRingXdp (p : ProcessInfo) (buf : Mem) (count : Int) (datatype : MPIDatatype) (root : Nat) :
    Prog E (Int × Mem × ProcessInfo) :=
  bcastXdp .bcastRing (fun _ => 0) p buf count datatype root

def mpiBcastLinearXdp (p : ProcessInfo) (buf : Mem) (count : Int) (datatype : MPIDatatype) (root : Nat) :
    Prog E (Int × Mem × ProcessInfo) :=
  bcastXdp .bcastLinear p.garbage p buf count datatype root

def sendLinear (buf : Mem) (count : Int) (datatype : MPIDatatype) (root : Nat) (tag : Int) :
    List Nat → ProcessInfo → Prog E ProcessInfo
  | [],      p => pure p
  | i :: is, p => do
    if i ≠ root then
      let (_, p) ← mpiSend p buf count datatype i tag
      sendLinear buf count datatype root tag is p
    else sendLinear buf count datatype root tag is p

def mpiBcastLinear (p : ProcessInfo) (buf : Mem) (count : Int) (datatype : MPIDatatype) (root : Nat) :
    Prog E (Int × Mem × ProcessInfo) := do
  let tag := 1
  if p.rank = root then
    let p ← sendLinear buf count datatype root tag (List.range p.size) p
    return (0, buf, p)
  else
    let (err, buf, p) ← mpiRecv p buf count datatype root tag
    if err < 0 then return (-1, buf, p)
    _mpiSendTcpLostPacket p .ack p.rank root tag .send
    return (0, buf, p)

-- The loop of `mpi_bcast` over its rounds, which ends when `step` is not smaller than the number of ranks. `rel` is
-- the rank as seen from the root.
def bcastRounds (count : Int) (datatype : MPIDatatype) (root rel size : Nat) : (fuel step : Nat) → Mem → ProcessInfo →
    Prog E (Int × Mem × ProcessInfo)
  | 0,        _,    buf, p => return (0, buf, p)
  | fuel + 1, step, buf, p => do
    if size ≤ step then return (0, buf, p)
    let tag := 1
    if rel < step then
      let dst := rel + step
      if dst < size then
        let realDst := (dst + root) % size
        let (_, p) ← mpiSend p buf count datatype realDst tag
        bcastRounds count datatype root rel size fuel (step * 2) buf p
      else bcastRounds count datatype root rel size fuel (step * 2) buf p
    else if rel < step * 2 then
      let src := rel - step
      let realSrc := (src + root) % size
      let (err, buf, p) ← mpiRecv p buf count datatype realSrc tag
      if err < 0 then return (-1, buf, p)
      bcastRounds count datatype root rel size fuel (step * 2) buf p
    else bcastRounds count datatype root rel size fuel (step * 2) buf p

-- As many rounds as ranks are more than enough.
def mpiBcast (p : ProcessInfo) (buf : Mem) (count : Int) (datatype : MPIDatatype) (root : Nat) :
    Prog E (Int × Mem × ProcessInfo) :=
  let size := p.size
  let rel := (p.rank + size - root) % size
  bcastRounds count datatype root rel size size 1 buf p

-- `mpi_bcast_xdp` sends to the two children of a rank in the tree.
def sendChildren (p : ProcessInfo) (buf : Mem) (count : Int) (datatype : MPIDatatype) (root : Nat) (tag : Int) :
    Prog E ProcessInfo := do
  let dstOne := (2 * p.rank + 1) % p.size
  let dstTwo := (2 * p.rank + 2) % p.size
  let (_, p) ← _mpiSend p buf count datatype root dstOne tag .bcast
  let (_, p) ← _mpiSend p buf count datatype root dstTwo tag .bcast
  return p

def mpiBcastXdp (p : ProcessInfo) (buf : Mem) (count : Int) (datatype : MPIDatatype) (root : Nat) :
    Prog E (Int × Mem × ProcessInfo) := do
  let tag := 1
  let src := ((p.rank : Int) - 2 + p.size).tmod p.size
  if root = 0 then
    if p.rank = root then
      let p ← sendChildren p buf count datatype root tag
      return (0, buf, p)
  else
    let p ← if p.rank = root then do
        let (_, p) ← _mpiSend p buf count datatype root 0 tag .bcast
        pure p
      else pure p
    if p.rank = 0 then
      let (err, buf, p) ← mpiRecv p buf count datatype src tag
      if err < 0 then return (-1, buf, p)
      let p ← sendChildren p buf count datatype root tag
      return (0, buf, p)
  if p.rank ≠ root ∧ p.rank ≠ 0 then
    let (err, buf, p) ← mpiRecv p buf count datatype src tag
    if err < 0 then return (-1, buf, p)
    return (0, buf, p)
  return (0, buf, p)

inductive Bcast
  | ring
  | linear
  | ringXdp
  | linearXdp
  | ringXdpEager
  deriving DecidableEq, Repr

def Bcast.perform : Bcast → (p : ProcessInfo) → (buf : Mem) → (count : Int) → MPIDatatype →
    (root : Nat) → Program (Int × Mem × ProcessInfo)
  | ring         => mpiBcastRing
  | linear       => mpiBcastLinear
  | ringXdp      => mpiBcastRingXdp
  | linearXdp    => mpiBcastLinearXdp
  | ringXdpEager => mpiBcastRingXdpEager

-- The calls of a program that all ranks run, with the arguments that they all give.
inductive Call
  | barrier
  | bcast (b : Bcast) (count : Int) (datatype : MPIDatatype) (root : Nat)

def Call.perform (p : ProcessInfo) (buf : Mem) : Call → Program (Int × Mem × ProcessInfo)
  | barrier                      => do return (← mpiBarrierRing p, buf, p)
  | bcast b count datatype root  => b.perform p buf count datatype root

-- The calls `i`, `i + 1`, ... of a rank. `bufs i` is its buffer when it enters call `i`.
def performCalls (bufs : Nat → Mem) : (i : Nat) → List Call → ProcessInfo → Program Unit
  | _, [],      _ => pure ()
  | i, c :: cs, p => do
    .takeNote (.enter i)
    let (ret, buf, p) ← c.perform p (bufs i)
    .takeNote (.leave i ret buf)
    performCalls bufs (i + 1) cs p

-- `mpi_init` allocates the counters with `calloc`.
def ProcessInfo.init (size rank : Nat) (garbage : Mem) : ProcessInfo where
  rank    := rank
  size    := size
  ids _ _ := 0
  garbage := garbage

-- `size` processes that run the same calls over a mesh of connections. `bufs r i` is the buffer of
-- rank `r` for call `i`.
def network (size : Nat) (garbage : Nat → Mem) (bufs : Nat → Nat → Mem) (calls : List Call) : Net Note :=
  .start fun r =>
    if r < size then performCalls (bufs r) 0 calls (.init size r (garbage r)) else .ret ()

-- `size` processes that call `mpi_bcast` once.
def bcastNetwork (size : Nat) (garbage : Nat → Mem) (bufs : Nat → Mem) (count : Nat) (root : Nat) : Net Note :=
  .start fun r =>
    if r < size then do
      let _ ← mpiBcast (.init size r (garbage r)) (bufs r) count .char root
    else .ret ()

end Mpi

import XdpCollectives.Mpi.Basic

open Memory Wire Process

namespace Mpi

variable {E : Type} [Observer E]

-- The loop over the fragments. Every datagram is as long as the largest message: what follows its
-- `len` elements is what the allocated memory held. Elements that do not fit are written past it.
def _mpiSendFragments (p : ProcessInfo) (buf : Mem) (size N elementSize : Nat) (datatype : MPIDatatype)
    (root dest tag : Int) (collective : MPICollective) : (fuel seq : Nat) → Prog E Bool
  | 0,        _   => pure true
  | fuel + 1, seq => do
    let offset := seq * payloadSize
    if size ≤ offset then return true
    let len := if payloadSize < size - offset then payloadSize else size - (N - 1) * payloadSize
    if payloadSize < elementSize * len then .fault else
    let bufptr := if datatype = .unsignedLongLong then 0 else elementSize * offset
    let id := p.ids root.toNat dest.toNat
    let message := (header p root dest collective datatype len tag seq id).encode ++
      genericHton elementSize len (buf.read bufptr (elementSize * len))
    let sent ← p.sendto dest (message ++ p.garbage.read message.length (maxPayload - message.length))
    if !sent then return false
    _mpiSendFragments p buf size N elementSize datatype root dest tag collective fuel (seq + 1)

def _mpiSend (p : ProcessInfo) (buf : Mem) (count : Int) (datatype : MPIDatatype) (root dest tag : Int)
    (collective : MPICollective) : Prog E (Int × ProcessInfo) := do
  let size := datatypeSizeInBytes count datatype
  if size < 1 then return (-1, p)
  let totalSize := i32 (mpiHeader + size)
  let elementSize := datatype.sizeof?.getD 0
  useSlot dest
  if ¬p.InRange root ∨ ¬p.InRange dest then .fault else
  if payloadSize < u64 totalSize then
    let N := (size.toNat + payloadSize - 1) / payloadSize
    let sent ← _mpiSendFragments p buf size.toNat N elementSize datatype root dest tag collective N 0
    if !sent then return (-1, p)
    return (count, p.countId root.toNat dest.toNat)
  else
    if size.toNat < elementSize * u64 count then .fault else
    let id := p.ids root.toNat dest.toNat
    let message := (header p root dest collective datatype count tag 0 id).encode ++
      genericHton elementSize (u64 count) (buf.read 0 (elementSize * u64 count))
    let sent ← p.sendto dest message
    if !sent then return (-1, p)
    return (count, p.countId root.toNat dest.toNat)

def _mpiSendTcp (p : ProcessInfo) (buf : Mem) (count : Int) (datatype : MPIDatatype)
    (root dest tag : Int) (collective : MPICollective) : Prog E Int := do
  let size := datatypeSizeInBytes count datatype
  if size < 1 then return -1
  let totalSize := i32 (mpiHeader + size)
  -- `malloc` of a negative size fails.
  if totalSize < 0 then return -1
  let elementSize := datatype.sizeof?.getD 0
  useSlot dest
  if ¬p.InRange root ∨ ¬p.InRange dest ∨ size.toNat < elementSize * u64 count then .fault else
  let id := p.ids dest.toNat root.toNat
  let message := (header p root dest collective datatype 0 tag 0 id).encode ++
    genericHton elementSize (u64 count) (buf.read 0 (elementSize * u64 count))
  p.send dest message
  return count

def _mpiSendTcpLostPacket (p : ProcessInfo) (datatype : MPIDatatype) (root dest tag : Int)
    (collective : MPICollective) : Prog E Unit := do
  useSlot dest
  if ¬p.InRange root ∨ ¬p.InRange dest then .fault
  else p.send dest (header p root dest collective datatype 0 tag 0 (p.ids dest.toNat root.toNat)).encode

-- A header from a peer, in memory that held `rest`.
def recvHeader (p : ProcessInfo) (source : Int) (rest : Mem) : Prog E Header := do
  let message ← p.recv source mpiHeader
  return Header.decode (message ++ rest.read message.length (mpiHeader - message.length))

def mpiSend (p : ProcessInfo) (buf : Mem) (count : Int) (datatype : MPIDatatype) (dest tag : Int) :
    Prog E (Int × ProcessInfo) := do
  let (_, p) ← _mpiSend p buf count datatype p.rank dest tag .send
  let h ← recvHeader p dest p.garbage
  if h.datatype.toNat = MPIDatatype.nack.code then
    let sent ← _mpiSendTcp p buf count datatype p.rank h.root.toInt tag .send
    return (sent, p)
  return (0, p)

end Mpi

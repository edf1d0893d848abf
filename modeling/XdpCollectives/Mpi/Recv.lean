import XdpCollectives.Mpi.Send

open Memory Wire Process

namespace Mpi

variable {E : Type} [Observer E]

-- The loop that receives `left` more bytes. Every receive returns one byte at least.
def _mpiRecvTcpLoop (p : ProcessInfo) (source : Int) : (fuel left : Nat) → Prog E Bytes
  | 0,        _    => pure []
  | fuel + 1, left => do
    if left = 0 then return []
    let n ← p.recv source left
    let rest ← _mpiRecvTcpLoop p source fuel (left - n.length)
    return n ++ rest

-- The terminator goes behind the elements here.
def _mpiRecvTcp (p : ProcessInfo) (buf : Mem) (count : Int) (datatype : MPIDatatype) (source : Int) :
    Prog E (Int × Mem) := do
  let size := datatypeSizeInBytes count datatype
  if size < 1 then return (-1, buf)
  let totalSize := i32 (mpiHeader + size)
  if totalSize < 0 then return (-1, buf)
  let elementSize := datatype.sizeof?.getD 0
  let message ← _mpiRecvTcpLoop p source totalSize.toNat totalSize.toNat
  if size.toNat < elementSize * u64 count then .fault else
  let buf := buf.write 0 (genericNtoh elementSize (u64 count) (message.drop mpiHeader))
  let buf := terminate datatype elementSize (u64 count) buf
  return (count, buf)

-- `if (source >= 0) MPI_PROCESS->ids[source][MPI_PROCESS->rank] += 1`
def countReceived (p : ProcessInfo) (source : Int) : Prog E ProcessInfo :=
  if source < 0 then pure p
  else if p.InRange source then pure (p.countId source.toNat p.rank)
  else .fault

-- What `mpi_recv` does in place of a datagram that it has not got, or that has the wrong length.
def recvLost (p : ProcessInfo) (buf : Mem) (count : Int) (datatype : MPIDatatype) (source tag : Int) :
    Prog E (Int × Mem × ProcessInfo) := do
  _mpiSendTcpLostPacket p .nack p.rank source tag .send
  let (err, buf) ← _mpiRecvTcp p buf count datatype source
  takeNote (.stored buf)
  let p ← countReceived p source
  return (err, buf, p)

inductive Copied
  | all (buf : Mem)
  | lost
  | fault

-- What the branch on the length of the single datagram and the `switch` on the datatype do.
def storeMessage (buf : Mem) (count size : Int) (datatype : MPIDatatype) (d : Option Bytes) : Copied :=
  let elementSize := datatype.sizeof?.getD 0
  match d with
  | none => .lost
  | some message =>
    if (message.length : Int) - mpiHeader ≠ size then .lost
    else if size.toNat < elementSize * u64 count then .fault
    else
      let buf := buf.write 0 (genericNtoh elementSize (u64 count) (message.drop mpiHeader))
      .all (terminate datatype elementSize (count.toNat - 1) buf)

-- The variables of the loop over the fragments: `fragment`, `total_recv` and the root in the header
-- of the last datagram.
structure Fragments where
  table : Nat → Option Bytes
  total : Nat
  root  : BitVec 32

inductive Received
  | all (fragments : Fragments)
  | lost
  | exit
  | fault

-- One round of the loop. An error of `recvfrom` is not taken for a short datagram, because -1 is
-- compared as an unsigned number, but its data size then matches neither of the two expected ones.
-- The number of a fragment and the length that it claims to have are taken as they come.
def recvFragment (size N elementSize : Nat) (datatype : MPIDatatype) (l : Fragments)
    (d : Option Bytes) : Fragments ⊕ Received :=
  let rem := size % N
  let finalSend := if rem ≠ 0 then size - (N - 1) * payloadSize else payloadSize
  match d with
  | none => .inr .lost
  | some message =>
    let dataSize := (message.length : Int) - mpiHeader
    if message.length < 4 then .inr .lost
    else if dataSize ≠ payloadSize ∧ dataSize ≠ finalSend then .inr .lost
    else
      let message := message ++ List.replicate (maxPayload - message.length) 0
      let h := Header.decode message
      let len := u64 h.len.toInt
      let arrSize := datatypeSizeInBytes h.len.toInt datatype
      if N ≤ h.seq.toNat then .inr .fault
      else if arrSize + 1 < 0 then .inr .exit
      else if payloadSize < elementSize * len ∨ (arrSize + 1).toNat < elementSize * len then .inr .fault
      else
        let arr := genericNtoh elementSize len (message.drop mpiHeader)
        let l : Fragments := {
          table := Function.update l.table h.seq.toNat (some arr)
          total := (l.total + len) % 2 ^ 64
          root  := h.root }
        if size ≤ l.total then .inr (.all l) else .inl l

-- The loop that puts the fragments together. The elements are converted once more, and the place of
-- the terminator counts from the beginning of the buffer or from that of the fragment: it lies before
-- both when `count` is negative.
def assemble (buf : Mem) (count : Int) (N elementSize : Nat) (datatype : MPIDatatype)
    (table : Nat → Option Bytes) : Mem :=
  ((List.range N).foldl (fun (buf, offset) i =>
    match table i with
    | none => (buf, offset)
    | some arr =>
      let len := arr.length / elementSize
      let bufptr := elementSize * offset
      let buf := Mem.write buf bufptr (genericNtoh elementSize len arr)
      let last := if datatype = .char then count.toNat - 1 else offset + (count.toNat - 1)
      (terminate datatype elementSize last buf, offset + len)) (buf, 0)).1

def recvFragments (size N elementSize : Nat) (datatype : MPIDatatype) : Prog E Received :=
  .recvfrom maxPayload (recvFragment size N elementSize datatype) ⟨fun _ => none, 0, 0⟩ .ret

def mpiRecv (p : ProcessInfo) (buf : Mem) (count : Int) (datatype : MPIDatatype) (source tag : Int) :
    Prog E (Int × Mem × ProcessInfo) := do
  let size := datatypeSizeInBytes count datatype
  if size < 1 then return (-1, buf, p)
  let totalSize := i32 (mpiHeader + size)
  if (maxPayload : Int) < totalSize then
    let N := (size.toNat + payloadSize - 1) / payloadSize
    let elementSize := datatype.sizeof?.getD 0
    match ← recvFragments size.toNat N elementSize datatype with
    | .fault => .fault
    | .exit  => .exit
    | .lost  => recvLost p buf count datatype source tag
    | .all l =>
      if datatype.isChar ∧ count < 1 then .fault else
      let buf := assemble buf count N elementSize datatype l.table
      takeNote (.stored buf)
      let p ← countReceived p source
      _mpiSendTcpLostPacket p .ack p.rank l.root.toInt tag .send
      return (count, buf, p)
  else
    if totalSize < 0 then return (-1, buf, p)
    match storeMessage buf count size datatype (← Prog.recvDatagram totalSize.toNat) with
    | .fault => .fault
    | .lost  => recvLost p buf count datatype source tag
    | .all buf =>
      takeNote (.stored buf)
      let p ← countReceived p source
      return (count, buf, p)

def mpiRecvNoAck (p : ProcessInfo) (buf : Mem) (count : Int) (datatype : MPIDatatype) (source : Int) :
    Prog E (Int × Mem × ProcessInfo) := do
  let size := datatypeSizeInBytes count datatype
  if size < 1 then return (-1, buf, p)
  let totalSize := i32 (mpiHeader + size)
  if (maxPayload : Int) < totalSize then
    let N := (size.toNat + payloadSize - 1) / payloadSize
    let elementSize := datatype.sizeof?.getD 0
    match ← recvFragments size.toNat N elementSize datatype with
    | .fault => .fault
    | .exit  => .exit
    | .lost  => return (-1, buf, p)
    | .all l =>
      if datatype.isChar ∧ count < 1 then .fault else
      let buf := assemble buf count N elementSize datatype l.table
      takeNote (.stored buf)
      let p ← countReceived p source
      return (count, buf, p)
  else
    if totalSize < 0 then return (-1, buf, p)
    match storeMessage buf count size datatype (← Prog.recvDatagram totalSize.toNat) with
    | .fault => .fault
    | .lost  => return (-1, buf, p)
    | .all buf =>
      takeNote (.stored buf)
      let p ← countReceived p source
      return (count, buf, p)

end Mpi

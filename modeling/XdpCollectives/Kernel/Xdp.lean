import XdpCollectives.Kernel.Frame

open Memory Wire

namespace Kernel.Xdp

inductive Action
  | aborted
  | drop
  | pass
  | tx
  | clonePass (numCopy : BitVec 32)
  deriving DecidableEq, Repr

-- `struct xdp_md`: `dataMeta` is the word between `data_meta` and `data`, when there is room for one.
structure XdpMd where
  frame    : Frame
  dataMeta : Option (BitVec 32)

-- `none` is the return value -1, after which the caller goes on.
def parseIpPacket (f : Frame) : Option Action :=
  if f.len < ethHlen then some .pass
  else if f.hProto ≠ ethPIp then some .pass
  else if f.len < ethHlen + 20 then some .pass
  else if f.ihl < 5 then some .pass
  else if f.protocol ≠ ipprotoUdp then some .pass
  else if f.len < f.udph + 8 then some .pass
  else none

-- The branch of `MPI_BCAST` in `handle_clone`. It leaves the Ethernet addresses as they are.
def cloneBcast (maps : Maps) (ctx : XdpMd) : Action × Frame :=
  let f := ctx.frame
  if f.rootHost = f.dstHost then (.pass, f)
  else if f.len < 4 then (.pass, f)
  else match ctx.dataMeta with
    | none => (.pass, f)
    | some iterCopy =>
      match maps.numProcess 0#32 with
      | none => (.pass, f)
      | some sizePtr =>
        let size := sizePtr.setWidth 32
        if iterCopy = 0#32 then (.clonePass 2#32, f)
        else
          let next := 2 * f.srcHost + 2
          if size.sle next then (.pass, f)
          else match maps.procToAddress ⟨f.srcHost, next⟩ with
            | none      => (.pass, f)
            | some info => (.tx, f.readdress f.srcHost next info)

-- The branches of `MPI_BCAST_RING` and `MPI_BCAST_LINEAR` in `handle_clone`, which are the same. The
-- remainder of a division by zero is its dividend, in BPF as for `BitVec`.
def cloneNext (maps : Maps) (ctx : XdpMd) : Action × Frame :=
  let f := ctx.frame
  if f.rootHost = f.dstHost then (.pass, f)
  else if f.len < 4 then (.pass, f)
  else match ctx.dataMeta with
    | none => (.pass, f)
    | some iterCopy =>
      match maps.numProcess 0#32 with
      | none => (.pass, f)
      | some sizePtr =>
        let size := sizePtr.setWidth 32
        let next := (f.dstHost + iterCopy) % size
        if f.rootHost = next then (.pass, f)
        else match maps.procToAddress ⟨f.dstHost, next⟩ with
          | none      => (.pass, f)
          | some info => (.tx, f.swapMac.readdress f.dstHost next info)

def handleClone (maps : Maps) (ctx : XdpMd) : Action × Frame :=
  let f := ctx.frame
  if f.len < f.udph + 8 then (.pass, f)
  else if f.len < f.payload + mpiHeader then (.pass, f)
  else if f.magicRejected then (.pass, f)
  else match MPICollective.ofCode f.opcodeHost.toNat with
    | some .send        => (.pass, f)
    | some .bcast       => cloneBcast maps ctx
    | some .bcastRing   => cloneNext maps ctx
    | some .bcastLinear => cloneNext maps ctx
    | some .reduce      => (.pass, f)
    | _                 => (.pass, f)

def handleOriginal (maps : Maps) (f : Frame) : Action :=
  if f.len < f.udph + 8 then .pass
  else if f.len < f.payload + mpiHeader then .pass
  else if f.magicRejected then .pass
  else match maps.numProcess 0#32 with
    | none => .aborted
    | some sizePtr =>
      let size := sizePtr.setWidth 32
      match MPICollective.ofCode f.opcodeHost.toNat with
      | some .send        => .pass
      | some .bcast       => if f.rootHost = f.dstHost then .pass else .clonePass 2#32
      | some .bcastRing   => if f.rootHost = f.dstHost then .pass else .clonePass 1#32
      | some .bcastLinear =>
        if f.rootHost = f.dstHost then .pass
        else if f.rootHost = f.srcHost then .clonePass size
        else .pass
      | some .reduce      => .pass
      | _                 => .pass

-- The verdict on the packet, and the packet as the program leaves it.
def kfunc (maps : Maps) (ctx : XdpMd) : Action × Frame :=
  match parseIpPacket ctx.frame with
  | some ret => (ret, ctx.frame)
  | none =>
    if ctx.frame.saddr = bpfHtonl grecaleIp then
      if ctx.dataMeta.isSome then handleClone maps ctx
      else (handleOriginal maps ctx.frame, ctx.frame)
    else (.drop, ctx.frame)

end Kernel.Xdp

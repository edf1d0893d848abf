import XdpCollectives.Kernel.Frame

open Memory Wire

namespace Kernel.Tc

inductive Action
  | ok
  | shot
  | redirect
  deriving DecidableEq, Repr

def magickMark : BitVec 32 := 0xbabe

-- The fields of `struct __sk_buff` that the program uses.
structure Skb where
  frame : Frame
  mark  : BitVec 32

-- What a run of the program does to a packet: its verdict, the packet as it leaves it, and the
-- clones it has sent back to the ingress hook and out of the interface.
structure Run where
  action  : Action
  skb     : Skb
  ingress : List Skb := []
  egress  : List Frame := []

-- `none` is the return value -1, after which the caller goes on.
def parseIpPacket (f : Frame) : Option Action :=
  if f.len < ethHlen then some .ok
  else if f.hProto ≠ ethPIp then some .ok
  else if f.len < ethHlen + 20 then some .ok
  else if f.ihl < 5 then some .ok
  else if f.protocol ≠ ipprotoUdp then some .ok
  else none

def cloneRing (maps : Maps) (skb : Skb) : Run :=
  let f := skb.frame
  if f.rootHost = f.dstHost then { action := .ok, skb }
  else match maps.numProcess 0#32 with
    | none => { action := .ok, skb }
    | some sizePtr =>
      let next := (f.dstHost + 1#32) % sizePtr.setWidth 32
      if f.rootHost = next then { action := .ok, skb }
      else match maps.procToAddress ⟨f.dstHost, next⟩ with
        | none => { action := .ok, skb }
        | some info =>
          if f.len < ethHlen then { action := .ok, skb }
          else
            let f := f.swapMac.readdress f.dstHost next info
            { action := .redirect, skb := { skb with frame := f } }

-- One round of the loop of `MPI_BCAST_LINEAR`. Each of its paths returns.
def linearRound (maps : Maps) (ret : Int) (skb : Skb) (size i : BitVec 32) : Run :=
  let f := skb.frame
  if f.rootHost = f.dstHost then { action := .shot, skb }
  else
    let next := (f.dstHost + i) % size
    if f.rootHost = next then { action := .ok, skb }
    else match maps.procToAddress ⟨f.dstHost, next⟩ with
      | none => { action := .ok, skb }
      | some info =>
        if f.len < ethHlen then { action := .ok, skb }
        else
          let f := f.swapMac.readdress f.dstHost next info
          let skb := { skb with frame := f }
          if ret < 0 then { action := .ok, skb } else { action := .ok, skb, egress := [f] }

def cloneLinear (maps : Maps) (ret : Int) (skb : Skb) (size : BitVec 32) : Run :=
  if 1#32 < size then linearRound maps ret skb size 1#32 else { action := .ok, skb }

-- `ret` is what `bpf_clone_redirect` returns: a negative value says that it made no clone.
def handleClone (maps : Maps) (ret : Int) (skb : Skb) : Run :=
  let f := skb.frame
  if f.len < f.udph + 1 then { action := .ok, skb }
  else if f.len < f.payload + mpiHeader then { action := .ok, skb }
  else if f.magicRejected then { action := .ok, skb }
  else match maps.numProcess 0#32 with
    | none => { action := .ok, skb }
    | some sizePtr =>
      match MPICollective.ofCode f.opcodeHost.toNat with
      | some .send        => { action := .ok, skb }
      | some .bcastRing   => cloneRing maps skb
      | some .bcastLinear => cloneLinear maps ret skb (sizePtr.setWidth 32)
      | some .reduce      => { action := .ok, skb }
      | _                 => { action := .ok, skb }

-- The branches of `MPI_BCAST_RING` and `MPI_BCAST_LINEAR` in `handle_original`, which are the same:
-- a marked clone goes to the application and the packet itself goes on to `handle_clone`.
def originalBcast (maps : Maps) (ret : Int) (skb : Skb) : Run :=
  if skb.frame.rootHost = skb.frame.dstHost then { action := .ok, skb }
  else match maps.numProcess 0#32 with
    | none => { action := .ok, skb }
    | some _ =>
      let marked := { skb with mark := magickMark }
      if ret < 0 then { action := .ok, skb := marked }
      else
        let skb := { skb with mark := 0#32 }
        match parseIpPacket skb.frame with
        | some action => { action, skb, ingress := [marked] }
        | none =>
          let run := handleClone maps ret skb
          { run with ingress := marked :: run.ingress }

def handleOriginal (maps : Maps) (ret : Int) (skb : Skb) : Run :=
  let f := skb.frame
  if f.len < f.udph + 8 then { action := .ok, skb }
  else if f.len < f.payload + mpiHeader then { action := .ok, skb }
  else if f.magicRejected then { action := .ok, skb }
  else match MPICollective.ofCode f.opcodeHost.toNat with
    | some .send        => { action := .ok, skb }
    | some .bcastRing   => originalBcast maps ret skb
    | some .bcastLinear => originalBcast maps ret skb
    | some .reduce      => { action := .ok, skb }
    | _                 => { action := .ok, skb }

def kfunc (maps : Maps) (ret : Int) (skb : Skb) : Run :=
  if skb.mark = magickMark then
    let skb := { skb with mark := 0#32 }
    match parseIpPacket skb.frame with
    | some action => { action, skb }
    | none        => { action := .ok, skb }
  else match parseIpPacket skb.frame with
    | some action => { action, skb }
    | none =>
      if skb.frame.saddr = bpfHtonl grecaleIp then handleOriginal maps ret skb
      else { action := .shot, skb }

end Kernel.Tc

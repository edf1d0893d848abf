import XdpCollectives.Kernel.Frame
import XdpCollectives.Store.Basic

open Wire Store

namespace Kernel

-- The hash maps that the processes of the application and the programs in the kernel share.
structure Tables where
  addressToProc : HashMap SocketId TupleProcess 1024
  procToAddress : HashMap TupleProcess SocketId 1024

inductive MapUpdate
  | addressToProc (key : SocketId) (value : TupleProcess)
  | procToAddress (key : TupleProcess) (value : SocketId)

def socketMap (src dst : Nat) : SocketId where
  srcIp    := bpfHtonl maestraleIp
  dstIp    := bpfHtonl grecaleIp
  srcPort  := BitVec.ofNat 16 (basePort + src)
  dstPort  := BitVec.ofNat 16 (basePort + dst)
  protocol := ipprotoUdp

def tuple (src dst : Nat) : TupleProcess where
  srcProcc := BitVec.ofNat 32 src
  dstProcc := BitVec.ofNat 32 dst

def peers (n rank : Nat) : List Nat :=
  (List.range n).filter (· ≠ rank)

-- The two loops at the end of `mpi_init`: the entries for the traffic to and from every peer.
def mpiInit (n rank : Nat) : List MapUpdate :=
  ((peers n rank).flatMap fun peer =>
    [.addressToProc (socketMap rank peer) (tuple rank peer), .addressToProc (socketMap peer rank) (tuple peer rank)]) ++
  ((peers n rank).flatMap fun peer =>
    [.procToAddress (tuple rank peer) (socketMap rank peer), .procToAddress (tuple peer rank) (socketMap peer rank)])

namespace Tables

def empty : Tables where
  addressToProc := .empty
  procToAddress := .empty

-- The result of `bpf_map_update_elem` is only printed.
def update (m : Tables) : MapUpdate → Tables
  | .addressToProc k v => { m with addressToProc := m.addressToProc.put (k, v) }
  | .procToAddress k v => { m with procToAddress := m.procToAddress.put (k, v) }

def updates (m : Tables) (us : List MapUpdate) : Tables :=
  us.foldl update m

-- What the programs see of the tables of `n` ranks.
def maps (n : Nat) (m : Tables) : Maps where
  numProcess key := if key = 0#32 then some (BitVec.ofNat 64 n) else none
  procToAddress  := m.procToAddress.lookup

end Tables

-- An order in which the updates of `n` processes reach the maps.
def Interleaves (n : Nat) (os : List (Nat × MapUpdate)) : Prop :=
  ∀ r, (os.filterMap fun o => if o.1 = r then some o.2 else none) = if r < n then mpiInit n r else []

end Kernel

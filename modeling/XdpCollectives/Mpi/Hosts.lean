import XdpCollectives.Kernel.Mirror
import XdpCollectives.Mpi.Forwarding

-- The processes and the programs on one host, and the program on the other one.
namespace Mpi

open Memory Wire Process

-- A packet with this datagram, as it leaves the host.
structure Outgoing (dest : Nat) (d : Bytes) (f : Kernel.Frame) : Prop where
  proto    : f.hProto = Kernel.ethPIp
  ihl      : 5 ≤ f.ihl
  protocol : f.protocol = Kernel.ipprotoUdp
  saddr    : f.saddr = Kernel.bpfHtonl Kernel.maestraleIp
  daddr    : f.daddr = Kernel.bpfHtonl Kernel.grecaleIp
  port     : f.udpDest = BitVec.ofNat 16 (basePort + dest)
  message  : f.message = d

-- The processes with their sockets, the packets that go to the other host and those that come from it.
structure Hosts where
  net   : Net Note
  there : List Kernel.Frame
  back  : List Kernel.Frame

namespace Hosts

inductive Step (n : Nat) (late : Nat → Bool) (handle : Kernel.Frame → Kernel.Outcome) : Hosts → Hosts → Prop
  | act {s : Hosts} {l : Net.Label} {net : Net Note} (first : l.First) (quiet : Cluster.posts s.net l = none)
      (step : s.net.step (Cluster.alone late) l = some net) :
      Step n late handle s { s with net }
  | post {s : Hosts} {l : Net.Label} {net : Net Note} {dest : Nat} {d : Bytes} {f : Kernel.Frame}
      (posted : Cluster.posts s.net l = some (dest, d)) (step : s.net.step (Cluster.alone late) l = some net)
      (outgoing : Outgoing dest d f) :
      Step n late handle s { s with net, there := s.there ++ [f] }
  | mirror {s : Hosts} {l r : List Kernel.Frame} {f : Kernel.Frame} (there : s.there = l ++ f :: r) :
      Step n late handle s { s with there := l ++ r, back := s.back ++ f.returned }
  | arrive {s : Hosts} {l r : List Kernel.Frame} {f : Kernel.Frame} (back : s.back = l ++ f :: r) :
      Step n late handle s
        { net   := Cluster.hand n s.net (handle f).handed
          there := s.there ++ (handle f).sent
          back  := l ++ r }

abbrev Reaches (n : Nat) (late : Nat → Bool) (handle : Kernel.Frame → Kernel.Outcome) : Hosts → Hosts → Prop :=
  Relation.ReflTransGen (Step n late handle)

end Hosts

-- The same processes, with these datagrams before them.
def Hosts.over (s : Hosts) (u : Nat → List Bytes) : Net Note :=
  { s.net with udp := u }

end Mpi

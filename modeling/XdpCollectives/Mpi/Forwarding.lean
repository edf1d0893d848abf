import XdpCollectives.Kernel.Theorems.Copies
import XdpCollectives.Mpi.Medium

-- Processes whose datagrams pass through the programs in the kernel.
namespace Mpi

open Memory Wire Process

-- A message with other ranks for its sender and its destination.
def reroute (d : Bytes) (src dst : Nat) : Bytes :=
  if d.length < 16 then d
  else d.take 8 ++ (encodeField 4 (BitVec.ofNat 32 src) ++ (encodeField 4 (BitVec.ofNat 32 dst) ++ d.drop 16))

theorem reroute_same (d : Bytes) (src dst : Nat) : SameMessage (reroute d src dst) d := by
  rw [reroute]
  split
  case isTrue => exact ⟨rfl, rfl, rfl⟩
  case isFalse hl =>
    have ht : (d.take 8).length = 8 := List.length_take_of_le (by omega)
    refine ⟨?_, List.take_left' ht, ?_⟩
    · simp only [List.length_append, ht, Header.encodeField_length_four, List.length_drop]
      omega
    · rw [← List.append_assoc, ← List.append_assoc]
      exact List.drop_left' (by simp [ht, Header.encodeField_length_four])

def forwarder (p : Kernel.Program) (n : Nat) : Forwarder where
  copy r d :=
    let h := Header.decode d
    match Kernel.forwardedAs h with
    | some op => reroute d (p.source op n h.root.toNat r) r
    | none    => d
  same r d := by
    dsimp only
    split
    case h_1 => exact reroute_same ..
    case h_2 => exact ⟨rfl, rfl, rfl⟩

-- What the programs make of a network of `n` ranks: a broadcast reaches the ranks as often as they have been handed its
-- copies, and a rank may time out if `late` says so.
def forwarding (p : Kernel.Program) (n : Nat) (late : Nat → Bool) : Medium where
  reach _ dest d :=
    let h := Header.decode d
    match Kernel.forwardedAs h with
    | some op => (List.range n).flatMap fun r => List.replicate (p.copies op n h.root.toNat r) r
    | none    => [dest]
  copy       := (forwarder p n).copy
  mayTimeout := late
  mayDrop    := false

-- A packet with this datagram, as it arrives at the program.
structure Wrapped (dest : Nat) (d : Bytes) (f : Kernel.Frame) : Prop where
  mpi     : f.Mpi
  port    : f.udpDest = BitVec.ofNat 16 (basePort + dest)
  message : f.message = d

-- What the socket of rank `r` is handed.
def inbox (n r : Nat) (ys : List (BitVec 16 × Bytes)) : List Bytes :=
  if r < n then (ys.filter (·.1 = BitVec.ofNat 16 (basePort + r))).map Prod.snd else []

-- The processes with their sockets, and the packets that have not arrived at the program yet.
structure Cluster where
  net    : Net Note
  flight : List Kernel.Frame

namespace Cluster

-- What the processes do by themselves: nothing that is sent gets into a socket.
def alone (late : Nat → Bool) : Medium where
  reach _ _ _ := []
  copy _ d    := d
  mayTimeout  := late
  mayDrop     := false

-- The datagram that a step sends.
def posts (s : Net Note) : Net.Label → Option (Nat × Bytes)
  | .run p =>
    match s.prog p with
    | .sendto dest d _ => some (dest, d)
    | _                => none
  | _ => none

-- What the programs let through goes to the sockets.
def hand (n : Nat) (s : Net Note) (fs : List Kernel.Frame) : Net Note :=
  { s with udp := fun r => s.udp r ++ inbox n r (fs.map Kernel.Frame.delivery) }

-- A process takes the first datagram of its socket. Any packet may be the next to arrive.
inductive Step (n : Nat) (late : Nat → Bool) (handle : Kernel.Frame → Kernel.Outcome) : Cluster → Cluster → Prop
  | act {c : Cluster} {l : Net.Label} {net : Net Note} (first : l.First) (quiet : posts c.net l = none)
      (step : c.net.step (alone late) l = some net) :
      Step n late handle c { c with net }
  | post {c : Cluster} {l : Net.Label} {net : Net Note} {dest : Nat} {d : Bytes} {f : Kernel.Frame}
      (posted : posts c.net l = some (dest, d)) (step : c.net.step (alone late) l = some net)
      (wrapped : Wrapped dest d f) :
      Step n late handle c { net, flight := c.flight ++ [f] }
  | arrive {c : Cluster} {l r : List Kernel.Frame} {f : Kernel.Frame} {bs : List Kernel.Frame}
      (flight : c.flight = l ++ f :: r) (reflected : List.Forall₂ Kernel.Frame.Reflected (handle f).sent bs) :
      Step n late handle c { net := hand n c.net (handle f).handed, flight := l ++ r ++ bs }

abbrev Reaches (n : Nat) (late : Nat → Bool) (handle : Kernel.Frame → Kernel.Outcome) : Cluster → Cluster → Prop :=
  Relation.ReflTransGen (Step n late handle)

end Cluster
end Mpi

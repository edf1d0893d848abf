import XdpCollectives.Kernel.Xdp

open Memory Wire

namespace Kernel

def Frame.daddr (f : Frame) : BitVec 32 := f.data.load 4 (ethHlen + 16)

-- The block that returns a packet to its sender: it exchanges the two IP addresses.
def Frame.swapIp (f : Frame) : Frame :=
  let saddr := f.data.load 4 (ethHlen + 12)
  let daddr := f.data.load 4 (ethHlen + 16)
  let m := (f.data.store (w := 4) (ethHlen + 12) daddr).store (w := 4) (ethHlen + 16) saddr
  { f with data := m.store (w := 2) (ethHlen + 10) (ipChecksumXdp m ethHlen) }

-- The program that runs on 192.168.101.2. It sends back what is not UDP as it is, and does not look at
-- the length of the IP header.
def mirror (f : Frame) : Xdp.Action × Frame :=
  if f.len < ethHlen then (.pass, f)
  else if f.hProto ≠ ethPIp then (.pass, f)
  else if f.len < ethHlen + 20 then (.pass, f)
  else if f.protocol ≠ ipprotoUdp then (.tx, f)
  else if f.saddr = bpfHtonl maestraleIp then
    if f.len < f.udph + 8 then (.pass, f)
    else if f.len < f.payload + mpiHeader then (.pass, f)
    else if f.magicRejected then (.pass, f)
    else if f.len < ethHlen then (.drop, f)
    else (.tx, f.swapMac.swapIp)
  else (.pass, f)

-- What comes back of a packet that goes to that host.
def Frame.returned (f : Frame) : List Frame :=
  match mirror f with
  | (.tx, g) => [g]
  | _        => []

end Kernel

import XdpCollectives.Kernel.Frame

open Memory

-- The checksums of the packet builder, on a little-endian host.
namespace Packet

abbrev ntohs := Kernel.bpfNtohs
abbrev htons := Kernel.bpfHtons

-- What `ip_checksum` does with each word.
def accumulate (acc : BitVec 32) (word : BitVec 16) : BitVec 32 :=
  let acc := acc + (ntohs word).setWidth 32
  if 0xffff#32 < acc then acc - 0xffff#32 else acc

-- The rounds with i + 1 < length, where i is even, are those of the first half of `length`.
def ipSum (data : Mem) (length : Nat) : BitVec 32 :=
  let acc := (List.range (length / 2)).foldl (fun acc i => accumulate acc (data.load 2 (2 * i))) 0xffff#32
  if length % 2 = 1 then accumulate acc ((data (length - 1)).setWidth 16) else acc

def ipChecksum (data : Mem) (length : Nat) : BitVec 16 :=
  htons ((~~~ipSum data length &&& 0xffff#32).setWidth 16)

def ipv4Sum (buffer : Mem) (hdrLen : Nat) : BitVec 32 :=
  let count := hdrLen / 2
  let sum := (List.range count).foldl (fun sum i => sum + (ntohs (buffer.load 2 (2 * i))).setWidth 32) 0#32
  if hdrLen % 2 = 1 then sum + (buffer (hdrLen - 1)).setWidth 32 <<< 8 else sum

def ipv4Checksum (buffer : Mem) (hdrLen : Nat) : BitVec 16 :=
  htons ((~~~Kernel.addCarry 2 (ipv4Sum buffer hdrLen)).setWidth 16)

-- The words and the byte that is left of them, from `buf` on.
def udpSum (buffer : Mem) : (buf len : Nat) → BitVec 32 → BitVec 32
  | buf, len + 2, sum => udpSum buffer (buf + 2) len (sum + (buffer.load 2 buf).setWidth 32)
  | buf, 1,       sum => sum + (buffer buf).setWidth 32
  | _,   0,       sum => sum

def udpChecksum (buffer : Mem) (len : Nat) : BitVec 16 :=
  (~~~Kernel.addCarry 2 (udpSum buffer 0 len 0#32)).setWidth 16

end Packet

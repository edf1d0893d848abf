import XdpCollectives.Wire.Types

open Memory Wire

namespace Kernel

structure TupleProcess where
  srcProcc : BitVec 32
  dstProcc : BitVec 32
  deriving DecidableEq, Repr

structure SocketId where
  srcIp    : BitVec 32
  dstIp    : BitVec 32
  srcPort  : BitVec 16
  dstPort  : BitVec 16
  protocol : BitVec 8
  deriving DecidableEq, Repr

-- The maps that both programs read. `address_to_proc` is declared by both and read by neither.
structure Maps where
  numProcess    : BitVec 32 → Option (BitVec 64)
  procToAddress : TupleProcess → Option SocketId

def bpfNtohs (v : BitVec 16) : BitVec 16 :=
  BitVec.ofNat 16 (byteSwap 2 v.toNat)

def bpfNtohl (v : BitVec 32) : BitVec 32 :=
  BitVec.ofNat 32 (byteSwap 4 v.toNat)

abbrev bpfHtons := bpfNtohs
abbrev bpfHtonl := bpfNtohl

theorem bpfNtohl_bpfHtonl (v : BitVec 32) : bpfNtohl (bpfHtonl v) = v := by
  apply BitVec.eq_of_toNat_eq
  have hb := byteSwap_lt 4 v.toNat
  have hv := v.isLt
  have hs := byteSwap_byteSwap 4 v.toNat
  simp only [bpfHtonl, bpfNtohl, BitVec.toNat_ofNat, Nat.reducePow] at *
  rw [Nat.mod_eq_of_lt hb, hs]
  omega

def ethHlen        : Nat := 14
def ethPIp         : BitVec 16 := 0x0800
def ipprotoUdp     : Byte := 17
-- 192.168.101.2
def grecaleIp      : BitVec 32 := 3232261378#32
-- 192.168.101.1
def maestraleIp    : BitVec 32 := 3232261377#32

-- The bytes between `data` and `data_end`.
structure Frame where
  len  : Nat
  data : Mem

namespace Frame

variable (f : Frame)

def hProto : BitVec 16 := bpfNtohs (f.data.load 2 12)
def ihl : Nat := (f.data ethHlen).toNat % 16
def protocol : Byte := f.data (ethHlen + 9)
def saddr : BitVec 32 := f.data.load 4 (ethHlen + 12)

def udph : Nat := ethHlen + f.ihl * 4
def payload : Nat := f.udph + 8

def udpDest : BitVec 16 := bpfNtohs (f.data.load 2 (f.udph + 2))

def rootHost : BitVec 32 := bpfNtohl (f.data.load 4 (f.payload + 4))
def srcHost : BitVec 32 := bpfNtohl (f.data.load 4 (f.payload + 8))
def dstHost : BitVec 32 := bpfNtohl (f.data.load 4 (f.payload + 12))
def opcodeHost : BitVec 32 := bpfNtohl (f.data.load 4 (f.payload + 16))

-- The test on `mpi_header` ahead of every `switch`: it holds of the packets that are turned away.
def magicRejected : Bool :=
  f.data f.payload ≠ 77#8 && f.data (f.payload + 1) ≠ 80#8 && f.data (f.payload + 2) ≠ 73#8 &&
    f.data (f.payload + 3) ≠ 0#8

end Frame

-- The loop that adds the carry, `k` times at most.
def addCarry : (k : Nat) → BitVec 32 → BitVec 32
  | 0,     sum => sum
  | k + 1, sum => if sum >>> 16 ≠ 0 then addCarry k ((sum &&& 0xFFFF#32) + (sum >>> 16)) else sum

def ipChecksumXdp (m : Mem) (ip : Nat) : BitVec 16 :=
  let sum := (List.range 10).foldl (fun sum i =>
    if i = 5 then sum else sum + (bpfNtohs (m.load 2 (ip + 2 * i))).setWidth 32) (0 : BitVec 32)
  bpfHtons ((~~~ addCarry 2 sum).setWidth 16)

theorem carry_toNat (s : BitVec 32) :
    ((s &&& 0xFFFF#32) + (s >>> 16)).toNat = s.toNat % 65536 + s.toNat / 65536 := by
  have hs := s.isLt
  have ha : (s &&& 0xFFFF#32).toNat = s.toNat % 65536 := by
    rw [BitVec.toNat_and]; exact Nat.and_two_pow_sub_one_eq_mod s.toNat 16
  have hr : (s >>> 16).toNat = s.toNat / 65536 := by
    simp [BitVec.toNat_ushiftRight, Nat.shiftRight_eq_div_pow]
  rw [BitVec.toNat_add, ha, hr]
  omega

-- Two rounds are all that a 32-bit sum ever takes.
theorem addCarry_done (sum : BitVec 32) : addCarry 2 sum >>> 16 = 0 := by
  have hz (s : BitVec 32) : s >>> 16 = 0 ↔ s.toNat / 65536 = 0 := by
    simp [← BitVec.toNat_inj, BitVec.toNat_ushiftRight, Nat.shiftRight_eq_div_pow]
  have hs := sum.isLt
  have h₁ := carry_toNat sum
  have h₂ := carry_toNat ((sum &&& 0xFFFF#32) + (sum >>> 16))
  simp only [addCarry]
  split <;> try split
  all_goals simp_all only [ne_eq, Decidable.not_not]
  omega

namespace Frame

-- The block that turns a packet around: it exchanges the two Ethernet addresses.
def swapMac (f : Frame) : Frame :=
  let srcMac := f.data.read 6 6
  let dstMac := f.data.read 0 6
  { f with data := (f.data.write 6 dstMac).write 0 srcMac }

-- The block that readdresses a packet to `next` with the addresses found in `proc_to_address`.
def readdress (f : Frame) (src next : BitVec 32) (info : SocketId) : Frame :=
  let p := f.payload
  let m := f.data.store (w := 4) (p + 8) (bpfHtonl src)
  let m := m.store (w := 4) (p + 12) (bpfHtonl next)
  let m := m.store (w := 2) f.udph (bpfHtons info.srcPort)
  let m := m.store (w := 2) (f.udph + 2) (bpfHtons info.dstPort)
  let m := m.store (w := 2) (f.udph + 6) 0
  let m := m.store (w := 4) (ethHlen + 12) info.srcIp
  let m := m.store (w := 4) (ethHlen + 16) info.dstIp
  { f with data := m.store (w := 2) (ethHlen + 10) (ipChecksumXdp m ethHlen) }

end Frame
end Kernel

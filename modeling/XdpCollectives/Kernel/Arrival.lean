import XdpCollectives.Kernel.Theorems.Relay
import XdpCollectives.Wire.Header

open Memory Wire

namespace Kernel

-- The maps as `mpi_init` fills them for `n` ranks, when they have room for every pair of ranks.
def Maps.filled (n : Nat) : Maps where
  numProcess key  := if key = 0#32 then some (BitVec.ofNat 64 n) else none
  procToAddress t :=
    if t.srcProcc.toNat < n ∧ t.dstProcc.toNat < n ∧ t.srcProcc ≠ t.dstProcc then some {
      srcIp    := bpfHtonl maestraleIp
      dstIp    := bpfHtonl grecaleIp
      srcPort  := BitVec.ofNat 16 (basePort + t.srcProcc.toNat)
      dstPort  := BitVec.ofNat 16 (basePort + t.dstProcc.toNat)
      protocol := ipprotoUdp }
    else none

theorem Maps.filled_complete (h : n ≤ 2 ^ 31) : (Maps.filled n).Complete n where
  fits          := h
  numProcess    := by
    refine ⟨BitVec.ofNat 64 n, by simp [filled], ?_⟩
    rw [BitVec.toNat_ofNat]
    exact Nat.mod_eq_of_lt (by omega)
  procToAddress := by
    intro s hs d hd
    have hs' : s % 2 ^ 32 = s := Nat.mod_eq_of_lt (by omega)
    have hd' : d % 2 ^ 32 = d := Nat.mod_eq_of_lt (by omega)
    simp only [filled, BitVec.toNat_ofNat, hs', hd', hs, hd, true_and, ← BitVec.toNat_inj, ne_eq]
    split <;> simp_all

theorem Maps.filled_ports (h : n ≤ 2 ^ 31) : (Maps.filled n).Ports n := by
  intro s _ d hd info hi
  have hd' : d % 2 ^ 32 = d := Nat.mod_eq_of_lt (by omega)
  simp only [filled, BitVec.toNat_ofNat, hd'] at hi
  split at hi
  case isTrue  => cases hi; rfl
  case isFalse => contradiction

namespace Frame

-- The programs and `mpi_recv` decode the same values.
theorem decode_read (f : Frame) (hn : mpiHeader ≤ n) :
    (Header.decode (f.data.read f.payload n)).root = f.rootHost ∧
    (Header.decode (f.data.read f.payload n)).src = f.srcHost ∧
    (Header.decode (f.data.read f.payload n)).dst = f.dstHost ∧
    (Header.decode (f.data.read f.payload n)).collective = f.opcodeHost := by
  have hf (k : Nat) (hk : k + 4 ≤ n) : decodeField 4 ((f.data.read f.payload n).drop k) =
      bpfNtohl (f.data.load 4 (f.payload + k)) := by
    have hl : ofBytesLE (f.data.read (f.payload + k) 4) < 2 ^ 32 := by
      simpa using ofBytesLE_lt (f.data.read (f.payload + k) 4)
    have hb : byteSwap 4 (ofBytesLE (f.data.read (f.payload + k) 4)) < 256 ^ 4 := byteSwap_lt ..
    rw [decodeField, genericNtoh, genericHton, genericHton, List.append_nil, genericHtonElement,
      ofBytesLE_bytesLE, Mem.read_drop, Mem.read_take _ _ (by omega)]
    simp only [bpfNtohl, Mem.load, htonl, BitVec.toNat_ofNat]
    rw [Nat.mod_eq_of_lt hl, Nat.mod_eq_of_lt hb]
  simp only [mpiHeader] at hn
  exact ⟨hf 4 (by omega), hf 8 (by omega), hf 12 (by omega), hf 16 (by omega)⟩

-- The packet of a message, as it comes in from 192.168.101.2 for the UDP port `dport`.
def ofMessage (sport dport : BitVec 16) (message : List Byte) : Frame :=
  let eth := List.replicate 12 0#8 ++ bytesLE 2 (bpfHtons ethPIp).toNat
  let ip  := [0x45#8, 0#8] ++ bytesLE 2 (bpfHtons (BitVec.ofNat 16 (28 + message.length))).toNat ++
    [0#8, 0#8, 0#8, 0#8, 64#8, ipprotoUdp, 0#8, 0#8] ++ bytesLE 4 (bpfHtonl grecaleIp).toNat ++
    bytesLE 4 (bpfHtonl maestraleIp).toNat
  let udp := bytesLE 2 (bpfHtons sport).toNat ++ bytesLE 2 (bpfHtons dport).toNat ++
    bytesLE 2 (bpfHtons (BitVec.ofNat 16 (8 + message.length))).toNat ++ [0#8, 0#8]
  { len  := eth.length + ip.length + udp.length + message.length
    data := Mem.ofList (eth ++ ip ++ udp ++ message) }

variable {sport dport : BitVec 16} {message : List Byte}

theorem ofMessage_ihl : (ofMessage sport dport message).ihl = 5 := by
  simp [ihl, ofMessage, Mem.ofList, ethHlen, bytesLE]

theorem ofMessage_udph : (ofMessage sport dport message).udph = 34 := by
  rw [udph, ofMessage_ihl, ethHlen]

theorem ofMessage_payload : (ofMessage sport dport message).payload = 42 := by
  rw [payload, ofMessage_udph]

theorem ofMessage_len : (ofMessage sport dport message).len = 42 + message.length := rfl

theorem ofMessage_read :
    (ofMessage sport dport message).data.read 42 message.length = message :=
  Mem.read_ofList_append _ _

theorem ofMessage_udpDest : (ofMessage sport dport message).udpDest = dport := by
  have hr : (ofMessage sport dport message).data.read 36 2 = bytesLE 2 (bpfHtons dport).toNat := rfl
  have hl : (bpfHtons dport).toNat < 256 ^ 2 := (bpfHtons dport).isLt
  have hb := ofBytesLE_bytesLE 2 (bpfHtons dport).toNat
  rw [Nat.mod_eq_of_lt hl] at hb
  rw [udpDest, ofMessage_udph, Mem.load, hr, hb, BitVec.ofNat_toNat]
  exact bpfNtohs_bpfHtons dport

theorem ofMessage_mpi (hl : mpiHeader ≤ message.length) (hm : message.take 4 = magic) :
    (ofMessage sport dport message).Mpi where
  proto    := by simp [hProto, Mem.load, Mem.read, ofMessage, Mem.ofList, bytesLE]; decide
  ihl      := by rw [ofMessage_ihl]
  protocol := by simp [protocol, ofMessage, Mem.ofList, ethHlen, bytesLE]
  fits     := by
    rw [ofMessage_payload, ofMessage_len]
    omega
  magic    := by
    simp only [mpiHeader] at hl
    have hr := Mem.read_take (ofMessage sport dport message).data 42 (n := message.length) (k := 4)
      (by omega)
    rw [ofMessage_payload, ← hr, ofMessage_read, hm]
    rfl
  saddr    := by simp [saddr, Mem.load, Mem.read, ofMessage, Mem.ofList, ethHlen, bytesLE]; decide

-- The packet that `__mpi_send` causes arrives with the ranks of its header.
theorem ofMessage_bcast (h : Header) (op : MPICollective) (ho : h.collective.toNat = op.code) (data) :
    (ofMessage sport dport (h.encode ++ data)).Bcast op h.root.toNat h.src.toNat h.dst.toNat := by
  have hl : mpiHeader ≤ (h.encode ++ data).length := by simp [h.encode_length]
  have ⟨h₁, h₂, h₃, h₄⟩ := decode_read (ofMessage sport dport (h.encode ++ data)) hl
  rw [ofMessage_payload, ofMessage_read, h.decode_encode] at h₁ h₂ h₃ h₄
  exact {
    mpi    := ofMessage_mpi hl (by rw [Header.encode, List.append_assoc]; rfl)
    opcode := by rw [Frame.opcode, ← h₄, ho, MPICollective.ofCode_code]
    root   := congrArg BitVec.toNat h₁.symm
    src    := congrArg BitVec.toNat h₂.symm
    dst    := congrArg BitVec.toNat h₃.symm }

theorem ofMessage_addressed (h : Header) (dport : BitVec 16) (data)
    (hd : dport = BitVec.ofNat 16 (basePort + h.dst.toNat)) :
    (ofMessage sport dport (h.encode ++ data)).Addressed := by
  have hl : mpiHeader ≤ (h.encode ++ data).length := by simp [h.encode_length]
  have ⟨_, _, h₃, _⟩ := decode_read (ofMessage sport dport (h.encode ++ data)) hl
  rw [ofMessage_payload, ofMessage_read, h.decode_encode] at h₃
  rw [Addressed, ofMessage_udpDest, ← h₃, hd]

end Frame
end Kernel

import XdpCollectives.Kernel.Frame

open Memory Wire

namespace Kernel

-- The packets that every check ahead of a `switch` lets through.
structure Frame.Mpi (f : Frame) : Prop where
  proto    : f.hProto = ethPIp
  ihl      : 5 ≤ f.ihl
  protocol : f.protocol = ipprotoUdp
  fits     : f.payload + mpiHeader ≤ f.len
  magic    : f.data.read f.payload 4 = [77#8, 80#8, 73#8, 0#8]
  saddr    : f.saddr = bpfHtonl grecaleIp

-- What the checks themselves ask for: one byte of the magic in its place is enough for them.
structure Frame.Live (f : Frame) : Prop where
  proto    : f.hProto = ethPIp
  ihl      : 5 ≤ f.ihl
  protocol : f.protocol = ipprotoUdp
  fits     : f.payload + mpiHeader ≤ f.len
  magic    : f.magicRejected = false
  saddr    : f.saddr = bpfHtonl grecaleIp

-- How a transmitted packet comes back: only the Ethernet addresses, the IP addresses and the IP
-- checksum may have changed on the way, and it is from 192.168.101.2.
structure Frame.Reflected (t b : Frame) : Prop where
  len   : b.len = t.len
  data  : ∀ j, 12 ≤ j → (j < 24 ∨ 34 ≤ j) → b.data j = t.data j
  saddr : b.saddr = bpfHtonl grecaleIp

namespace Frame

variable {f g t b : Frame} {src next : BitVec 32} {info : SocketId}

theorem Mpi.magicRejected (h : f.Mpi) : f.magicRejected = false := by
  have hm : f.data f.payload = 77#8 := by
    have := h.magic
    simp only [Mem.read, List.cons.injEq] at this
    exact this.left
  simp [Frame.magicRejected, hm]

theorem Mpi.live (m : f.Mpi) : f.Live where
  proto    := m.proto
  ihl      := m.ihl
  protocol := m.protocol
  fits     := m.fits
  magic    := m.magicRejected
  saddr    := m.saddr

theorem le_udph (h : 5 ≤ f.ihl) : 34 ≤ f.udph := by
  simp only [udph, ethHlen]
  omega

-- Two packets that agree in the bytes that the programs read of them.
structure Agree (t b : Frame) : Prop where
  len    : b.len = t.len
  header : ∀ j, 12 ≤ j → j < 24 → b.data j = t.data j
  udp    : ∀ j, 34 ≤ j → b.data j = t.data j

theorem Agree.refl : Agree f f where
  len        := rfl
  header _ _ := fun _ => rfl
  udp _      := fun _ => rfl

theorem Reflected.agree (h : Reflected t b) : Agree t b where
  len    := h.len
  header := fun j h₁ h₂ => h.data j h₁ (.inl h₂)
  udp    := fun j h₁ => h.data j (by omega) (.inr h₁)

theorem swapMac_data (h : 12 ≤ j) : f.swapMac.data j = f.data j := by
  simp only [swapMac]
  rw [Mem.write_outside (by simp; omega), Mem.write_outside (by simp; omega)]

theorem swapMac_agree : Agree f f.swapMac where
  len    := rfl
  header := fun _ h _ => swapMac_data h
  udp    := fun _ h => swapMac_data (by omega)

theorem swapMac_ihl : f.swapMac.ihl = f.ihl := by
  rw [ihl, swapMac_data (by decide), ihl]

theorem Mpi.swapMac_ihl (m : f.Mpi) : 5 ≤ f.swapMac.ihl :=
  Frame.swapMac_ihl.symm ▸ m.ihl

namespace Agree

variable (h : Agree t b)
include h

theorem ihl : b.ihl = t.ihl := by
  simp only [Frame.ihl, h.header ethHlen (by decide) (by decide)]

theorem udph : b.udph = t.udph := by
  simp only [Frame.udph, h.ihl]

theorem payload : b.payload = t.payload := by
  simp only [Frame.payload, h.udph]

theorem hProto : b.hProto = t.hProto := by
  simp only [Frame.hProto]
  rw [Mem.load_congr fun k hk => h.header (12 + k) (by omega) (by omega)]

theorem protocol : b.protocol = t.protocol :=
  h.header _ (by decide) (by decide)

theorem load (hi : 34 ≤ i) : b.data.load w i = t.data.load w i :=
  Mem.load_congr fun k _ => h.udp (i + k) (by omega)

theorem read (hi : 34 ≤ i) : b.data.read i n = t.data.read i n :=
  Mem.read_congr fun k _ => h.udp (i + k) (by omega)

variable (hi : 5 ≤ t.ihl)
include hi

theorem udpDest : b.udpDest = t.udpDest := by
  have := le_udph hi
  simp only [Frame.udpDest, h.udph, h.load (i := t.udph + 2) (by omega)]

theorem rootHost : b.rootHost = t.rootHost := by
  have := le_udph hi
  simp only [Frame.rootHost, h.payload]
  rw [h.load (by simp only [Frame.payload]; omega)]

theorem srcHost : b.srcHost = t.srcHost := by
  have := le_udph hi
  simp only [Frame.srcHost, h.payload]
  rw [h.load (by simp only [Frame.payload]; omega)]

theorem dstHost : b.dstHost = t.dstHost := by
  have := le_udph hi
  simp only [Frame.dstHost, h.payload]
  rw [h.load (by simp only [Frame.payload]; omega)]

theorem opcodeHost : b.opcodeHost = t.opcodeHost := by
  have := le_udph hi
  simp only [Frame.opcodeHost, h.payload]
  rw [h.load (by simp only [Frame.payload]; omega)]

end Agree

-- The bytes that `readdress` leaves as they are.
theorem readdress_data (h : j < 24 ∨ 34 ≤ j) (hu : j < f.udph ∨ f.udph + 4 ≤ j)
    (hc : j < f.udph + 6 ∨ f.payload ≤ j) (hp : j < f.payload + 8 ∨ f.payload + 16 ≤ j) :
    (f.readdress src next info).data j = f.data j := by
  simp only [payload] at *
  simp (disch := omega) only [readdress, ethHlen, payload, Mem.store_outside]

theorem readdress_udph (h : 5 ≤ f.ihl) : (f.readdress src next info).udph = f.udph := by
  have := le_udph h
  simp only [udph, ihl]
  rw [readdress_data] <;> simp only [ethHlen, payload] <;> omega

theorem readdress_payload (h : 5 ≤ f.ihl) : (f.readdress src next info).payload = f.payload := by
  rw [payload, readdress_udph h, payload]

theorem readdress_load (h : i + w ≤ 24 ∨ 34 ≤ i) (hu : i + w ≤ f.udph ∨ f.udph + 4 ≤ i)
    (hc : i + w ≤ f.udph + 6 ∨ f.payload ≤ i) (hp : i + w ≤ f.payload + 8 ∨ f.payload + 16 ≤ i) :
    (f.readdress src next info).data.load w i = f.data.load w i :=
  Mem.load_congr fun _ _ => readdress_data (by omega) (by omega) (by omega) (by omega)

theorem readdress_srcHost (h : 5 ≤ f.ihl) : (f.readdress src next info).srcHost = src := by
  have := le_udph h
  simp only [srcHost, readdress_payload h]
  simp (disch := omega) only [readdress, ethHlen, payload, Mem.load_store_disjoint]
  rw [Mem.load_store_same]
  exact bpfNtohl_bpfHtonl src

theorem readdress_dstHost (h : 5 ≤ f.ihl) : (f.readdress src next info).dstHost = next := by
  have := le_udph h
  simp only [dstHost, readdress_payload h]
  simp (disch := omega) only [readdress, ethHlen, payload, Mem.load_store_disjoint]
  rw [Mem.load_store_same]
  exact bpfNtohl_bpfHtonl next

theorem readdress_rootHost (h : 5 ≤ f.ihl) :
    (f.readdress src next info).rootHost = f.rootHost := by
  have := le_udph h
  simp only [rootHost, readdress_payload h]
  rw [readdress_load] <;> simp only [payload] <;> omega

theorem readdress_opcodeHost (h : 5 ≤ f.ihl) :
    (f.readdress src next info).opcodeHost = f.opcodeHost := by
  have := le_udph h
  simp only [opcodeHost, readdress_payload h]
  rw [readdress_load] <;> simp only [payload] <;> omega

theorem bpfNtohs_bpfHtons (v : BitVec 16) : bpfNtohs (bpfHtons v) = v := by
  apply BitVec.eq_of_toNat_eq
  have hb := byteSwap_lt 2 v.toNat
  have hv := v.isLt
  have hs := byteSwap_byteSwap 2 v.toNat
  simp only [bpfHtons, bpfNtohs, BitVec.toNat_ofNat, Nat.reducePow] at *
  rw [Nat.mod_eq_of_lt hb, hs]
  omega

theorem readdress_udpDest (h : 5 ≤ f.ihl) : (f.readdress src next info).udpDest = info.dstPort := by
  have := le_udph h
  simp only [udpDest, readdress_udph h]
  simp (disch := omega) only [readdress, ethHlen, payload, Mem.load_store_disjoint]
  rw [Mem.load_store_same]
  exact bpfNtohs_bpfHtons info.dstPort

theorem readdress_ihl (h : 5 ≤ f.ihl) : (f.readdress src next info).ihl = f.ihl := by
  have hu : (f.readdress src next info).udph = f.udph := readdress_udph h
  simp only [udph] at hu
  omega

-- What is left of a packet that a program has readdressed, when it comes back.
structure Forwarded (f : Frame) (src next : BitVec 32) (info : SocketId) (b : Frame) : Prop where
  mpi        : b.Mpi
  rootHost   : b.rootHost = f.rootHost
  srcHost    : b.srcHost = src
  dstHost    : b.dstHost = next
  opcodeHost : b.opcodeHost = f.opcodeHost
  udpDest    : b.udpDest = info.dstPort

theorem Mpi.forwarded (m : f.Mpi) (ha : Agree f g) (h : Reflected (g.readdress src next info) b) :
    Forwarded f src next info b := by
  have hi : 5 ≤ g.ihl := ha.ihl.symm ▸ m.ihl
  have hr := h.agree
  have hri : 5 ≤ (g.readdress src next info).ihl := readdress_ihl hi ▸ hi
  have hu := le_udph hi
  exact {
    mpi := {
      proto    := by
        rw [hr.hProto, hProto, readdress_load (by omega) (by omega) (by omega) (by simp only [payload]; omega)]
        exact ha.hProto.trans m.proto
      ihl      := by rw [hr.ihl, readdress_ihl hi]; exact hi
      protocol := by
        rw [hr.protocol, Frame.protocol, readdress_data] <;> simp only [ethHlen, payload] <;> try omega
        exact ha.protocol.trans m.protocol
      fits     := by
        have hl : (g.readdress src next info).len = f.len := ha.len
        rw [hr.payload, hr.len, readdress_payload hi, ha.payload, hl]
        exact m.fits
      magic    := by
        rw [hr.payload, hr.read (by rw [readdress_payload hi, payload]; omega), readdress_payload hi]
        rw [Mem.read_congr fun k hk => readdress_data (by simp only [payload]; omega)
          (by simp only [payload]; omega) (by simp only [payload]; omega) (by omega), ha.payload,
          ha.read (by rw [← ha.payload, payload]; omega)]
        exact m.magic
      saddr    := h.saddr }
    rootHost   := by rw [hr.rootHost hri, readdress_rootHost hi, ha.rootHost m.ihl]
    srcHost    := by rw [hr.srcHost hri, readdress_srcHost hi]
    dstHost    := by rw [hr.dstHost hri, readdress_dstHost hi]
    opcodeHost := by rw [hr.opcodeHost hri, readdress_opcodeHost hi, ha.opcodeHost m.ihl]
    udpDest    := by rw [hr.udpDest hri, readdress_udpDest hi] }

end Frame
end Kernel

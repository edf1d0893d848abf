import XdpCollectives.Kernel.Theorems.Journey
import XdpCollectives.Kernel.Theorems.Recognition

open Memory Wire

-- The packets that go to the other host, and what comes back of them.
namespace Kernel

-- The entries of `proc_to_address` are for packets from one host to the other.
def Maps.Hosted (maps : Maps) : Prop :=
  ∀ t info, maps.procToAddress t = some info → info.srcIp = bpfHtonl maestraleIp ∧ info.dstIp = bpfHtonl grecaleIp

theorem Maps.filled_hosted (n : Nat) : (Maps.filled n).Hosted := by
  intro t info hi
  simp only [filled] at hi
  split at hi
  case isTrue  => cases hi; exact ⟨rfl, rfl⟩
  case isFalse => contradiction

variable {maps : Maps} {f g t b : Frame} {src next : BitVec 32} {info : SocketId}

namespace Frame

-- The packets of the library on their way from 192.168.101.1 to 192.168.101.2.
structure Bound (f : Frame) : Prop where
  proto    : f.hProto = ethPIp
  ihl      : 5 ≤ f.ihl
  protocol : f.protocol = ipprotoUdp
  fits     : f.payload + mpiHeader ≤ f.len
  magic    : f.magicRejected = false
  saddr    : f.saddr = bpfHtonl maestraleIp
  daddr    : f.daddr = bpfHtonl grecaleIp

theorem Agree.magicRejected (h : Agree t b) (hi : 5 ≤ t.ihl) : b.magicRejected = t.magicRejected := by
  have hu := le_udph hi
  have hd k : b.data (t.payload + k) = t.data (t.payload + k) := h.udp _ (by simp only [Frame.payload]; omega)
  have h₀ := hd 0
  simp only [Nat.add_zero] at h₀
  simp only [Frame.magicRejected, h.payload, h₀, hd]

theorem swapMac_load (hi : 12 ≤ i) : f.swapMac.data.load w i = f.data.load w i :=
  Mem.load_congr fun _ _ => swapMac_data (by omega)

theorem swapIp_saddr : f.swapIp.saddr = f.daddr := by
  simp (disch := omega) only [saddr, daddr, swapIp, ethHlen, Mem.load_store_disjoint]
  rw [Mem.load_store_same]

theorem swapIp_daddr : f.swapIp.daddr = f.saddr := by
  simp (disch := omega) only [saddr, daddr, swapIp, ethHlen, Mem.load_store_disjoint]
  rw [Mem.load_store_same]

theorem ofMessage_daddr {sport dport : BitVec 16} {message : List Byte} :
    (ofMessage sport dport message).daddr = bpfHtonl maestraleIp := by
  simp [daddr, Mem.load, Mem.read, ofMessage, Mem.ofList, ethHlen, bytesLE]
  decide

namespace Bound

variable (h : t.Bound)
include h

theorem mirror : Kernel.mirror t = (.tx, t.swapMac.swapIp) := by
  have hu := le_udph h.ihl
  have hf := h.fits
  refine mirror_recognised ⟨h.proto, ?_, h.protocol⟩ ⟨hf, h.magic⟩ h.saddr
  simp only [Frame.payload] at hf
  simp only [ethHlen]
  omega

theorem returned : t.returned = [t.swapMac.swapIp] := by
  rw [Frame.returned, h.mirror]

theorem reflected : Reflected t t.swapMac.swapIp where
  len   := rfl
  data  := by
    intro j hj ho
    rcases ho with ho | ho
    · exact swapMac_swapIp_agree.header j hj ho
    · exact swapMac_swapIp_agree.udp j ho
  saddr := by
    rw [swapIp_saddr, Frame.daddr, swapMac_load (by decide)]
    exact h.daddr

theorem live (hr : Reflected t b) : b.Live where
  proto    := hr.agree.hProto.trans h.proto
  ihl      := hr.agree.ihl ▸ h.ihl
  protocol := hr.agree.protocol.trans h.protocol
  fits     := by
    rw [hr.agree.payload, hr.len]
    exact h.fits
  magic    := (hr.agree.magicRejected h.ihl).trans h.magic
  saddr    := hr.saddr

end Bound

-- A packet with other ranks and addresses.
def Readdressed (maps : Maps) (f g : Frame) : Prop :=
  ∃ e src next r info, Agree f e ∧ maps.procToAddress r = some info ∧ g = e.readdress src next info

theorem readdress_saddr (h : 5 ≤ f.ihl) : (f.readdress src next info).saddr = info.srcIp := by
  have := le_udph h
  simp (disch := omega) only [saddr, readdress, ethHlen, payload, Mem.load_store_disjoint]
  rw [Mem.load_store_same]

theorem readdress_daddr (h : 5 ≤ f.ihl) : (f.readdress src next info).daddr = info.dstIp := by
  have := le_udph h
  simp (disch := omega) only [daddr, readdress, ethHlen, payload, Mem.load_store_disjoint]
  rw [Mem.load_store_same]

-- What the programs transmit is for the other host.
theorem Live.bound (m : f.Live) (hm : maps.Hosted) (h : Readdressed maps f g) : g.Bound := by
  obtain ⟨e, src, next, r, info, ha, hi, rfl⟩ := h
  obtain ⟨hs, hd⟩ := hm r info hi
  have hihl : 5 ≤ e.ihl := ha.ihl.symm ▸ m.ihl
  have hu := le_udph hihl
  exact {
    proto    := by
      rw [hProto, readdress_load (by omega) (by omega) (by omega) (by simp only [payload]; omega)]
      exact ha.hProto.trans m.proto
    ihl      := by rwa [readdress_ihl hihl]
    protocol := by
      rw [Frame.protocol, readdress_data] <;> simp only [ethHlen, payload] <;> try omega
      exact ha.protocol.trans m.protocol
    fits     := by
      have hl : (e.readdress src next info).len = f.len := ha.len
      rw [readdress_payload hihl, ha.payload, hl]
      exact m.fits
    magic    := by
      have hd k (hk : k < 4) : (e.readdress src next info).data (e.payload + k) = e.data (e.payload + k) :=
        readdress_data (by simp only [payload]; omega) (by simp only [payload]; omega) (by omega) (by omega)
      have h₀ := hd 0 (by decide)
      simp only [Nat.add_zero] at h₀
      have he : (e.readdress src next info).magicRejected = e.magicRejected := by
        simp only [magicRejected, readdress_payload hihl, h₀, hd 1 (by decide), hd 2 (by decide), hd 3 (by decide)]
      rw [he, ha.magicRejected m.ihl]
      exact m.magic
    saddr    := (readdress_saddr hihl).trans hs
    daddr    := (readdress_daddr hihl).trans hd }

end Frame

theorem Rewritten.readdressed (h : Rewritten maps f g) : Frame.Readdressed maps f g := by
  obtain ⟨next, info, hi, rfl⟩ := h
  exact ⟨_, _, next, _, info, Frame.swapMac_agree, hi, rfl⟩

theorem Xdp.cloneBcast_readdressed {copy : Option (BitVec 32)} (h : cloneBcast maps ⟨f, copy⟩ = (.tx, g)) :
    Frame.Readdressed maps f g := by
  simp only [cloneBcast] at h
  repeat' split at h
  case h_2 hi =>
    simp only [Prod.mk.injEq, true_and] at h
    exact ⟨f, _, _, _, _, .refl, hi, h.symm⟩
  all_goals simp only [Prod.mk.injEq, reduceCtorEq, false_and] at h

theorem Xdp.kfunc_readdressed {copy : Option (BitVec 32)} (h : kfunc maps ⟨f, copy⟩ = (.tx, g)) :
    Frame.Readdressed maps f g := by
  by_cases ho : f.opcode = some .bcastRing ∨ f.opcode = some .bcastLinear
  case pos => exact (kfunc_tx ho h).readdressed
  case neg =>
    obtain ⟨hr, hl⟩ := not_or.mp ho
    simp only [kfunc] at h
    split at h
    case h_1 hp => simp [parseIpPacket_some hp] at h
    split at h
    case isFalse => simp at h
    split at h
    case isFalse => exact absurd (Prod.mk.inj h).left handleOriginal_ne_tx
    case isTrue =>
      simp only [handleClone, Frame.opcode] at h hr hl
      repeat' split at h
      case h_2      => exact cloneBcast_readdressed h
      case h_3 hc   => exact absurd hc hr
      case h_4 hc   => exact absurd hc hl
      all_goals simp at h

theorem Program.sent_readdressed (p : Program) (ht : t ∈ (p.handle maps f).sent) : Frame.Readdressed maps f t := by
  cases p with
  | xdp =>
    have hc {copy : Option (BitVec 32)} (ht : t ∈ (Xdp.copyOutcome (Xdp.kfunc maps ⟨f, copy⟩)).sent) :
        Frame.Readdressed maps f t := by
      generalize hk : Xdp.kfunc maps ⟨f, copy⟩ = r at ht
      obtain ⟨action, b⟩ := r
      cases action
      case tx =>
        obtain rfl := List.mem_singleton.mp ht
        exact Xdp.kfunc_readdressed hk
      all_goals simp [Xdp.copyOutcome] at ht
    simp only [handle, Xdp.handle] at ht
    split at ht
    case h_1 =>
      simp only [Outcome.append, Outcome.concat, List.nil_append, List.mem_flatMap, List.mem_map] at ht
      obtain ⟨_, ⟨_, _, rfl⟩, ht⟩ := ht
      exact hc ht
    case h_2 => exact hc ht
  | tc =>
    have hc {mark : BitVec 32} (ht : t ∈ (Tc.kfunc maps 0 ⟨f, mark⟩).own.sent) : Frame.Readdressed maps f t := by
      have hf : Tc.Follows maps f (Tc.kfunc maps 0 ⟨f, mark⟩) := Tc.kfunc_follows
      simp only [Tc.Run.own, List.mem_append] at ht
      rcases ht with ht | ht
      · exact (hf.egress t ht).readdressed
      · split at ht
        case isTrue ha =>
          obtain rfl := List.mem_singleton.mp ht
          exact (hf.redirect ha).readdressed
        case isFalse => contradiction
    simp only [handle, Tc.handle, Outcome.append, Outcome.concat, List.mem_append, List.mem_flatMap,
      List.mem_map] at ht
    rcases ht with ⟨_, ⟨c, hm, rfl⟩, ht⟩ | ht
    · have hf : Tc.Follows maps f (Tc.kfunc maps 0 ⟨f, 0#32⟩) := Tc.kfunc_follows
      obtain rfl : c.frame = f := hf.ingress c hm
      exact hc ht
    · exact hc ht

end Kernel

import XdpCollectives.Kernel.Theorems.Handle
import XdpCollectives.Cycle.Basic

open Memory Wire

namespace Kernel

variable {maps : Maps} {f t b : Frame} {n root src dst : Nat}

-- A broadcast packet with these ranks in its header.
structure Frame.Bcast (f : Frame) (op : MPICollective) (root src dst : Nat) : Prop where
  mpi    : f.Mpi
  opcode : f.opcode = some op
  root   : f.rootHost.toNat = root
  src    : f.srcHost.toNat = src
  dst    : f.dstHost.toNat = dst

-- The entry of `proc_to_address` for a pair of ranks has the port of the second one.
def Maps.Ports (maps : Maps) (n : Nat) : Prop :=
  ∀ s < n, ∀ d < n, ∀ info,
    maps.procToAddress ⟨BitVec.ofNat 32 s, BitVec.ofNat 32 d⟩ = some info →
    info.dstPort = BitVec.ofNat 16 (basePort + d)

namespace Maps.Complete

theorem setWidth (c : maps.Complete n) (hv : maps.numProcess 0#32 = some v) :
    (v.setWidth 32).toNat = n := by
  have ⟨_, hv', hn⟩ := c.numProcess
  have hf := c.fits
  cases hv.symm.trans hv'
  simp only [BitVec.toNat_setWidth, hn]
  omega

theorem setWidth_eq (c : maps.Complete n) (hv : maps.numProcess 0#32 = some v) :
    v.setWidth 32 = BitVec.ofNat 32 n := by
  have hf := c.fits
  apply BitVec.eq_of_toNat_eq
  rw [c.setWidth hv, BitVec.toNat_ofNat]
  omega

theorem next_toNat (c : maps.Complete n) (hv : maps.numProcess 0#32 = some v) {d : BitVec 32}
    (hd : d.toNat < n) (hk : k ≤ n) :
    ((d + BitVec.ofNat 32 k) % v.setWidth 32).toNat = (d.toNat + k) % n := by
  have hf := c.fits
  rw [BitVec.toNat_umod, c.setWidth hv, BitVec.toNat_add, BitVec.toNat_ofNat]
  congr 1
  omega

theorem lookup (c : maps.Complete n) {s d : BitVec 32} (hs : s.toNat < n) (hd : d.toNat < n) :
    (maps.procToAddress ⟨s, d⟩).isSome ↔ s ≠ d := by
  have hc := c.procToAddress s.toNat hs d.toNat hd
  simp only [BitVec.ofNat_toNat, BitVec.setWidth_eq] at hc
  rw [hc, Ne, Ne, BitVec.toNat_inj]

end Maps.Complete

namespace Frame.Bcast

theorem root_eq_iff (h : f.Bcast op root src dst) {next : BitVec 32} :
    f.rootHost = next ↔ next.toNat = root := by
  rw [← h.root, ← BitVec.toNat_inj, eq_comm]

theorem root_ne_dst (h : f.Bcast op root src dst) (hd : dst ≠ root) : f.rootHost ≠ f.dstHost := by
  rw [Ne, h.root_eq_iff, h.dst]
  exact hd

variable (h : f.Bcast op root src dst) (c : maps.Complete n) {next : BitVec 32}
include h c

theorem lookup (hd : dst < n) (hx : next.toNat < n) :
    (maps.procToAddress ⟨f.dstHost, next⟩).isSome ↔ next.toNat ≠ dst := by
  rw [c.lookup (h.dst ▸ hd) hx, Ne, ← BitVec.toNat_inj, h.dst]
  exact ne_comm

-- There is nobody to relay the packet to.
theorem relay_stop (hd : dst < n) (hx : next.toNat < n)
    (hs : next.toNat = root ∨ next.toNat = dst) : relay maps f next = { handed := [f] } := by
  simp only [relay]
  split
  case isTrue => rfl
  case isFalse hr =>
    have hn := (h.lookup c hd hx).not.mpr <| by
      simpa using hs.resolve_left (hr ∘ h.root_eq_iff.mpr)
    simp only [Option.not_isSome_iff_eq_none] at hn
    simp [hn]

theorem relay_send (hd : dst < n) (hx : next.toNat < n) (hr : next.toNat ≠ root)
    (hs : next.toNat ≠ dst) :
    ∃ info, maps.procToAddress ⟨f.dstHost, next⟩ = some info ∧
      relay maps f next = { sent := [f.swapMac.readdress f.dstHost next info] } := by
  have ⟨info, hi⟩ := Option.isSome_iff_exists.mp <| (h.lookup c hd hx).mpr hs
  refine ⟨info, hi, ?_⟩
  simp [relay, hi, mt h.root_eq_iff.mp hr]

omit c

theorem relayed (hb : Reflected (f.swapMac.readdress f.dstHost next info) b) :
    b.Bcast op root dst next.toNat ∧ b.udpDest = info.dstPort := by
  have hf := h.mpi.forwarded swapMac_agree hb
  exact ⟨{
    mpi    := hf.mpi
    opcode := by rw [Frame.opcode, hf.opcodeHost]; exact h.opcode
    root   := by rw [hf.rootHost, h.root]
    src    := by rw [hf.srcHost, h.dst]
    dst    := by rw [hf.dstHost] }, hf.udpDest⟩

theorem relayed_dst :
    (f.swapMac.readdress f.dstHost next info).dstHost = next :=
  readdress_dstHost h.mpi.swapMac_ihl

theorem relayed_udpDest :
    (f.swapMac.readdress f.dstHost next info).udpDest = info.dstPort :=
  readdress_udpDest h.mpi.swapMac_ihl

end Frame.Bcast

-- A packet that goes to the UDP socket of the rank in its header.
def Frame.Addressed (f : Frame) : Prop :=
  f.udpDest = BitVec.ofNat 16 (basePort + f.dstHost.toNat)

-- A transmitted copy, as it is sent and as it comes back.
theorem Frame.Bcast.relay_sent (h : f.Bcast op root src dst) {next : BitVec 32}
    (ht : t ∈ (relay maps f next).sent) (hb : t.Reflected b) :
    b.Bcast op root dst next.toNat ∧ t.dstHost = next ∧
      (dst < n → next.toNat < n → maps.Ports n → t.Addressed ∧ b.Addressed) := by
  simp only [relay] at ht
  split at ht
  case isTrue => simp at ht
  case isFalse =>
    cases hi : maps.procToAddress ⟨f.dstHost, next⟩ with
    | none => simp [hi] at ht
    | some info =>
      simp only [hi, List.mem_singleton] at ht
      subst ht
      obtain ⟨hb, hu⟩ := h.relayed hb
      have hbd := congrArg (BitVec.ofNat 32) hb.dst
      refine ⟨hb, h.relayed_dst, fun hd hx hp => ?_⟩
      have hpi := hp dst hd next.toNat hx info (by rw [← h.dst]; simpa using hi)
      exact ⟨by rw [Addressed, h.relayed_udpDest, h.relayed_dst, hpi], by rw [Addressed, hu, hb.dst, hpi]⟩

-- The ranks that the transmitted packets are addressed to.
def Outcome.ranks (o : Outcome) : List Nat :=
  o.sent.map (·.dstHost.toNat)

theorem relay_ranks (h : f.Bcast op root src dst) (c : maps.Complete n) (hd : dst < n)
    (hx : next.toNat < n) :
    (relay maps f next).ranks =
      if next.toNat = root ∨ next.toNat = dst then [] else [next.toNat] := by
  split
  case isTrue hs => simp [h.relay_stop c hd hx hs, Outcome.ranks]
  case isFalse hs =>
    have ⟨hr, hs⟩ := not_or.mp hs
    have ⟨_, _, hk⟩ := h.relay_send c hd hx hr hs
    simp [hk, Outcome.ranks, h.relayed_dst]

-- What the two programs do to a packet of a ring that has not come back to the root.
theorem Program.handle_ring (p : Program) (h : f.Bcast .bcastRing root src dst)
    (hv : maps.numProcess 0#32 = some v) (hd : dst ≠ root) :
    p.handle maps f =
      Outcome.append { handed := [f] } (relay maps f ((f.dstHost + 1#32) % v.setWidth 32)) := by
  cases p
  case xdp => exact Xdp.handle_ring h.mpi.live hv h.opcode (h.root_ne_dst hd)
  case tc  => exact Tc.handle_ring h.mpi.live hv h.opcode (h.root_ne_dst hd)

end Kernel

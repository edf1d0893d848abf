import XdpCollectives.Kernel.Forwarding

open Memory Wire

namespace Kernel

variable {maps : Maps} {f : Frame} {n : Nat}

-- A copy of `f` readdressed to `next`, or `f` for the local stack where there is nobody to send to.
def relay (maps : Maps) (f : Frame) (next : BitVec 32) : Outcome :=
  if f.rootHost = next then { handed := [f] }
  else match maps.procToAddress ⟨f.dstHost, next⟩ with
    | none      => { handed := [f] }
    | some info => { sent := [f.swapMac.readdress f.dstHost next info] }

def Frame.opcode (f : Frame) : Option MPICollective :=
  MPICollective.ofCode f.opcodeHost.toNat

theorem Frame.Live.len_lt (m : f.Live) : ¬f.len < f.payload + mpiHeader ∧ ¬f.len < f.udph + 8 ∧
    ¬f.len < f.udph + 1 ∧ ¬f.len < ethHlen + 20 ∧ ¬f.len < ethHlen ∧ ¬f.len < 4 := by
  have hu := Frame.le_udph m.ihl
  have hl := m.fits
  simp only [Frame.payload, mpiHeader, ethHlen] at *
  omega

namespace Xdp

theorem parseIpPacket_live (m : f.Live) : parseIpPacket f = none := by
  have ⟨_, h₁, _, h₂, h₃, _⟩ := m.len_lt
  have hi := m.ihl
  simp [parseIpPacket, m.proto, m.protocol, h₁, h₂, h₃, Nat.not_lt.mpr hi]

theorem handleOriginal_live (m : f.Live) (hv : maps.numProcess 0#32 = some v) :
    kfunc maps ⟨f, none⟩ = (match f.opcode with
      | some .bcast       => if f.rootHost = f.dstHost then .pass else .clonePass 2#32
      | some .bcastRing   => if f.rootHost = f.dstHost then .pass else .clonePass 1#32
      | some .bcastLinear =>
        if f.rootHost = f.dstHost then .pass
        else if f.rootHost = f.srcHost then .clonePass (v.setWidth 32)
        else .pass
      | _                 => .pass, f) := by
  have ⟨h₁, h₂, _⟩ := m.len_lt
  simp only [kfunc, parseIpPacket_live m, m.saddr, handleOriginal, h₁, h₂, m.magic, hv,
    Frame.opcode, if_true, Option.isSome_none]
  cases MPICollective.ofCode f.opcodeHost.toNat with
  | none   => simp
  | some c => cases c <;> simp

theorem kfunc_copy (m : f.Live) (hv : maps.numProcess 0#32 = some v)
    (ho : f.opcode = some .bcastRing ∨ f.opcode = some .bcastLinear) (hr : f.rootHost ≠ f.dstHost) :
    copyOutcome (kfunc maps ⟨f, some i⟩) = relay maps f ((f.dstHost + i) % v.setWidth 32) := by
  have ⟨h₁, h₂, _, _, _, h₃⟩ := m.len_lt
  have hc : handleClone maps ⟨f, some i⟩ = cloneNext maps ⟨f, some i⟩ := by
    simp only [Frame.opcode] at ho
    cases ho with
    | inl ho | inr ho => simp [handleClone, h₁, h₂, m.magic, ho]
  simp only [kfunc, parseIpPacket_live m, m.saddr, hc, cloneNext, hr, h₃, hv, relay, if_true,
    if_false, Option.isSome_some]
  split
  · rfl
  · cases maps.procToAddress _ <;> rfl

theorem handle_root (m : f.Live) (hv : maps.numProcess 0#32 = some v)
    (ho : f.opcode = some .bcastRing ∨ f.opcode = some .bcastLinear) (hr : f.rootHost = f.dstHost) :
    handle maps f = { handed := [f] } := by
  cases ho with
  | inl ho | inr ho => simp [handle, handleOriginal_live m hv, ho, hr, copyOutcome]

theorem handle_ring (m : f.Live) (hv : maps.numProcess 0#32 = some v) (ho : f.opcode = some .bcastRing)
    (hr : f.rootHost ≠ f.dstHost) :
    handle maps f =
      Outcome.append { handed := [f] } (relay maps f ((f.dstHost + 1#32) % v.setWidth 32)) := by
  have hk := kfunc_copy (i := 1#32) m hv (.inl ho) hr
  simp [handle, handleOriginal_live m hv, ho, hr, Outcome.concat, hk]

theorem handle_linear (m : f.Live) (hv : maps.numProcess 0#32 = some v)
    (ho : f.opcode = some .bcastLinear) (hr : f.rootHost ≠ f.dstHost)
    (hs : f.rootHost = f.srcHost) :
    handle maps f = Outcome.append { handed := [f] } (Outcome.concat
      ((List.range (v.setWidth 32).toNat).map fun i =>
        relay maps f ((f.dstHost + BitVec.ofNat 32 (i + 1)) % v.setWidth 32))) := by
  have hk i := kfunc_copy (i := i) m hv (.inr ho) hr
  have hr' : f.srcHost ≠ f.dstHost := hs ▸ hr
  simp only [handle, handleOriginal_live m hv, ho, hr', hs, hk, if_true, if_false]

theorem handle_linear_not_src (m : f.Live) (hv : maps.numProcess 0#32 = some v)
    (ho : f.opcode = some .bcastLinear) (hr : f.rootHost ≠ f.dstHost)
    (hs : f.rootHost ≠ f.srcHost) : handle maps f = { handed := [f] } := by
  simp [handle, handleOriginal_live m hv, ho, hr, hs, copyOutcome]

end Xdp

namespace Tc

theorem parseIpPacket_live (m : f.Live) : parseIpPacket f = none := by
  have ⟨_, h₁, _, h₂, h₃, _⟩ := m.len_lt
  have hi := m.ihl
  simp [parseIpPacket, m.proto, m.protocol, h₂, h₃, Nat.not_lt.mpr hi]

theorem kfunc_marked (m : f.Live) :
    (kfunc maps 0 ⟨f, magickMark⟩).own = { handed := [f] } := by
  simp [kfunc, parseIpPacket_live m, Run.own]

-- With a clone for the application made, the packet itself goes through `handle_clone`.
theorem handle_bcast (m : f.Live) (hv : maps.numProcess 0#32 = some v)
    (ho : f.opcode = some .bcastRing ∨ f.opcode = some .bcastLinear) (hr : f.rootHost ≠ f.dstHost)
    (hc : (handleClone maps 0 ⟨f, 0#32⟩).ingress = []) :
    handle maps f = Outcome.append { handed := [f] } (handleClone maps 0 ⟨f, 0#32⟩).own := by
  have ⟨h₁, h₂, _⟩ := m.len_lt
  have hk : kfunc maps 0 ⟨f, 0#32⟩ = { handleClone maps 0 ⟨f, 0#32⟩ with ingress := [⟨f, magickMark⟩] } := by
    have hb : handleOriginal maps 0 ⟨f, 0#32⟩ = originalBcast maps 0 ⟨f, 0#32⟩ := by
      simp only [Frame.opcode] at ho
      cases ho with
      | inl ho | inr ho => simp [handleOriginal, h₁, h₂, m.magic, ho]
    have hz : ¬(0#32 = magickMark) := by decide
    simp [kfunc, hz, parseIpPacket_live m, m.saddr, hb, originalBcast, hr, hv, hc]
  simp only [handle, hk, List.map_cons, List.map_nil, kfunc_marked m, Outcome.concat]
  rfl

theorem handle_ring (m : f.Live) (hv : maps.numProcess 0#32 = some v) (ho : f.opcode = some .bcastRing)
    (hr : f.rootHost ≠ f.dstHost) :
    handle maps f =
      Outcome.append { handed := [f] } (relay maps f ((f.dstHost + 1#32) % v.setWidth 32)) := by
  have ⟨h₁, _, h₂, _, h₃, _⟩ := m.len_lt
  have hc : handleClone maps 0 ⟨f, 0#32⟩ = cloneRing maps ⟨f, 0#32⟩ := by
    have ho' := ho
    simp only [Frame.opcode] at ho'
    simp [handleClone, h₁, h₂, m.magic, hv, ho']
  have hk : (cloneRing maps ⟨f, 0#32⟩).ingress = [] ∧
      (cloneRing maps ⟨f, 0#32⟩).own = relay maps f ((f.dstHost + 1#32) % v.setWidth 32) := by
    simp only [cloneRing, hr, hv, h₃, relay, if_false]
    split
    · simp [Run.own]
    · cases maps.procToAddress _ <;> simp [Run.own]
  rw [handle_bcast m hv (.inl ho) hr (hc ▸ hk.left), hc, hk.right]

-- The clone that is sent on is made of the packet that the local stack is handed next.
def linear (maps : Maps) (f : Frame) (next : BitVec 32) : Outcome :=
  if f.rootHost = next then { handed := [f] }
  else match maps.procToAddress ⟨f.dstHost, next⟩ with
    | none => { handed := [f] }
    | some info =>
      let g := f.swapMac.readdress f.dstHost next info
      { sent := [g], handed := [g] }

theorem handle_linear (m : f.Live) (hv : maps.numProcess 0#32 = some v)
    (ho : f.opcode = some .bcastLinear) (hr : f.rootHost ≠ f.dstHost)
    (hn : 1#32 < v.setWidth 32) :
    handle maps f =
      Outcome.append { handed := [f] } (linear maps f ((f.dstHost + 1#32) % v.setWidth 32)) := by
  have ⟨h₁, _, h₂, _, h₃, _⟩ := m.len_lt
  have hc : handleClone maps 0 ⟨f, 0#32⟩ = linearRound maps 0 ⟨f, 0#32⟩ (v.setWidth 32) 1#32 := by
    have ho' := ho
    simp only [Frame.opcode] at ho'
    simp [handleClone, h₁, h₂, m.magic, hv, ho', cloneLinear, hn]
  have hk : (linearRound maps 0 ⟨f, 0#32⟩ (v.setWidth 32) 1#32).ingress = [] ∧
      (linearRound maps 0 ⟨f, 0#32⟩ (v.setWidth 32) 1#32).own =
        linear maps f ((f.dstHost + 1#32) % v.setWidth 32) := by
    simp only [linearRound, hr, h₃, linear, if_false]
    split
    · simp [Run.own]
    · cases maps.procToAddress _ <;> simp [Run.own]
  rw [handle_bcast m hv (.inr ho) hr (hc ▸ hk.left), hc, hk.right]

end Tc
end Kernel

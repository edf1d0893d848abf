import XdpCollectives.Kernel.Mirror
import XdpCollectives.Kernel.Arrival

open Memory Wire

-- Which packets the programs act on.
namespace Kernel

namespace Frame

-- A UDP packet over IP, with whatever it may hold.
structure Udp (f : Frame) : Prop where
  proto    : f.hProto = ethPIp
  fits     : ethHlen + 20 ≤ f.len
  protocol : f.protocol = ipprotoUdp

def BeginsMpi (f : Frame) : Prop :=
  f.payload + 4 ≤ f.len ∧ f.data.read f.payload 4 = magic

-- There is room for a header, and a byte of the magic where it should be.
structure Recognised (f : Frame) : Prop where
  fits  : f.payload + mpiHeader ≤ f.len
  magic : f.magicRejected = false

-- A broadcast from 192.168.101.2 that has not come back to its root.
structure Relayable (f : Frame) : Prop where
  ihl    : 5 ≤ f.ihl
  saddr  : f.saddr = bpfHtonl grecaleIp
  opcode : f.opcode = some .bcast ∨ f.opcode = some .bcastRing ∨ f.opcode = some .bcastLinear
  root   : f.rootHost ≠ f.dstHost

end Frame

variable {maps : Maps} {f : Frame}

namespace Xdp

structure Untouched (f : Frame) (r : Action × Frame) : Prop where
  tx    : r.1 ≠ .tx
  clone : ∀ k, r.1 ≠ .clonePass k
  frame : r.2 = f

theorem Untouched.pass : Untouched f (.pass, f) where
  tx      := nofun
  clone _ := nofun
  frame   := rfl

theorem Untouched.drop : Untouched f (.drop, f) where
  tx      := nofun
  clone _ := nofun
  frame   := rfl

theorem parseIpPacket_some (h : parseIpPacket f = some ret) : ret = .pass := by
  simp only [parseIpPacket] at h
  repeat' split at h
  all_goals simp_all

theorem parseIpPacket_none (h : parseIpPacket f = none) : 5 ≤ f.ihl := by
  simp only [parseIpPacket] at h
  repeat' split at h
  all_goals simp_all

theorem parseIpPacket_udp (u : f.Udp) (hi : 5 ≤ f.ihl) (hr : f.Recognised) : parseIpPacket f = none := by
  have hu := Frame.le_udph hi
  have hf := hr.fits
  have hl := u.fits
  simp only [Frame.payload, mpiHeader, ethHlen] at hf hl
  simp [parseIpPacket, u.proto, u.protocol, ethHlen, show ¬f.len < 14 by omega, show ¬f.len < 34 by omega,
    show ¬f.ihl < 5 by omega, show ¬f.len < f.udph + 8 by omega]

variable {info : Option (BitVec 32)}

theorem handleClone_unrecognised (h : ¬f.Recognised) : handleClone maps ⟨f, info⟩ = (.pass, f) := by
  simp only [handleClone]
  split
  case isTrue => rfl
  split
  case isTrue => rfl
  split
  case isTrue => rfl
  case isFalse hf hm =>
    exact absurd ⟨Nat.le_of_not_lt hf, by simpa using hm⟩ h

theorem handleOriginal_unrecognised (h : ¬f.Recognised) : handleOriginal maps f = .pass := by
  simp only [handleOriginal]
  split
  case isTrue => rfl
  split
  case isTrue => rfl
  split
  case isTrue => rfl
  case isFalse hf hm =>
    exact absurd ⟨Nat.le_of_not_lt hf, by simpa using hm⟩ h

-- A broadcast that has come back to its root, and anything else.
def Idle (f : Frame) : Prop :=
  f.opcode = some .bcast ∨ f.opcode = some .bcastRing ∨ f.opcode = some .bcastLinear → f.rootHost = f.dstHost

theorem handleClone_idle (h : Idle f) : handleClone maps ⟨f, info⟩ = (.pass, f) := by
  simp only [handleClone, Idle, Frame.opcode] at h ⊢
  split
  case isTrue => rfl
  split
  case isTrue => rfl
  split
  case isTrue => rfl
  split
  case h_2 ho => simp [cloneBcast, h (.inl ho)]
  case h_3 ho => simp [cloneNext, h (.inr (.inl ho))]
  case h_4 ho => simp [cloneNext, h (.inr (.inr ho))]
  all_goals rfl

theorem handleOriginal_idle (h : Idle f) : handleOriginal maps f = .pass ∨ handleOriginal maps f = .aborted := by
  simp only [handleOriginal, Idle, Frame.opcode] at h ⊢
  split
  case isTrue => exact .inl rfl
  split
  case isTrue => exact .inl rfl
  split
  case isTrue => exact .inl rfl
  split
  case h_1 => exact .inr rfl
  split
  case h_2 ho => exact .inl (if_pos (h (.inl ho)))
  case h_3 ho => exact .inl (if_pos (h (.inr (.inl ho))))
  case h_4 ho => exact .inl (if_pos (h (.inr (.inr ho))))
  all_goals exact .inl rfl

theorem Untouched.of_idle (h : f.Recognised → Idle f) : Untouched f (kfunc maps ⟨f, info⟩) := by
  have hc : handleClone maps ⟨f, info⟩ = (.pass, f) := by
    by_cases hr : f.Recognised
    case pos => exact handleClone_idle (h hr)
    case neg => exact handleClone_unrecognised hr
  have ho : handleOriginal maps f = .pass ∨ handleOriginal maps f = .aborted := by
    by_cases hr : f.Recognised
    case pos => exact handleOriginal_idle (h hr)
    case neg => exact .inl (handleOriginal_unrecognised hr)
  simp only [kfunc]
  split
  case h_1 hp => exact parseIpPacket_some hp ▸ .pass
  split
  case isFalse => exact .drop
  split
  case isTrue  => exact hc ▸ .pass
  case isFalse =>
    cases ho with
    | inl ho => exact ho ▸ .pass
    | inr ho => exact ho ▸ ⟨by simp, by simp, rfl⟩

theorem untouched (h : ¬(f.Recognised ∧ f.Relayable)) : Untouched f (kfunc maps ⟨f, info⟩) := by
  by_cases hp : parseIpPacket f = none ∧ f.saddr = bpfHtonl grecaleIp
  case pos =>
    refine .of_idle fun hr ho => ?_
    by_contra hne
    exact h ⟨hr, parseIpPacket_none hp.left, hp.right, ho, hne⟩
  case neg =>
    simp only [kfunc]
    split
    case h_1 hs => exact parseIpPacket_some hs ▸ .pass
    case h_2 hs =>
      rw [if_neg fun ha => hp ⟨hs, ha⟩]
      exact .drop

end Xdp

namespace Tc

structure Untouched (f : Frame) (r : Run) : Prop where
  redirect : r.action ≠ .redirect
  frame    : r.skb.frame = f
  ingress  : r.ingress = []
  egress   : r.egress = []

theorem Untouched.ok (mark : BitVec 32) : Untouched f { action := .ok, skb := ⟨f, mark⟩ } where
  redirect := nofun
  frame    := rfl
  ingress  := rfl
  egress   := rfl

theorem Untouched.shot (mark : BitVec 32) : Untouched f { action := .shot, skb := ⟨f, mark⟩ } where
  redirect := nofun
  frame    := rfl
  ingress  := rfl
  egress   := rfl

theorem parseIpPacket_some (h : parseIpPacket f = some action) : action = .ok := by
  simp only [parseIpPacket] at h
  repeat' split at h
  all_goals simp_all

theorem parseIpPacket_none (h : parseIpPacket f = none) : 5 ≤ f.ihl := by
  simp only [parseIpPacket] at h
  repeat' split at h
  all_goals simp_all

theorem parseIpPacket_udp (u : f.Udp) (hi : 5 ≤ f.ihl) : parseIpPacket f = none := by
  have hl := u.fits
  simp only [ethHlen] at hl
  simp [parseIpPacket, u.proto, u.protocol, ethHlen, show ¬f.len < 14 by omega, show ¬f.len < 34 by omega,
    show ¬f.ihl < 5 by omega]

variable {mark : BitVec 32} {ret : Int}

theorem originalBcast_root (h : f.rootHost = f.dstHost) : Untouched f (originalBcast maps ret ⟨f, mark⟩) := by
  rw [originalBcast, if_pos h]
  exact .ok mark

theorem handleOriginal_untouched (h : f.Recognised →
    f.opcode = some .bcastRing ∨ f.opcode = some .bcastLinear → f.rootHost = f.dstHost) :
    Untouched f (handleOriginal maps ret ⟨f, mark⟩) := by
  simp only [handleOriginal, Frame.opcode] at h ⊢
  split
  case isTrue => exact .ok mark
  split
  case isTrue => exact .ok mark
  split
  case isTrue => exact .ok mark
  case isFalse hf hm =>
    have h := h ⟨Nat.le_of_not_lt hf, by simpa using hm⟩
    split
    case h_2 ho => exact originalBcast_root (h (.inl ho))
    case h_3 ho => exact originalBcast_root (h (.inr ho))
    all_goals exact .ok mark

theorem untouched (h : ¬(f.Recognised ∧ f.Relayable)) : Untouched f (kfunc maps ret ⟨f, mark⟩) := by
  simp only [kfunc]
  split
  case isTrue =>
    split
    case h_1 hs => exact parseIpPacket_some hs ▸ .ok _
    case h_2    => exact .ok _
  split
  case h_1 hs => exact parseIpPacket_some hs ▸ .ok _
  case h_2 hs =>
    split
    case isFalse => exact .shot mark
    case isTrue ha =>
      refine handleOriginal_untouched fun hr ho => ?_
      by_contra hne
      exact h ⟨hr, parseIpPacket_none hs, ha, .inr ho, hne⟩

end Tc
theorem mirror_untouched (u : f.Udp) (h : ¬(f.Recognised ∧ f.saddr = bpfHtonl maestraleIp)) :
    Xdp.Untouched f (mirror f) := by
  rw [mirror]
  split
  case isTrue => exact .pass
  split
  case isTrue => exact .pass
  split
  case isTrue => exact .pass
  split
  case isTrue hp => exact absurd u.protocol hp
  split
  case isFalse => exact .pass
  case isTrue hs =>
    split
    case isTrue => exact .pass
    split
    case isTrue => exact .pass
    split
    case isTrue => exact .pass
    case isFalse hf hm => exact absurd ⟨⟨Nat.le_of_not_lt hf, by simpa using hm⟩, hs⟩ h

theorem mirror_recognised (u : f.Udp) (hr : f.Recognised) (hs : f.saddr = bpfHtonl maestraleIp) :
    mirror f = (.tx, f.swapMac.swapIp) := by
  have hl := u.fits
  have hf := hr.fits
  simp only [Frame.payload, mpiHeader] at hf
  simp only [ethHlen] at hl
  simp [mirror, u.proto, u.protocol, hs, hr.magic, ethHlen, show ¬f.len < 14 by omega, show ¬f.len < 34 by omega,
    show ¬f.len < f.udph + 8 by omega, Nat.not_lt.mpr hr.fits]

-- None of the programs sends the packet anywhere, clones it or writes into it.
structure Ignored (f : Frame) : Prop where
  xdp    : ∀ maps info, Xdp.Untouched f (Xdp.kfunc maps ⟨f, info⟩)
  tc     : ∀ maps ret mark, Tc.Untouched f (Tc.kfunc maps ret ⟨f, mark⟩)
  mirror : Xdp.Untouched f (mirror f)

theorem not_ignored_of_relayable (u : f.Udp) (hr : f.Recognised) (hb : f.Relayable) : ¬Ignored f := by
  intro h
  have hv : (Maps.filled 2).numProcess 0#32 = some 2#64 := rfl
  have hf := hr.fits
  simp only [Frame.payload, mpiHeader] at hf
  have h₁ : ¬f.len < f.udph + 8 := by omega
  have h₂ := Nat.not_lt.mpr hr.fits
  have ho := hb.opcode
  simp only [Frame.opcode] at ho
  have htc (ho : MPICollective.ofCode f.opcodeHost.toNat = some .bcastRing ∨
      MPICollective.ofCode f.opcodeHost.toNat = some .bcastLinear) : False := by
    have hz : ¬(0#32 = Tc.magickMark) := by decide
    have hi := (h.tc (.filled 2) 0 0#32).ingress
    have ho' : Tc.handleOriginal (.filled 2) 0 ⟨f, 0#32⟩ = Tc.originalBcast (.filled 2) 0 ⟨f, 0#32⟩ := by
      cases ho with
      | inl ho | inr ho => simp [Tc.handleOriginal, h₁, h₂, hr.magic, ho]
    simp [Tc.kfunc, hz, Tc.parseIpPacket_udp u hb.ihl, hb.saddr, ho', Tc.originalBcast, hb.root, hv] at hi
  rcases ho with ho | ho
  · have hx := (h.xdp (.filled 2) none).clone 2#32
    simp [Xdp.kfunc, Xdp.parseIpPacket_udp u hb.ihl hr, hb.saddr, Xdp.handleOriginal, h₁, h₂, hr.magic, hv, ho,
      hb.root] at hx
  · exact htc ho

theorem Frame.ofMessage_udp : (ofMessage sport dport message).Udp where
  proto    := by simp [hProto, Mem.load, Mem.read, ofMessage, Mem.ofList, bytesLE]; decide
  fits     := by rw [ofMessage_len, ethHlen]; omega
  protocol := by simp [Frame.protocol, ofMessage, Mem.ofList, ethHlen, bytesLE]

-- Apart from MPI packets, the programs leave alone what is too short or has none of the bytes of the magic
-- in its place, and what is neither a broadcast from 192.168.101.2 nor from 192.168.101.1.
theorem ignored_iff (u : f.Udp) :
    (¬f.BeginsMpi → Ignored f) ↔
      f.BeginsMpi ∨ ¬f.Recognised ∨ ¬f.Relayable ∧ f.saddr ≠ bpfHtonl maestraleIp := by
  rw [← or_iff_not_imp_left]
  refine or_congr_right ⟨fun h => ?_, fun h => ?_⟩
  case refine_1 =>
    by_cases hr : f.Recognised
    case neg => exact .inl hr
    case pos =>
      refine .inr ⟨fun hb => not_ignored_of_relayable u hr hb h, fun hs => ?_⟩
      exact h.mirror.tx (by rw [mirror_recognised u hr hs])
  case refine_2 =>
    have hb : ¬(f.Recognised ∧ f.Relayable) := fun ⟨hr, hb⟩ => h.elim (· hr) fun h => h.left hb
    exact {
      xdp _ _  := Xdp.untouched hb
      tc _ _ _ := Tc.untouched hb
      mirror   := mirror_untouched u fun ⟨hr, hs⟩ => h.elim (· hr) fun h => h.right hs }

-- A text that is no message.
theorem ignored_iff_text :
    let f := Frame.ofMessage 5000 5001 (List.replicate 60 84#8)
    (¬f.BeginsMpi → Ignored f) ↔
      f.BeginsMpi ∨ ¬f.Recognised ∨ ¬f.Relayable ∧ f.saddr ≠ bpfHtonl maestraleIp :=
  ignored_iff Frame.ofMessage_udp

-- The first byte of the magic is enough to be taken for a message.
theorem forged_not_ignored : ¬∀ f : Frame, f.Udp → ¬f.BeginsMpi → Ignored f := by
  intro h
  let message := [77#8, 65#8, 65#8, 65#8] ++ (Header.encode ⟨0, 0, 1, 3, 2, 1, 1, 0, 0⟩).drop 4 ++ [0#8]
  let f := Frame.ofMessage 5000 5001 message
  have hu : f.Udp := Frame.ofMessage_udp
  have hp : f.payload = 42 := Frame.ofMessage_payload
  have hlen : message.length = 49 := by decide
  have hread : f.data.read 42 49 = message := hlen ▸ Frame.ofMessage_read
  have hmagic : f.data.read 42 4 = [77#8, 65#8, 65#8, 65#8] := by
    rw [← Mem.read_take f.data 42 (n := 49) (by decide), hread]
    decide
  have hfirst : f.data 42 = 77#8 := by
    simp only [Mem.read, List.cons.injEq] at hmagic
    exact hmagic.left
  obtain ⟨hroot, _, hdst, hop⟩ := f.decode_read (n := 49) (by decide)
  rw [hp, hread] at hroot hdst hop
  have hr : f.Recognised := {
    fits  := by rw [hp]; decide
    magic := by simp [Frame.magicRejected, hp, hfirst] }
  have hb : f.Relayable := {
    ihl    := by rw [show f.ihl = 5 from Frame.ofMessage_ihl]
    saddr  := by simp [f, Frame.saddr, Mem.load, Mem.read, Frame.ofMessage, Mem.ofList, ethHlen, bytesLE]; decide
    opcode := .inr (.inl (by rw [Frame.opcode, ← hop]; decide))
    root   := by rw [← hroot, ← hdst]; decide }
  refine not_ignored_of_relayable hu hr hb (h f hu fun hm => ?_)
  have := hm.right
  rw [hp, hmagic] at this
  exact absurd this (by decide)

end Kernel

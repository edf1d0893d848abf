import XdpCollectives.Kernel.Theorems.Recognition

open Memory Wire

-- What becomes of a message on its way through the two hosts.
namespace Kernel

namespace Frame

def udpSource (f : Frame) : BitVec 16 := bpfNtohs (f.data.load 2 f.udph)

-- What `recvfrom` returns of a packet.
def message (f : Frame) : List Byte :=
  f.data.read f.payload (f.len - f.payload)

-- The packet has the ports that `proc_to_address` has for the ranks in its header.
def Routed (maps : Maps) (f : Frame) : Prop :=
  ∃ info, maps.procToAddress ⟨f.srcHost, f.dstHost⟩ = some info ∧
    f.udpSource = info.srcPort ∧ f.udpDest = info.dstPort

-- The bytes outside the Ethernet and IP addresses, the two checksums, the UDP ports and the two ranks.
def Fixed (f : Frame) (j : Nat) : Prop :=
  12 ≤ j ∧ (j < 24 ∨ 34 ≤ j) ∧ (j < f.udph ∨ f.udph + 4 ≤ j) ∧ (j < f.udph + 6 ∨ f.payload ≤ j) ∧
    (j < f.payload + 8 ∨ f.payload + 16 ≤ j)

-- The message of `f`, with other ranks in its header.
structure Preserves (f g : Frame) : Prop where
  ihl     : 5 ≤ g.ihl
  len     : g.len = f.len
  payload : g.payload = f.payload
  fixed   : ∀ j, f.Fixed j → g.data j = f.data j

end Frame

variable {maps : Maps} {f g : Frame} {src next : BitVec 32} {info : SocketId}

theorem bytesLE_bpfHtonl (v : BitVec 32) : bytesLE 4 (bpfHtonl v).toNat = encodeField 4 v := by
  have hv : v.toNat < 256 ^ 4 := v.isLt
  have hb : byteSwap 4 v.toNat < 2 ^ 32 := byteSwap_lt 4 v.toNat
  have ho := ofBytesLE_bytesLE 4 v.toNat
  rw [Nat.mod_eq_of_lt hv] at ho
  have ht : (bytesLE 4 v.toNat).take 4 = bytesLE 4 v.toNat := List.take_of_length_le (by simp)
  simp only [encodeField, genericHton, genericHtonElement, List.append_nil, ht, ho, htonl]
  rw [bpfHtonl, bpfNtohl, BitVec.toNat_ofNat, Nat.mod_eq_of_lt hb]

namespace Frame

theorem Fixed.congr (h : f.payload = g.payload) : f.Fixed j ↔ g.Fixed j := by
  have hu : f.udph = g.udph := by
    simp only [payload] at h
    omega
  rw [Fixed, Fixed, h, hu]

namespace Preserves

theorem refl (h : 5 ≤ f.ihl) : f.Preserves f where
  ihl       := h
  len       := rfl
  payload   := rfl
  fixed _ _ := rfl

theorem trans {f g b : Frame} (h₁ : f.Preserves g) (h₂ : g.Preserves b) : f.Preserves b where
  ihl     := h₂.ihl
  len     := h₂.len.trans h₁.len
  payload := h₂.payload.trans h₁.payload
  fixed j hj := by rw [h₂.fixed j ((Fixed.congr h₁.payload.symm).mp hj), h₁.fixed j hj]

theorem udph (h : f.Preserves g) : g.udph = f.udph := by
  have := h.payload
  simp only [Frame.payload] at this
  omega

theorem read (h : f.Preserves g) (hi : f.payload ≤ i) (hn : i + n ≤ f.payload + 8 ∨ f.payload + 16 ≤ i) :
    g.data.read i n = f.data.read i n := by
  have hp := le_udph h.ihl
  rw [h.udph] at hp
  refine Mem.read_congr fun k hk => h.fixed _ ⟨?_, ?_, ?_, ?_, ?_⟩ <;> simp only [Frame.payload] at * <;> omega

end Preserves

theorem readdress_preserves (h : 5 ≤ f.ihl) : f.Preserves (f.swapMac.readdress src next info) := by
  have ha : Agree f f.swapMac := swapMac_agree
  have hi : 5 ≤ f.swapMac.ihl := ha.ihl.symm ▸ h
  exact {
    ihl     := (readdress_ihl hi).symm ▸ hi
    len     := rfl
    payload := (readdress_payload hi).trans ha.payload
    fixed   := by
      intro j ⟨h₁, h₂, h₃, h₄, h₅⟩
      rw [readdress_data h₂ (ha.udph.symm ▸ h₃) (by rw [ha.udph, ha.payload]; exact h₄)
        (ha.payload.symm ▸ h₅), swapMac_data h₁] }

theorem swapIp_data (h : j < 24 ∨ 34 ≤ j) : f.swapIp.data j = f.data j := by
  simp (disch := omega) only [swapIp, ethHlen, Mem.store_outside]

theorem swapMac_swapIp_agree : Agree f f.swapMac.swapIp where
  len    := rfl
  header := fun j h₁ h₂ => (swapIp_data (.inl h₂)).trans (swapMac_data h₁)
  udp    := fun j h => (swapIp_data (.inr h)).trans (swapMac_data (by omega))

theorem Agree.preserves (h : Agree f g) (hi : 5 ≤ f.ihl) : f.Preserves g where
  ihl     := h.ihl.symm ▸ hi
  len     := h.len
  payload := h.payload
  fixed   := fun j ⟨h₁, h₂, _⟩ => h₂.elim (h.header j h₁) (h.udp j)

theorem readdress_udpSource (h : 5 ≤ f.ihl) : (f.readdress src next info).udpSource = info.srcPort := by
  have := le_udph h
  simp only [udpSource, readdress_udph h]
  simp (disch := omega) only [readdress, ethHlen, payload, Mem.load_store_disjoint]
  rw [Mem.load_store_same]
  exact bpfNtohs_bpfHtons info.srcPort

theorem readdress_ranks (h : 5 ≤ f.ihl) :
    (f.readdress src next info).data.read (f.payload + 8) 8 = encodeField 4 src ++ encodeField 4 next := by
  have := le_udph h
  rw [show 8 = 4 + 4 from rfl, Mem.read_append, ← bytesLE_bpfHtonl, ← bytesLE_bpfHtonl]
  congr 1
  · simp (disch := omega) only [readdress, ethHlen, payload, Mem.read_store_disjoint]
    exact Mem.read_store_same ..
  · simp (disch := omega) only [readdress, ethHlen, payload, Mem.read_store_disjoint]
    exact Mem.read_store_same ..

theorem message_ranks (f : Frame) {h : Header} {data : List Byte} (hm : f.message = h.encode ++ data) :
    f.srcHost = h.src ∧ f.dstHost = h.dst := by
  have hl : mpiHeader ≤ f.len - f.payload := by
    have := congrArg List.length hm
    simp only [message, Mem.read_length, List.length_append, h.encode_length] at this
    omega
  have ⟨_, hs, hd, _⟩ := f.decode_read hl
  rw [show f.data.read f.payload (f.len - f.payload) = h.encode ++ data from hm, h.decode_encode] at hs hd
  exact ⟨hs.symm, hd.symm⟩

theorem encode_rerouted_append (h : Header) (data : List Byte) :
    { h with src := src, dst := next }.encode ++ data =
      h.encode.take 8 ++ (encodeField 4 src ++ encodeField 4 next ++ (h.encode.drop 16 ++ data)) := by
  rw [h.encode_rerouted, List.append_assoc, List.append_assoc, List.append_assoc, List.append_assoc]

-- What the forwarding programs change of a message.
theorem readdress_message {h : Header} {data : List Byte} (hi : 5 ≤ f.ihl) (hm : f.message = h.encode ++ data) :
    (f.swapMac.readdress src next info).message = { h with src := src, dst := next }.encode ++ data := by
  have hp : f.Preserves (f.swapMac.readdress src next info) := readdress_preserves hi
  have hs : f.swapMac.payload = f.payload := swapMac_agree.payload
  have he := h.encode_length
  have hlen : f.len - f.payload = 8 + (8 + (32 + data.length)) := by
    have := congrArg List.length hm
    simp only [message, Mem.read_length, List.length_append, he, mpiHeader] at this
    omega
  have hr : (f.swapMac.readdress src next info).data.read (f.payload + 8) 8 =
      encodeField 4 src ++ encodeField 4 next := by
    rw [← hs]
    exact readdress_ranks (swapMac_agree.ihl.symm ▸ hi)
  have h₁ := congrArg (List.take 8) hm
  have h₂ := congrArg (List.drop 16) hm
  rw [message, Mem.read_take _ _ (by omega), List.take_append_of_le_length (by rw [he]; decide)] at h₁
  rw [message, Mem.read_drop, List.drop_append_of_le_length (by rw [he]; decide), hlen] at h₂
  have hfront := hp.read (i := f.payload) (n := 8) (Nat.le_refl _) (.inl (Nat.le_refl _))
  have hback := hp.read (i := f.payload + 16) (n := 32 + data.length) (by omega) (.inr (Nat.le_refl _))
  rw [message, hp.len, hp.payload, hlen, Mem.read_append, Mem.read_append, hr, hfront, h₁, Nat.add_assoc, hback,
    encode_rerouted_append, ← h₂]
  congr 3
  omega

end Frame

-- A packet that a program has readdressed, from the rank it was for to another one.
def Rewritten (maps : Maps) (f g : Frame) : Prop :=
  ∃ next info, maps.procToAddress ⟨f.dstHost, next⟩ = some info ∧ g = f.swapMac.readdress f.dstHost next info

namespace Xdp

theorem handleOriginal_ne_tx : handleOriginal maps f ≠ .tx := by
  simp only [handleOriginal]
  repeat' split
  all_goals simp

theorem cloneNext_tx {copy : Option (BitVec 32)} (h : cloneNext maps ⟨f, copy⟩ = (.tx, g)) : Rewritten maps f g := by
  simp only [cloneNext] at h
  repeat' split at h
  case h_2 hi =>
    simp only [Prod.mk.injEq, true_and] at h
    exact ⟨_, _, hi, h.symm⟩
  all_goals simp only [Prod.mk.injEq, reduceCtorEq, false_and] at h

theorem kfunc_tx {info : Option (BitVec 32)} (ho : f.opcode = some .bcastRing ∨ f.opcode = some .bcastLinear)
    (h : kfunc maps ⟨f, info⟩ = (.tx, g)) : Rewritten maps f g := by
  simp only [kfunc] at h
  split at h
  case h_1 hp => simp [parseIpPacket_some hp] at h
  split at h
  case isFalse => simp at h
  split at h
  case isFalse => exact absurd (Prod.mk.inj h).left handleOriginal_ne_tx
  case isTrue =>
    simp only [handleClone, Frame.opcode] at h ho
    split at h
    case isTrue => simp at h
    split at h
    case isTrue => simp at h
    split at h
    case isTrue => simp at h
    cases ho with
    | inl ho | inr ho =>
      simp only [ho] at h
      exact cloneNext_tx h

theorem cloneBcast_kept {copy : Option (BitVec 32)} :
    (cloneBcast maps ⟨f, copy⟩).1 = .tx ∨ (cloneBcast maps ⟨f, copy⟩).2 = f := by
  simp only [cloneBcast]
  repeat' split
  case h_2 => exact .inl rfl
  all_goals exact .inr rfl

theorem cloneNext_kept {copy : Option (BitVec 32)} :
    (cloneNext maps ⟨f, copy⟩).1 = .tx ∨ (cloneNext maps ⟨f, copy⟩).2 = f := by
  simp only [cloneNext]
  repeat' split
  case h_2 => exact .inl rfl
  all_goals exact .inr rfl

-- What the program does not transmit it leaves as it is.
theorem kfunc_kept (maps : Maps) (f : Frame) (copy : Option (BitVec 32)) :
    (kfunc maps ⟨f, copy⟩).1 = .tx ∨ (kfunc maps ⟨f, copy⟩).2 = f := by
  simp only [kfunc]
  split
  case h_1 => exact .inr rfl
  split
  case isFalse => exact .inr rfl
  split
  case isFalse => exact .inr rfl
  case isTrue =>
    simp only [handleClone]
    repeat' split
    case h_2 => exact cloneBcast_kept
    case h_3 => exact cloneNext_kept
    case h_4 => exact cloneNext_kept
    all_goals exact .inr rfl

theorem handed_kept {copy : Option (BitVec 32)} (hg : g ∈ (copyOutcome (kfunc maps ⟨f, copy⟩)).handed) : g = f := by
  have hk := kfunc_kept maps f copy
  generalize kfunc maps ⟨f, copy⟩ = r at hg hk
  obtain ⟨action, b⟩ := r
  cases action
  case pass      => simp_all [copyOutcome]
  case clonePass => simp_all [copyOutcome]
  all_goals simp [copyOutcome] at hg

end Xdp

namespace Tc

-- The packets that come out of a run of the program are the one that went in, or readdressed ones.
structure Follows (maps : Maps) (f : Frame) (r : Run) : Prop where
  skb      : r.skb.frame = f ∨ Rewritten maps f r.skb.frame
  redirect : r.action = .redirect → Rewritten maps f r.skb.frame
  egress   : ∀ g ∈ r.egress, Rewritten maps f g
  ingress  : ∀ c ∈ r.ingress, c.frame = f

theorem Follows.quiet (h : action ≠ .redirect) : Follows maps f { action, skb := ⟨f, mark⟩ } where
  skb         := .inl rfl
  redirect    := fun ha => absurd ha h
  egress _ h  := by simp at h
  ingress _ h := by simp at h

theorem Follows.ok : Follows maps f { action := .ok, skb := ⟨f, mark⟩ } :=
  .quiet nofun

theorem cloneRing_follows : Follows maps f (cloneRing maps ⟨f, mark⟩) := by
  simp only [cloneRing]
  repeat' split
  case h_2.isFalse hi _ =>
    have hr : Rewritten maps f _ := ⟨_, _, hi, rfl⟩
    exact ⟨.inr hr, fun _ => hr, by simp, by simp⟩
  all_goals exact .ok

theorem linearRound_follows : Follows maps f (linearRound maps ret ⟨f, mark⟩ size i) := by
  simp only [linearRound]
  repeat' split
  case isTrue => exact .quiet (by simp)
  case h_2.isFalse.isTrue hi _ _ => exact ⟨.inr ⟨_, _, hi, rfl⟩, by simp, by simp, by simp⟩
  case h_2.isFalse.isFalse hi _ _ =>
    have hr : Rewritten maps f _ := ⟨_, _, hi, rfl⟩
    refine ⟨.inr hr, by simp, fun g hg => ?_, by simp⟩
    rwa [List.mem_singleton.mp hg]
  all_goals exact .ok

theorem handleClone_follows : Follows maps f (handleClone maps ret ⟨f, mark⟩) := by
  simp only [handleClone, cloneLinear]
  repeat' split
  case h_2 => exact cloneRing_follows
  case h_3.isTrue => exact linearRound_follows
  all_goals exact .ok

theorem Follows.cloned (h : Follows maps f r) (mark : BitVec 32) :
    Follows maps f { r with ingress := ⟨f, mark⟩ :: r.ingress } where
  skb      := h.skb
  redirect := h.redirect
  egress   := h.egress
  ingress  := by simpa using h.ingress

theorem originalBcast_follows : Follows maps f (originalBcast maps ret ⟨f, mark⟩) := by
  simp only [originalBcast]
  split
  case isTrue => exact .ok
  split
  case h_1 => exact .ok
  split
  case isTrue => exact .ok
  split
  case h_1 hp => exact Follows.cloned (.quiet (by simp [parseIpPacket_some hp])) _
  case h_2    => exact handleClone_follows.cloned _

theorem kfunc_follows : Follows maps f (kfunc maps ret ⟨f, mark⟩) := by
  simp only [kfunc]
  split
  case isTrue =>
    split
    case h_1 hp => exact .quiet (by simp [parseIpPacket_some hp])
    case h_2    => exact .ok
  split
  case h_1 hp => exact .quiet (by simp [parseIpPacket_some hp])
  split
  case isFalse => exact .quiet (by simp)
  case isTrue =>
    simp only [handleOriginal]
    repeat' split
    case h_2 => exact originalBcast_follows
    case h_3 => exact originalBcast_follows
    all_goals exact .ok

end Tc

-- What comes back from the other host.
theorem mirror_tx (h : mirror f = (.tx, g)) : Frame.Agree f g := by
  simp only [mirror] at h
  split at h
  case isTrue => simp at h
  split at h
  case isTrue => simp at h
  split at h
  case isTrue => simp at h
  split at h
  case isTrue =>
    simp only [Prod.mk.injEq, true_and] at h
    exact h ▸ .refl
  split at h
  case isFalse => simp at h
  split at h
  case isTrue => simp at h
  split at h
  case isTrue => simp at h
  split at h
  case isTrue  => simp at h
  case isFalse =>
    simp only [Prod.mk.injEq, true_and] at h
    exact h ▸ Frame.swapMac_swapIp_agree

-- What one of the two programs sends on of a packet, or what the traffic control program hands to the local
-- UDP stack in its place.
inductive Forwards (maps : Maps) (f g : Frame) : Prop
  | transmitted {info : Option (BitVec 32)} (opcode : f.opcode = some .bcastRing ∨ f.opcode = some .bcastLinear)
      (run : Xdp.kfunc maps ⟨f, info⟩ = (.tx, g))
  | redirected {ret : Int} {mark : BitVec 32} (run : (Tc.kfunc maps ret ⟨f, mark⟩).action = .redirect)
      (frame : (Tc.kfunc maps ret ⟨f, mark⟩).skb.frame = g)
  | cloned {ret : Int} {mark : BitVec 32} (mem : g ∈ (Tc.kfunc maps ret ⟨f, mark⟩).egress)
  | kept {ret : Int} {mark : BitVec 32} (frame : (Tc.kfunc maps ret ⟨f, mark⟩).skb.frame = g) (ne : g ≠ f)

theorem Forwards.rewritten (h : Forwards maps f g) : Rewritten maps f g := by
  cases h with
  | transmitted ho hr => exact Xdp.kfunc_tx ho hr
  | redirected hr hf  => exact hf ▸ Tc.kfunc_follows.redirect hr
  | cloned hm         => exact Tc.kfunc_follows.egress g hm
  | kept hf hne       =>
    subst hf
    exact Tc.kfunc_follows.skb.resolve_left hne

-- The packets that come from `f` by any number of forwards and reflections, each with the packet that the
-- last forward was made of.
inductive Travels (maps : Maps) (f : Frame) : Option Frame → Frame → Prop
  | sent : Travels maps f none f
  | forwarded {b g : Frame} (h : Travels maps f last b) (fwd : Forwards maps b g) : Travels maps f (some b) g
  | reflected {b g : Frame} (h : Travels maps f last b) (back : mirror b = (.tx, g)) : Travels maps f last g

-- The entries of `proc_to_address` have the ports of their ranks.
def Maps.Routes (maps : Maps) : Prop :=
  ∀ s d info, maps.procToAddress ⟨s, d⟩ = some info →
    info.srcPort = BitVec.ofNat 16 (basePort + s.toNat) ∧ info.dstPort = BitVec.ofNat 16 (basePort + d.toNat)

theorem Maps.filled_routes (n : Nat) : (Maps.filled n).Routes := by
  intro s d info hi
  simp only [filled] at hi
  split at hi
  case isTrue  => cases hi; exact ⟨rfl, rfl⟩
  case isFalse => contradiction

-- The packet is between the UDP sockets of the ranks in its header.
structure Frame.Between (f : Frame) : Prop where
  source : f.udpSource = BitVec.ofNat 16 (basePort + f.srcHost.toNat)
  dest   : f.Addressed

theorem Maps.Routes.between (h : maps.Routes) (hr : f.Routed maps) : f.Between :=
  have ⟨_, hi, hs, hd⟩ := hr
  have ⟨h₁, h₂⟩ := h _ _ _ hi
  ⟨hs.trans h₁, hd.trans h₂⟩

theorem Frame.Agree.udpSource (h : Agree f g) (hi : 5 ≤ f.ihl) : g.udpSource = f.udpSource := by
  have := le_udph hi
  simp only [Frame.udpSource, h.udph, h.load (i := f.udph) (by omega)]

theorem Frame.Agree.message (h : Agree f g) (hi : 5 ≤ f.ihl) : g.message = f.message := by
  have := le_udph hi
  rw [Frame.message, h.payload, h.len, h.read (by rw [Frame.payload]; omega), Frame.message]

theorem Frame.Agree.between (h : Agree f g) (hi : 5 ≤ f.ihl) (hb : f.Between) : g.Between where
  source := by rw [h.udpSource hi, h.srcHost hi, hb.source]
  dest   := by
    have := hb.dest
    rwa [Addressed, h.udpDest hi, h.dstHost hi]

theorem Frame.Agree.routed (h : Agree f g) (hi : 5 ≤ f.ihl) (hr : f.Routed maps) : g.Routed maps := by
  rwa [Routed, h.srcHost hi, h.dstHost hi, h.udpSource hi, h.udpDest hi]

theorem Rewritten.routed (h : Rewritten maps f g) (hi : 5 ≤ f.ihl) : g.Routed maps ∧ g.srcHost = f.dstHost := by
  obtain ⟨next, info, he, rfl⟩ := h
  have hi : 5 ≤ f.swapMac.ihl := Frame.swapMac_agree.ihl.symm ▸ hi
  refine ⟨⟨info, ?_, Frame.readdress_udpSource hi, Frame.readdress_udpDest hi⟩, Frame.readdress_srcHost hi⟩
  rwa [Frame.readdress_srcHost hi, Frame.readdress_dstHost hi]

-- Where a packet is on its way: what it still has of the packet that was sent, and of the last forward.
structure Arrived (maps : Maps) (f₀ : Frame) (h : Header) (data : List Byte) (last : Option Frame) (f : Frame) :
    Prop where
  preserves : f₀.Preserves f
  message   : f.message = { h with src := f.srcHost, dst := f.dstHost }.encode ++ data
  between   : f.Between
  origin    : last = none → f.srcHost = h.src ∧ f.dstHost = h.dst
  last      : ∀ b, last = some b → b.Between ∧ f.srcHost = b.dstHost ∧ f.Routed maps

namespace Arrived

variable {f₀ : Frame} {h : Header} {data : List Byte} {last : Option Frame}

theorem start (hi : 5 ≤ f.ihl) (hm : f.message = h.encode ++ data) (hb : f.Between) : Arrived maps f h data none f := by
  have ⟨hs, hd⟩ := f.message_ranks hm
  exact {
    preserves := .refl hi
    message   := by rw [hs, hd, hm]
    between   := hb
    origin    := fun _ => ⟨hs, hd⟩
    last      := nofun }

theorem forwarded (hp : maps.Routes) (a : Arrived maps f₀ h data last f) (fwd : Forwards maps f g) :
    Arrived maps f₀ h data (some f) g := by
  have hi := a.preserves.ihl
  have hw := fwd.rewritten
  have ⟨hr, hs⟩ := hw.routed hi
  obtain ⟨next, info, he, rfl⟩ := hw
  exact {
    preserves := a.preserves.trans (Frame.readdress_preserves hi)
    message   := by
      rw [Frame.readdress_message hi a.message, hs,
        Frame.readdress_dstHost (Frame.swapMac_agree.ihl.symm ▸ hi : 5 ≤ f.swapMac.ihl)]
    between   := hp.between hr
    origin    := nofun
    last      := by
      intro b hb
      cases hb
      exact ⟨a.between, hs, hr⟩ }

theorem reflected (a : Arrived maps f₀ h data last f) (hr : mirror f = (.tx, g)) : Arrived maps f₀ h data last g := by
  have ha := mirror_tx hr
  have hi := a.preserves.ihl
  exact {
    preserves := a.preserves.trans (ha.preserves hi)
    message   := by rw [ha.message hi, ha.srcHost hi, ha.dstHost hi, a.message]
    between   := ha.between hi a.between
    origin    := by
      rw [ha.srcHost hi, ha.dstHost hi]
      exact a.origin
    last      := by
      intro b hb
      have ⟨h₁, h₂, h₃⟩ := a.last b hb
      exact ⟨h₁, (ha.srcHost hi).trans h₂, ha.routed hi h₃⟩ }

theorem travels (hi : 5 ≤ f₀.ihl) (hm : f₀.message = h.encode ++ data) (hb : f₀.Between) (hp : maps.Routes)
    (t : Travels maps f₀ last f) : Arrived maps f₀ h data last f := by
  induction t with
  | sent             => exact start hi hm hb
  | forwarded _ fwd ha  => exact ha.forwarded hp fwd
  | reflected _ back ha => exact ha.reflected back

end Arrived

-- What the local UDP stack is handed has travelled on the same way.
theorem Travels.handed {f₀ : Frame} {last : Option Frame} (t : Travels maps f₀ last f) (p : Program)
    (hg : g ∈ (p.handle maps f).handed) : ∃ last, Travels maps f₀ last g := by
  cases p
  case xdp =>
    refine ⟨last, ?_⟩
    have hf : g = f := by
      have hk := Xdp.kfunc_kept maps f none
      simp only [Program.handle, Xdp.handle] at hg
      split at hg
      case h_1 he =>
        simp only [Outcome.append, Outcome.concat, List.mem_append, List.mem_flatMap, List.mem_map,
          List.mem_singleton] at hg
        rcases hg with rfl | ⟨_, ⟨i, _, rfl⟩, hg⟩
        · simpa [he] using hk
        · exact Xdp.handed_kept hg
      case h_2 => exact Xdp.handed_kept hg
    exact hf ▸ t
  case tc =>
    have hk (mark : BitVec 32) (h : g ∈ (Tc.kfunc maps 0 ⟨f, mark⟩).own.handed) : ∃ last, Travels maps f₀ last g := by
      by_cases hf : g = f
      case pos => exact ⟨last, hf ▸ t⟩
      case neg =>
        simp only [Tc.Run.own] at h
        split at h
        case isFalse => contradiction
        case isTrue  => exact ⟨some f, t.forwarded (.kept (List.mem_singleton.mp h).symm hf)⟩
    simp only [Program.handle, Tc.handle, Outcome.append, Outcome.concat, List.mem_append, List.mem_flatMap,
      List.mem_map] at hg
    rcases hg with ⟨_, ⟨c, hc, rfl⟩, hg⟩ | hg
    · have hf : c.frame = f := Tc.kfunc_follows.ingress c hc
      exact hk c.mark (hf ▸ hg)
    · exact hk 0#32 hg

-- However often a message is forwarded and reflected, a receiver decodes what was sent, from the rank that
-- forwarded it last, and no other bytes of the packet have changed but those of its addresses and checksums.
theorem travels_preserves {f₀ : Frame} {h : Header} {data : List Byte} {last : Option Frame} (hi : 5 ≤ f₀.ihl)
    (hm : f₀.message = h.encode ++ data) (hb : f₀.Between) (hp : maps.Routes) (t : Travels maps f₀ last f) :
    f.message.take 4 = magic ∧
    Header.decode f.message = { h with src := f.srcHost, dst := f.dstHost } ∧
    f.message.drop mpiHeader = data ∧
    f.Between ∧
    (last = none → f.srcHost = h.src ∧ f.dstHost = h.dst) ∧
    (∀ b, last = some b → b.Between ∧ f.srcHost = b.dstHost ∧ f.Routed maps) ∧
    f.len = f₀.len ∧
    ∀ j, f₀.Fixed j → f.data j = f₀.data j := by
  have a : Arrived maps f₀ h data last f := .travels hi hm hb hp t
  refine ⟨?_, ?_, ?_, a.between, a.origin, a.last, a.preserves.len, a.preserves.fixed⟩
  · rw [a.message, Header.encode, List.append_assoc]
    rfl
  · rw [a.message, Header.decode_encode]
  · rw [a.message, List.drop_left' (Header.encode_length _)]

theorem travels_preserves_three :
    let h : Header := ⟨0, 0, 1, 3, 2, 1, 1, 0, 0⟩
    let f₀ := Frame.ofMessage 5000 5001 (h.encode ++ [0])
    let f := (Tc.kfunc (.filled 3) 0 ⟨f₀, 0⟩).skb.frame
    Header.decode f.message = { h with src := f.srcHost, dst := f.dstHost } ∧ f.message.drop mpiHeader = [0] := by
  intro h f₀ f
  have hm : f₀.message = h.encode ++ [0] := by
    rw [Frame.message, Frame.ofMessage_payload, Frame.ofMessage_len]
    exact Frame.ofMessage_read
  have hb : f₀.Between := ⟨by decide +kernel, Frame.ofMessage_addressed h _ _ rfl⟩
  have hi : 5 ≤ f₀.ihl := by rw [Frame.ofMessage_ihl]
  have hr : (Tc.kfunc (.filled 3) 0 ⟨f₀, 0⟩).action = .redirect := by decide +kernel
  have ha := travels_preserves hi hm hb (Maps.filled_routes 3) (Travels.sent.forwarded (.redirected hr rfl))
  exact ⟨ha.right.left, ha.right.right.left⟩

end Kernel

import XdpCollectives.Kernel.Theorems.Journey
import XdpCollectives.Kernel.Theorems.Linear
import Mathlib.Algebra.Order.BigOperators.Group.List

open Memory Wire

-- How often the program transmits a packet and what comes of it.
namespace Kernel

namespace World

variable {handle : Frame → Outcome} {w w' : World} {f : Frame}

-- Every packet has a budget, out of which the program pays for what it transmits and for the budgets of what
-- comes back.
structure Budget (handle : Frame → Outcome) (I : Frame → Prop) (budget : Frame → Nat) : Prop where
  keeps : ∀ f, I f → ∀ t ∈ (handle f).sent, ∀ b, t.Reflected b → I b
  pays  : ∀ f, I f → ∀ bs, List.Forall₂ Frame.Reflected (handle f).sent bs →
    (handle f).sent.length + (bs.map budget).sum ≤ budget f

theorem Step.pays (hb : Budget handle I budget) (hi : ∀ f ∈ w.flight, I f) (s : Step handle w w') :
    (∀ f ∈ w'.flight, I f) ∧
    w'.sent.length + (w'.flight.map budget).sum ≤ w.sent.length + (w.flight.map budget).sum := by
  cases s with | @arrive l r f bs flight reflected =>
  rw [flight] at hi ⊢
  have hf := hi f (by simp)
  have hp := hb.pays f hf bs reflected
  constructor
  case left =>
    intro b hm
    simp only [List.mem_append] at hm
    rcases hm with (hm | hm) | hm
    · exact hi b (by simp [hm])
    · exact hi b (by simp [hm])
    · have ⟨t, ht, hr⟩ := exists_reflected reflected hm
      exact hb.keeps f hf t ht b hr
  case right =>
    simp only [List.length_append, List.map_append, List.map_cons, List.sum_append, List.sum_cons]
    omega

theorem Budget.sent_le (hb : Budget handle I budget) (hf : I f) (s : Reaches handle { flight := [f] } w) :
    w.sent.length ≤ budget f := by
  have hs : (∀ g ∈ w.flight, I g) ∧ w.sent.length + (w.flight.map budget).sum ≤ budget f := by
    induction s
    case refl =>
      refine ⟨fun g hg => ?_, by simp⟩
      rwa [List.mem_singleton.mp hg]
    case tail s hi =>
      have ⟨hk, hl⟩ := s.pays hb hi.left
      exact ⟨hk, hl.trans hi.right⟩
  omega

-- A packet that nothing is made of.
theorem sent_nil (h : (handle f).sent = []) (s : Reaches handle { flight := [f] } w) : w.sent.length = 0 := by
  have hb : Budget handle (· = f) fun _ => 0 := {
    keeps := by
      intro g hg t ht
      rw [hg, h] at ht
      contradiction
    pays  := by
      intro g hg bs hr
      rw [hg, h] at hr ⊢
      cases hr
      rfl }
  exact Nat.le_zero.mp (hb.sent_le rfl s)

end World

variable {maps : Maps} {f b t : Frame} {src next : BitVec 32} {info : SocketId} {n : Nat}

namespace Frame

theorem Preserves.live (h : f.Preserves b) (m : f.Live) (hs : b.saddr = bpfHtonl grecaleIp) : b.Live := by
  have hu := le_udph m.ihl
  have hp : f.payload = f.udph + 8 := rfl
  have hm (k : Nat) (hk : k < 4) : b.data (f.payload + k) = f.data (f.payload + k) :=
    h.fixed _ ⟨by omega, by omega, by omega, by omega, by omega⟩
  have hl : b.data.load 2 12 = f.data.load 2 12 :=
    Mem.load_congr fun k _ => h.fixed _ ⟨by omega, by omega, by omega, by omega, by omega⟩
  exact {
    proto    := by
      rw [hProto, hl]
      exact m.proto
    ihl      := h.ihl
    protocol := by
      rw [Frame.protocol, h.fixed _ ⟨by decide, by decide, ?_, ?_, ?_⟩]
      · exact m.protocol
      all_goals simp only [ethHlen]; omega
    fits     := by
      rw [h.payload, h.len]
      exact m.fits
    magic    := by
      have h₀ := hm 0
      simp only [Nat.add_zero] at h₀
      rw [magicRejected, h.payload, h₀ (by decide), hm 1 (by decide), hm 2 (by decide), hm 3 (by decide)]
      exact m.magic
    saddr    := hs }

theorem Preserves.rootHost (h : f.Preserves b) : b.rootHost = f.rootHost := by
  have hp := le_udph h.ihl
  rw [h.udph] at hp
  simp only [Frame.rootHost, h.payload]
  rw [Mem.load_congr fun k hk => h.fixed _ ⟨?_, ?_, ?_, ?_, ?_⟩] <;> simp only [Frame.payload] <;> omega

theorem Preserves.opcode (h : f.Preserves b) : b.opcode = f.opcode := by
  have hp := le_udph h.ihl
  rw [h.udph] at hp
  simp only [Frame.opcode, Frame.opcodeHost, h.payload]
  rw [Mem.load_congr fun k hk => h.fixed _ ⟨?_, ?_, ?_, ?_, ?_⟩] <;> simp only [Frame.payload] <;> omega

-- What a program has sent on, when it comes back.
structure Returned (f b : Frame) : Prop where
  live   : b.Live
  opcode : b.opcode = f.opcode
  root   : b.rootHost = f.rootHost
  src    : b.srcHost = f.dstHost

theorem Live.returned (m : f.Live) (h : Reflected (f.swapMac.readdress f.dstHost next info) b) :
    f.Returned b ∧ b.dstHost = next := by
  have hi : 5 ≤ f.swapMac.ihl := swapMac_agree.ihl.symm ▸ m.ihl
  have hs : f.Preserves (f.swapMac.readdress f.dstHost next info) := readdress_preserves m.ihl
  have hp : f.Preserves b := hs.trans (h.agree.preserves hs.ihl)
  refine ⟨⟨hp.live m h.saddr, hp.opcode, hp.rootHost, ?_⟩, ?_⟩
  · rw [h.agree.srcHost hs.ihl, readdress_srcHost hi]
  · rw [h.agree.dstHost hs.ihl, readdress_dstHost hi]

end Frame

-- A copy for `next` is transmitted where the table knows the way to `next` and it is not the root.
theorem relay_cases (maps : Maps) (f : Frame) (next : BitVec 32) :
    (relay maps f next).sent = [] ∨
    f.rootHost ≠ next ∧ ∃ info, maps.procToAddress ⟨f.dstHost, next⟩ = some info ∧
      (relay maps f next).sent = [f.swapMac.readdress f.dstHost next info] := by
  simp only [relay]
  split
  case isTrue => exact .inl rfl
  case isFalse hr =>
    split
    case h_1         => exact .inl rfl
    case h_2 info hi => exact .inr ⟨hr, info, hi, rfl⟩

theorem relay_sent_length (maps : Maps) (f : Frame) (next : BitVec 32) : (relay maps f next).sent.length ≤ 1 := by
  cases relay_cases maps f next with
  | inl h => simp [h]
  | inr h =>
    have ⟨_, _, _, h⟩ := h
    simp [h]

theorem Frame.Live.relay_returned (m : f.Live) (ht : t ∈ (relay maps f next).sent) (hb : t.Reflected b) :
    f.Returned b ∧ b.dstHost = next ∧ f.rootHost ≠ next := by
  cases relay_cases maps f next with
  | inl h => simp [h] at ht
  | inr h =>
    have ⟨hr, _, _, h⟩ := h
    rw [h, List.mem_singleton] at ht
    have ⟨hb, hn⟩ := m.returned (ht ▸ hb)
    exact ⟨hb, hn, hr⟩

namespace Xdp

open World

section Linear

-- The packets of a linear broadcast that the program sees.
structure Spreads (f : Frame) : Prop where
  live   : f.Live
  opcode : f.opcode = some .bcastLinear

-- Those that are from the root have a copy made for every rank, and nothing is made of the copies.
def linearBudget (n : Nat) (f : Frame) : Nat :=
  if f.rootHost = f.srcHost then n else 0

theorem spreads_sent (c : maps.Complete n) (h : Spreads f) (ht : t ∈ (handle maps f).sent) :
    f.rootHost = f.srcHost ∧ f.rootHost ≠ f.dstHost ∧ ∃ next, t ∈ (relay maps f next).sent := by
  obtain ⟨v, hv, _⟩ := c.numProcess
  by_cases hd : f.rootHost = f.dstHost
  case pos => simp [handle_root h.live hv (.inr h.opcode) hd] at ht
  by_cases hr : f.rootHost = f.srcHost
  case neg => simp [handle_linear_not_src h.live hv h.opcode hd hr] at ht
  case pos =>
    rw [handle_linear h.live hv h.opcode hd hr] at ht
    simp only [Outcome.append, Outcome.concat, List.nil_append, List.mem_flatMap, List.mem_map] at ht
    obtain ⟨_, ⟨_, _, he⟩, ht⟩ := ht
    exact ⟨hr, hd, _, he ▸ ht⟩

theorem spreads_length (c : maps.Complete n) (h : Spreads f) : (handle maps f).sent.length ≤ n := by
  obtain ⟨v, hv, _⟩ := c.numProcess
  by_cases hd : f.rootHost = f.dstHost
  case pos => simp [handle_root h.live hv (.inr h.opcode) hd]
  by_cases hr : f.rootHost = f.srcHost
  case neg => simp [handle_linear_not_src h.live hv h.opcode hd hr]
  case pos =>
    rw [handle_linear h.live hv h.opcode hd hr, c.setWidth hv]
    simp only [Outcome.append, Outcome.concat, List.nil_append, List.length_flatMap, List.map_map]
    refine (List.sum_le_card_nsmul _ 1 fun k hk => ?_).trans (by simp)
    obtain ⟨i, _, he⟩ := List.mem_map.mp hk
    simp only [Function.comp_apply] at he
    rw [← he]
    exact relay_sent_length maps f _

theorem linear_budget (c : maps.Complete n) : Budget (handle maps) Spreads (linearBudget n) := by
  have hc {f t b : Frame} (h : Spreads f) (ht : t ∈ (handle maps f).sent) (hb : t.Reflected b) :
      Spreads b ∧ linearBudget n b = 0 := by
    have ⟨_, hd, _, ht⟩ := spreads_sent c h ht
    have ⟨hr, _⟩ := h.live.relay_returned ht hb
    refine ⟨⟨hr.live, hr.opcode.trans h.opcode⟩, if_neg ?_⟩
    rwa [hr.root, hr.src]
  constructor
  case keeps => exact fun f h t ht b hb => (hc h ht hb).left
  case pays =>
    intro f h bs hbs
    by_cases he : (handle maps f).sent = []
    case pos =>
      rw [he] at hbs ⊢
      cases hbs
      simp
    case neg =>
      have ⟨_, ht⟩ := List.exists_mem_of_ne_nil _ he
      have hz : (bs.map (linearBudget n)).sum = 0 := by
        refine List.sum_eq_zero fun k hk => ?_
        have ⟨b, hb, hk⟩ := List.mem_map.mp hk
        have ⟨t, ht, hb⟩ := exists_reflected hbs hb
        rw [← hk, (hc h ht hb).right]
      rw [hz, linearBudget, if_pos (spreads_sent c h ht).left]
      exact spreads_length c h

end Linear

section Ring

-- The packets of a ring around a root.
structure Turns (root : BitVec 32) (f : Frame) : Prop where
  live   : f.Live
  opcode : f.opcode = some .bcastRing
  root   : f.rootHost = root

-- The way that is left to the root. A packet for nobody on the ring may enter it anywhere.
def ringBudget (n : Nat) (f : Frame) : Nat :=
  if f.dstHost.toNat < n then Cycle.distance n f.dstHost.toNat f.rootHost.toNat else n

theorem turns_sent (h : Turns root f) (hv : maps.numProcess 0#32 = some v) :
    (handle maps f).sent = [] ∨
    root ≠ f.dstHost ∧ (handle maps f).sent = (relay maps f ((f.dstHost + 1#32) % v.setWidth 32)).sent := by
  by_cases hd : f.rootHost = f.dstHost
  case pos => exact .inl (by rw [handle_root h.live hv (.inl h.opcode) hd])
  case neg =>
    refine .inr ⟨h.root ▸ hd, ?_⟩
    simp only [handle_ring h.live hv h.opcode hd, Outcome.append, List.nil_append]

theorem next_lt (c : maps.Complete n) (hv : maps.numProcess 0#32 = some v) (hn : 1 ≤ n) (d : BitVec 32) :
    ((d + 1#32) % v.setWidth 32).toNat < n := by
  rw [BitVec.toNat_umod, c.setWidth hv]
  exact Nat.mod_lt _ hn

-- The next packet of the ring is one step closer to the root.
theorem ringBudget_next (c : maps.Complete n) (hv : maps.numProcess 0#32 = some v) (hn : 1 ≤ n)
    (hr : f.rootHost.toNat < n ∨ n = 1) (hd : f.rootHost ≠ f.dstHost) (hb : b.rootHost = f.rootHost)
    (hx : b.dstHost = (f.dstHost + 1#32) % v.setWidth 32)
    (hi : maps.procToAddress ⟨f.dstHost, b.dstHost⟩ = some info) : 1 + ringBudget n b ≤ ringBudget n f := by
  have hl : b.dstHost.toNat < n := by
    rw [hx]
    exact next_lt c hv hn _
  rw [ringBudget, if_pos hl, ringBudget, hb]
  split
  case isFalse =>
    have := Cycle.distance_lt hl f.rootHost.toNat
    omega
  case isTrue hf =>
    have hs : f.dstHost ≠ b.dstHost := (c.lookup hf hl).mp (by rw [hi]; rfl)
    have ht : b.dstHost.toNat = (f.dstHost.toNat + 1) % n := by
      rw [hx]
      exact c.next_toNat hv hf (k := 1) hn
    have hn₁ : n ≠ 1 := by
      rintro rfl
      exact hs (BitVec.eq_of_toNat_eq (by omega))
    have hne : f.dstHost.toNat ≠ f.rootHost.toNat := fun he => hd (BitVec.eq_of_toNat_eq he.symm)
    rw [ht, ← Cycle.distance_succ hf (hr.resolve_right hn₁) hne, Nat.add_comm]

theorem ring_budget (c : maps.Complete n) (hn : 1 ≤ n) (hr : root.toNat < n ∨ n = 1) :
    Budget (handle maps) (Turns root) (ringBudget n) := by
  have ⟨v, hv, _⟩ := c.numProcess
  constructor
  case keeps =>
    intro f h t ht b hb
    cases turns_sent h hv with
    | inl he => simp [he] at ht
    | inr he =>
      have ⟨hb, _⟩ := h.live.relay_returned (he.right ▸ ht) hb
      exact ⟨hb.live, hb.opcode.trans h.opcode, hb.root.trans h.root⟩
  case pays =>
    intro f h bs hbs
    cases turns_sent h hv with
    | inl he =>
      rw [he] at hbs ⊢
      cases hbs
      simp
    | inr he =>
      have ⟨hd, he⟩ := he
      rw [he] at hbs ⊢
      cases relay_cases maps f ((f.dstHost + 1#32) % v.setWidth 32) with
      | inl hs =>
        rw [hs] at hbs ⊢
        cases hbs
        simp
      | inr hs =>
        have ⟨_, info, hi, hs⟩ := hs
        rw [hs] at hbs ⊢
        cases hbs with | @cons _ b _ _ hb₁ hb₂ =>
        cases hb₂
        have ⟨hb, hx⟩ := h.live.returned hb₁
        rw [← hx] at hi
        rw [← h.root] at hr hd
        exact ringBudget_next c hv hn hr hd hb.root hx hi

end Ring

-- A packet of a ring that has no root: it can be sent on, and whoever it reaches can send it on.
structure Circles (maps : Maps) (n : Nat) (f : Frame) : Prop where
  live   : f.Live
  opcode : f.opcode = some .bcastRing
  two    : 2 ≤ n
  root   : n ≤ f.rootHost.toNat
  dst    : f.rootHost ≠ f.dstHost
  lookup : (maps.procToAddress ⟨f.dstHost, (f.dstHost + 1#32) % BitVec.ofNat 32 n⟩).isSome

namespace Circles

theorem sends (c : maps.Complete n) (h : Circles maps n f) :
    ∃ t, (handle maps f).sent = [t] ∧ ∀ b, t.Reflected b → Circles maps n b := by
  obtain ⟨v, hv, _⟩ := c.numProcess
  have hw := c.setWidth_eq hv
  have hn := h.two
  have hl := next_lt c hv (by omega) f.dstHost
  obtain ⟨info, hi⟩ := Option.isSome_iff_exists.mp h.lookup
  rw [hw] at hl
  have hr (d : BitVec 32) (hd : d.toNat < n) : f.rootHost ≠ d := by
    rintro he
    have := h.root
    rw [he] at this
    omega
  refine ⟨f.swapMac.readdress f.dstHost ((f.dstHost + 1#32) % BitVec.ofNat 32 n) info, ?_, fun b hb => ?_⟩
  case refine_1 =>
    simp only [handle_ring h.live hv h.opcode h.dst, Outcome.append, List.nil_append, relay, hw, if_neg (hr _ hl), hi]
  case refine_2 =>
    obtain ⟨hb, hx⟩ := h.live.returned hb
    rw [← hx] at hl
    have hl' := next_lt c hv (by omega) b.dstHost
    have hk := c.next_toNat hv hl (k := 1) (by omega)
    have hne := Cycle.add_mod_ne hl (k := 1) (by omega) hn
    rw [hw] at hl' hk
    exact {
      live   := hb.live
      opcode := hb.opcode.trans h.opcode
      two    := hn
      root   := by
        rw [hb.root]
        exact h.root
      dst    := by
        rw [hb.root]
        exact hr _ hl
      lookup := by
        rw [c.lookup hl hl']
        intro he
        rw [← he] at hk
        exact hne hk.symm }

-- It is never stopped.
theorem endless (c : maps.Complete n) (h : Circles maps n f) (k : Nat) :
    ∃ w b, World.Reaches (handle maps) { flight := [f] } w ∧ w.sent.length = k ∧ w.flight = [b] ∧
      Circles maps n b := by
  induction k
  case zero => exact ⟨_, f, .refl, rfl, rfl, h⟩
  case succ k hi =>
    have ⟨w, b, hw, hk, hf, hb⟩ := hi
    have ⟨t, ht, hc⟩ := hb.sends c
    have ⟨w', s⟩ := @World.Step.exists_of_flight (handle maps) w (by simp [hf])
    refine ⟨w', ?_⟩
    cases s with | @arrive l r g bs flight reflected =>
    obtain ⟨rfl, rfl, rfl⟩ : l = [] ∧ r = [] ∧ g = b := by
      rw [hf] at flight
      cases l <;> simp_all
    have hs := reflected
    rw [ht] at hs
    cases hs with | @cons _ b' _ _ hb₁ hb₂ =>
    cases hb₂
    refine ⟨b', hw.tail (.arrive flight reflected), ?_, rfl, hc b' hb₁⟩
    simp [ht, hk]

end Circles

theorem sent_of_untouched (h : Untouched f (kfunc maps ⟨f, none⟩)) : (handle maps f).sent = [] := by
  have ht := h.tx
  have hc := h.clone
  simp only [handle]
  generalize kfunc maps ⟨f, none⟩ = r at ht hc
  obtain ⟨action, g⟩ := r
  cases action
  case tx        => contradiction
  case clonePass => exact absurd rfl (hc _)
  all_goals rfl

-- Every broadcast packet from 192.168.101.2 ends after at most `n` transmissions, but one that goes around a
-- ring that its root is not on.
theorem transmissions_bounded_iff (hn : 1 ≤ n) (c : maps.Complete n) (u : f.Udp) (hf : f.payload + mpiHeader ≤ f.len)
    (hs : f.saddr = bpfHtonl grecaleIp) (ho : f.opcode = some .bcastRing ∨ f.opcode = some .bcastLinear) :
    (∀ w, World.Reaches (handle maps) { flight := [f] } w → w.sent.length ≤ n) ↔ ¬Circles maps n f := by
  constructor
  case mp =>
    intro h hc
    have ⟨w, _, hw, hk, _⟩ := hc.endless c (n + 1)
    have := h w hw
    omega
  case mpr =>
    intro hc w hw
    by_cases hl : f.Recognised ∧ 5 ≤ f.ihl
    case neg =>
      have hu : Untouched f (kfunc maps ⟨f, none⟩) := untouched fun h => hl ⟨h.left, h.right.ihl⟩
      rw [World.sent_nil (sent_of_untouched hu) hw]
      exact Nat.zero_le n
    have m : f.Live := ⟨u.proto, hl.right, u.protocol, hf, hl.left.magic, hs⟩
    cases ho with
    | inr ho =>
      refine ((linear_budget c).sent_le ⟨m, ho⟩ hw).trans ?_
      rw [linearBudget]
      split
      case isTrue  => exact Nat.le_refl n
      case isFalse => exact Nat.zero_le n
    | inl ho =>
      by_cases hr : f.rootHost.toNat < n ∨ n = 1
      case pos =>
        refine ((ring_budget c hn hr).sent_le ⟨m, ho, rfl⟩ hw).trans ?_
        rw [ringBudget]
        split
        case isTrue h => exact (Cycle.distance_lt h _).le
        case isFalse  => exact Nat.le_refl n
      case neg =>
        have ⟨v, hv, _⟩ := c.numProcess
        have hz : (handle maps f).sent = [] := by
          cases turns_sent ⟨m, ho, rfl⟩ hv with
          | inl he => exact he
          | inr he =>
            cases relay_cases maps f ((f.dstHost + 1#32) % v.setWidth 32) with
            | inl hz => exact he.right.trans hz
            | inr hi =>
              have ⟨_, info, hi, _⟩ := hi
              rw [c.setWidth_eq hv] at hi
              exact absurd ⟨m, ho, by omega, by omega, he.left, by rw [hi]; rfl⟩ hc
        rw [World.sent_nil hz hw]
        exact Nat.zero_le n

theorem transmissions_bounded_iff_three :
    let f := Frame.ofMessage 5000 5001 (Header.encode ⟨0, 0, 1, 3, 2, 1, 1, 0, 0⟩ ++ [0])
    (∀ w, World.Reaches (handle (.filled 3)) { flight := [f] } w → w.sent.length ≤ 3) ↔ ¬Circles (.filled 3) 3 f := by
  intro f
  have hb : f.Bcast .bcastRing 0 0 1 := Frame.ofMessage_bcast ⟨0, 0, 1, 3, 2, 1, 1, 0, 0⟩ .bcastRing (by decide) [0]
  exact transmissions_bounded_iff (by decide) (Maps.filled_complete (by decide)) Frame.ofMessage_udp hb.mpi.fits
    hb.mpi.saddr (.inl hb.opcode)

-- The root is a rank of an earlier run.
theorem transmissions_unbounded_two :
    ¬∀ (n : Nat) (maps : Maps) (f : Frame), 1 ≤ n → maps.Complete n → f.Udp → f.payload + mpiHeader ≤ f.len →
      f.saddr = bpfHtonl grecaleIp → f.opcode = some .bcastRing ∨ f.opcode = some .bcastLinear →
      ∀ w, World.Reaches (handle maps) { flight := [f] } w → w.sent.length ≤ n := by
  intro h
  let f := Frame.ofMessage 5001 5000 (Header.encode ⟨5, 1, 0, 3, 2, 1, 1, 0, 0⟩ ++ [0])
  have hb : f.Bcast .bcastRing 5 1 0 :=
    Frame.ofMessage_bcast ⟨5, 1, 0, 3, 2, 1, 1, 0, 0⟩ .bcastRing (by decide) [0]
  have hc : Maps.Complete (.filled 2) 2 := Maps.filled_complete (by decide)
  have hd : f.dstHost = 0#32 := BitVec.eq_of_toNat_eq hb.dst
  have hf : Circles (.filled 2) 2 f := {
    live   := hb.mpi.live
    opcode := hb.opcode
    two    := by decide
    root   := by rw [hb.root]; decide
    dst    := hb.root_ne_dst (by decide)
    lookup := by rw [hd]; decide }
  have ⟨w, _, hw, hk, _⟩ := hf.endless hc 3
  have := h 2 _ f (by decide) hc Frame.ofMessage_udp hb.mpi.fits hb.mpi.saddr (.inl hb.opcode) w hw
  omega

end Xdp
end Kernel

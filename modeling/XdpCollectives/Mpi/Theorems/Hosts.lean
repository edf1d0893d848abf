import XdpCollectives.Kernel.Theorems.Hosts
import XdpCollectives.Mpi.Hosts
import XdpCollectives.Mpi.Theorems.Forwarding

-- The other host sends back all that it gets.
namespace Mpi

open Memory Wire Process

variable {p : Kernel.Program} {maps : Kernel.Maps} {n : Nat} {late : Nat → Bool} {dest : Nat} {d : Bytes}

theorem Outgoing.bound {r : Nat} {f : Kernel.Frame} (ho : Outgoing dest d f) (hd : Posted p n r dest d) : f.Bound := by
  obtain ⟨h, data, rfl, _⟩ := hd
  obtain ⟨hf, hm⟩ := Kernel.Frame.message_starts ho.message
  have hm : f.data f.payload = 77#8 := by
    simp only [Mem.read, magic, List.cons.injEq] at hm
    exact hm.left
  exact ⟨ho.proto, ho.ihl, ho.protocol, hf, by simp [Kernel.Frame.magicRejected, hm], ho.saddr, ho.daddr⟩

theorem Outgoing.wrapped {r : Nat} {f : Kernel.Frame} (ho : Outgoing dest d f) (hd : Posted p n r dest d) :
    Wrapped dest d f.swapMac.swapIp := by
  have hl := (ho.bound hd).live (ho.bound hd).reflected
  have ha := (ho.bound hd).reflected.agree
  obtain ⟨h, data, rfl, _⟩ := hd
  obtain ⟨_, hm⟩ := Kernel.Frame.message_starts ho.message
  have hu := Kernel.Frame.le_udph ho.ihl
  refine ⟨⟨hl.proto, hl.ihl, hl.protocol, hl.fits, ?_, hl.saddr⟩, (ha.udpDest ho.ihl).trans ho.port, ?_⟩
  · rw [ha.payload, ha.read (by simp only [Kernel.Frame.payload]; omega)]
    exact hm
  · rw [ha.message ho.ihl]
    exact ho.message

-- A packet is as good as the one that is sent back for it.
theorem Wrapped.outgoing {f : Kernel.Frame} (hf : Wrapped dest d f)
    (hd : f.daddr = Kernel.bpfHtonl Kernel.maestraleIp) : Outgoing dest d f.swapMac.swapIp := by
  have ha : Kernel.Frame.Agree f f.swapMac.swapIp := Kernel.Frame.swapMac_swapIp_agree
  exact {
    proto    := ha.hProto.trans hf.mpi.proto
    ihl      := ha.ihl ▸ hf.mpi.ihl
    protocol := ha.protocol.trans hf.mpi.protocol
    saddr    := by
      rw [Kernel.Frame.swapIp_saddr, Kernel.Frame.daddr, Kernel.Frame.swapMac_load (by decide)]
      exact hd
    daddr    := by
      rw [Kernel.Frame.swapIp_daddr, Kernel.Frame.saddr, Kernel.Frame.swapMac_load (by decide)]
      exact hf.mpi.saddr
    port     := (ha.udpDest hf.mpi.ihl).trans hf.port
    message  := (ha.message hf.mpi.ihl).trans hf.message }

theorem Posted.exists_outgoing {r : Nat} (hd : Posted p n r dest d) : ∃ f, Outgoing dest d f := by
  obtain ⟨h, data, rfl, _, rfl, _⟩ := hd
  obtain ⟨hf, _, hm⟩ := @Kernel.Frame.ofMessage_holds (h, data) 0 _ rfl
  exact ⟨_, Wrapped.outgoing ⟨hf, Kernel.Frame.ofMessage_udpDest, hm⟩ Kernel.Frame.ofMessage_daddr⟩

-- With nothing more to happen, nothing is on its way.
theorem Hosts.calm {s : Hosts} {handle : Kernel.Frame → Kernel.Outcome} (hst : ∀ t, ¬Step n late handle s t) :
    s.there = [] ∧ s.back = [] := by
  constructor
  case left =>
    by_contra hne
    obtain ⟨f, r, hf⟩ := List.exists_cons_of_ne_nil hne
    exact hst _ (.mirror (l := []) hf)
  case right =>
    by_contra hne
    obtain ⟨f, r, hf⟩ := List.exists_cons_of_ne_nil hne
    exact hst _ (.arrive (l := []) hf)

-- The other host is left out: what goes there is as good as what comes back of it.
structure Hosts.Abbreviates (c : Cluster) (s : Hosts) : Prop where
  net    : c.net = s.net
  flight : c.flight.Perm (s.back ++ s.there.flatMap Kernel.Frame.returned)
  live   : ∀ f ∈ s.back, f.Live
  bound  : ∀ t ∈ s.there, t.Bound

namespace Hosts.Abbreviates

variable {c : Cluster} {s s' : Hosts} {l r : List Kernel.Frame} {f : Kernel.Frame}

-- All that goes to the other host comes back.
theorem exists_reflected {ts : List Kernel.Frame} (h : ∀ t ∈ ts, t.Bound) :
    List.Forall₂ Kernel.Frame.Reflected ts (ts.flatMap Kernel.Frame.returned) := by
  induction ts with
  | nil          => exact .nil
  | cons t ts hi =>
    obtain ⟨ht, hts⟩ := List.forall_mem_cons.mp h
    rw [List.flatMap_cons, ht.returned]
    exact .cons ht.reflected (hi hts)

theorem mirror (h : Abbreviates c s) (there : s.there = l ++ f :: r) :
    Abbreviates c { s with there := l ++ r, back := s.back ++ f.returned } where
  net    := h.net
  flight := by
    refine h.flight.trans ?_
    rw [there, List.flatMap_append, List.flatMap_cons, List.flatMap_append, List.append_assoc]
    exact (List.perm_append_comm_assoc ..).append_left _
  live   := by
    have hf : f.Bound := h.bound f (by simp [there])
    intro g hg
    rcases List.mem_append.mp hg with hg | hg
    · exact h.live g hg
    · rw [hf.returned] at hg
      obtain rfl := List.mem_singleton.mp hg
      exact hf.live hf.reflected
  bound  := by
    intro t ht
    refine h.bound t ?_
    rw [there]
    simp only [List.mem_append, List.mem_cons] at ht ⊢
    tauto

theorem arrive (h : Abbreviates c s) (hm : maps.Hosted) (back : s.back = l ++ f :: r) :
    ∃ l' r' bs, c.flight = l' ++ f :: r' ∧ List.Forall₂ Kernel.Frame.Reflected (p.handle maps f).sent bs ∧
      Abbreviates { net := Cluster.hand n c.net (p.handle maps f).handed, flight := l' ++ r' ++ bs }
        { net   := Cluster.hand n s.net (p.handle maps f).handed
          there := s.there ++ (p.handle maps f).sent
          back  := l ++ r } := by
  have hlive : f.Live := h.live f (by simp [back])
  have hsent : ∀ t ∈ (p.handle maps f).sent, t.Bound := fun t ht => hlive.bound hm (p.sent_readdressed ht)
  have hmem : f ∈ c.flight := h.flight.mem_iff.mpr (by simp [back])
  obtain ⟨l', r', hf⟩ := List.append_of_mem hmem
  refine ⟨l', r', _, hf, exists_reflected hsent, ?_⟩
  have hflight := h.flight
  rw [hf, back] at hflight
  have hperm : (l' ++ r').Perm (l ++ r ++ s.there.flatMap Kernel.Frame.returned) := by
    refine List.Perm.cons_inv (a := f) ?_
    refine List.perm_middle.symm.trans (hflight.trans ?_)
    rw [List.append_assoc, List.append_assoc]
    exact List.perm_middle
  exact {
    net    := by rw [h.net]
    flight := by
      rw [List.flatMap_append, ← List.append_assoc]
      exact hperm.append_right _
    live   := by
      intro g hg
      refine h.live g ?_
      rw [back]
      simp only [List.mem_append, List.mem_cons] at hg ⊢
      tauto
    bound  := by
      intro t ht
      exact (List.mem_append.mp ht).elim (h.bound t) (hsent t) }

theorem post (h : Abbreviates c s) {src : Nat} (hd : Posted p n src dest d) (ho : Outgoing dest d f) (net : Net Note) :
    Abbreviates { net, flight := c.flight ++ [f.swapMac.swapIp] } { s with net, there := s.there ++ [f] } where
  net    := rfl
  flight := by
    rw [List.flatMap_append, List.flatMap_singleton, (ho.bound hd).returned, ← List.append_assoc]
    exact h.flight.append_right _
  live   := h.live
  bound  := by
    intro t ht
    rcases List.mem_append.mp ht with ht | ht
    · exact h.bound t ht
    · exact List.mem_singleton.mp ht ▸ ho.bound hd

-- A step of the two hosts is one without the other host, or nothing at all.
theorem step (h : Abbreviates c s) (hm : maps.Hosted)
    (hposted : ∀ r dest d k, s.net.prog r = .sendto dest d k → Posted p n r dest d)
    (hs : Step n late (p.handle maps) s s') :
    ∃ c', Abbreviates c' s' ∧ (c' = c ∨ Cluster.Step n late (p.handle maps) c c') := by
  cases hs with
  | @act l net first quiet step =>
    rw [← h.net] at quiet step
    exact ⟨{ c with net }, ⟨rfl, h.flight, h.live, h.bound⟩, .inr (.act first quiet step)⟩
  | post posted step outgoing =>
    obtain ⟨q, k, _, hq⟩ := Cluster.posts_some posted
    have hd := hposted q _ _ k hq
    rw [← h.net] at posted step
    exact ⟨_, h.post hd outgoing _, .inr (.post posted step (outgoing.wrapped hd))⟩
  | mirror there => exact ⟨c, h.mirror there, .inl rfl⟩
  | arrive back  =>
    obtain ⟨l', r', bs, flight, reflected, h'⟩ := h.arrive hm back
    exact ⟨_, h', .inr (.arrive flight reflected)⟩

theorem stuck (h : Abbreviates c s) {handle : Kernel.Frame → Kernel.Outcome}
    (hposted : ∀ r dest d k, s.net.prog r = .sendto dest d k → Posted p n r dest d)
    (hst : ∀ s', ¬Step n late handle s s') (c' : Cluster) : ¬Cluster.Step n late handle c c' := by
  obtain ⟨hthere, hback⟩ := Hosts.calm hst
  have hflight : c.flight = [] := by
    have hf := h.flight
    rw [hthere, hback] at hf
    exact hf.eq_nil
  intro hstep
  cases hstep with
  | act first quiet step =>
    rw [h.net] at quiet step
    exact hst _ (.act first quiet step)
  | post posted step _   =>
    obtain ⟨q, k, _, hq⟩ := Cluster.posts_some posted
    obtain ⟨f, hf⟩ := (hposted q _ _ k (h.net ▸ hq)).exists_outgoing
    rw [h.net] at posted step
    exact hst _ (.post posted step hf)
  | arrive flight _      =>
    rw [hflight] at flight
    simp at flight

-- The other host can send back all that is on its way there.
theorem mirror_all (n : Nat) (late : Nat → Bool) (handle : Kernel.Frame → Kernel.Outcome) (net : Net Note)
    (there back : List Kernel.Frame) : Reaches n late handle ⟨net, there, back⟩
      ⟨net, [], back ++ there.flatMap Kernel.Frame.returned⟩ := by
  induction there generalizing back with
  | nil =>
    rw [List.flatMap_nil, List.append_nil]
  | cons t ts hi =>
    have hs : Step n late handle ⟨net, t :: ts, back⟩ ⟨net, ts, back ++ t.returned⟩ := .mirror (l := []) rfl
    rw [List.flatMap_cons, ← List.append_assoc]
    exact .head hs (hi _)

section Runs

variable {Y : Kernel.Frame → List (BitVec 16 × Bytes) → Prop} {garbage : Nat → Mem} {bufs : Nat → Nat → Mem}
  {calls : List Call} (ha : Kernel.World.Accounts (p.handle maps) Y) (hm : maps.Hosted)
include ha hm

theorem reaches (hd : Delivers p n Y) (hb : basePort + n ≤ 2 ^ 16)
    (h : Reaches n late (p.handle maps) ⟨network n garbage bufs calls, [], []⟩ s) :
    ∃ c, Abbreviates c s ∧ Cluster.Reaches n late (p.handle maps) ⟨network n garbage bufs calls, []⟩ c := by
  induction h
  case refl => exact ⟨_, ⟨rfl, .refl _, by simp, by simp⟩, .refl⟩
  case tail s s' _ hstep hi =>
    obtain ⟨c, h, hc⟩ := hi
    obtain ⟨u, _, hr⟩ := Cluster.Shows.reaches ha hd hb hc
    have hposted r dest d k (hk : s.net.prog r = .sendto dest d k) : Posted p n r dest d :=
      network_posts (by omega) hr (h.net ▸ hk)
    obtain ⟨c', h', rfl | hc'⟩ := h.step hm hposted hstep
    · exact ⟨_, h', hc⟩
    · exact ⟨c', h', hc.tail hc'⟩

theorem drains {u : Nat → List Bytes} (h : Abbreviates c s) (hs : c.Shows n Y u) :
    ∃ s', Reaches n late (p.handle maps) s s' ∧ s'.there = [] ∧ s'.back = [] ∧ s'.over u = s.over u ∧
      ∀ r, (u r).Perm (s'.net.udp r) := by
  obtain ⟨yss, hy, hu⟩ := hs
  induction hk : yss.flatten.length using Nat.strong_induction_on generalizing c s yss with
  | _ k hi =>
    let s₁ : Hosts := ⟨s.net, [], s.back ++ s.there.flatMap Kernel.Frame.returned⟩
    have hs₁ : Reaches n late (p.handle maps) s s₁ := mirror_all ..
    have h₁ : Abbreviates c s₁ := {
      net    := h.net
      flight := by
        rw [List.flatMap_nil, List.append_nil]
        exact h.flight
      live   := by
        intro f hf
        rcases List.mem_append.mp hf with hf | hf
        · exact h.live f hf
        · obtain ⟨t, ht, hf⟩ := List.mem_flatMap.mp hf
          rw [(h.bound t ht).returned] at hf
          exact List.mem_singleton.mp hf ▸ (h.bound t ht).live (h.bound t ht).reflected
      bound  := by simp [s₁] }
    cases hb : s₁.back with
    | nil =>
      refine ⟨s₁, hs₁, rfl, hb, rfl, ?_⟩
      have hf := h₁.flight
      rw [hb, List.flatMap_nil, List.nil_append] at hf
      have hc := Cluster.Shows.calm ⟨yss, hy, hu⟩ hf.eq_nil
      rwa [h.net] at hc
    | cons f r =>
      obtain ⟨l', r', bs, flight, reflected, h₂⟩ := h₁.arrive hm (l := []) hb
      obtain ⟨hne, yss', hy', hp⟩ := ha.arrives (flight ▸ hy) reflected
      have hlt := hp.length_eq
      have hpos := List.length_pos_of_ne_nil hne
      rw [List.length_append, List.length_map] at hlt
      have hu' q : (u q).Perm ((Cluster.hand n c.net (p.handle maps f).handed).udp q ++ inbox n q yss'.flatten) := by
        refine (hu q).trans ?_
        rw [Cluster.hand, List.append_assoc, ← inbox_append]
        exact (inbox_perm hp.symm n q).append_left _
      obtain ⟨s', hr, ht, hb', ho, hc⟩ := hi _ (by omega) h₂ yss' hy' hu' rfl
      exact ⟨s', hs₁.trans (.head (.arrive (l := []) hb) hr), ht, hb', ho, hc⟩

end Runs

end Hosts.Abbreviates

-- With the other host, nothing is left to assume of the packets that come back.
theorem hosts_refine (p : Kernel.Program) (late : Nat → Bool) (hc : maps.Complete n) (hp : maps.Ports n)
    (hm : maps.Hosted) (hb : basePort + n ≤ 2 ^ 16) {garbage : Nat → Mem} {bufs : Nat → Nat → Mem} {calls : List Call}
    {s : Hosts} (h : Hosts.Reaches n late (p.handle maps) ⟨network n garbage bufs calls, [], []⟩ s) :
    ∃ u, (network n garbage bufs calls).Reaches (forwarding p n late) (s.over u) ∧
      (s.there = [] → s.back = [] → ∀ r, (u r).Perm (s.net.udp r)) ∧
      ((∀ s', ¬Hosts.Step n late (p.handle maps) s s') → ∀ t, ¬(s.over u).Steps (forwarding p n late) t) ∧
      ∃ s', Hosts.Reaches n late (p.handle maps) s s' ∧ s'.there = [] ∧ s'.back = [] ∧ s'.over u = s.over u ∧
        ∀ r, (u r).Perm (s'.net.udp r) := by
  obtain ⟨Y, ha, hd⟩ := Kernel.messages_accounts p hc hp
  obtain ⟨c, hcs, hcr⟩ := Hosts.Abbreviates.reaches ha hm hd hb h
  obtain ⟨u, hs, hr⟩ := Cluster.Shows.reaches ha hd hb hcr
  have hover : c.over u = s.over u := by rw [Cluster.over, Hosts.over, hcs.net]
  have hposted r dest d k (hk : s.net.prog r = .sendto dest d k) : Posted p n r dest d :=
    network_posts (by omega) hr (hcs.net ▸ hk)
  rw [hover] at hr
  refine ⟨u, hr, fun ht hb => ?_, fun hst t => ?_, hcs.drains ha hm hs⟩
  · have hf := hcs.flight
    rw [ht, hb, List.flatMap_nil, List.append_nil] at hf
    have hcalm := hs.calm hf.eq_nil
    rwa [hcs.net] at hcalm
  · rw [← hover]
    exact hs.stuck (hcs.net ▸ hposted) (hcs.stuck hposted hst) t

-- The datagram of the root is on its way to the other host.
theorem hosts_refine_two :
    let calls : List Call := [.bcast .ringXdpEager 1 .char 0]
    let s := network 2 (fun _ _ => 0) (fun _ _ _ => 0) calls
    let handle := Kernel.Program.tc.handle (.filled 2)
    ∃ t, Hosts.Reaches 2 (fun _ => false) handle ⟨s, [], []⟩ t ∧ t.there ≠ [] ∧
      ∃ u, s.Reaches (forwarding .tc 2 fun _ => false) (t.over u) ∧
        (t.there = [] → t.back = [] → ∀ r, (u r).Perm (t.net.udp r)) ∧
        ((∀ t', ¬Hosts.Step 2 (fun _ => false) handle t t') →
          ∀ s, ¬(t.over u).Steps (forwarding .tc 2 fun _ => false) s) ∧
        ∃ t', Hosts.Reaches 2 (fun _ => false) handle t t' ∧ t'.there = [] ∧ t'.back = [] ∧ t'.over u = t.over u ∧
          ∀ r, (u r).Perm (t'.net.udp r) := by
  intro calls s handle
  obtain ⟨s₁, h₁, hq⟩ : ∃ s₁, s.step (Cluster.alone fun _ => false) (.run 0) = some s₁ ∧
      Cluster.posts s (.run 0) = none := ⟨_, rfl, rfl⟩
  obtain ⟨dest, d, k, hk⟩ : ∃ dest d k, s₁.prog 0 = .sendto dest d k := by
    cases h₁
    exact ⟨_, _, _, rfl⟩
  obtain ⟨f, hf⟩ := (network_posts (p := .tc) (by decide) (.single ⟨_, h₁⟩ : s.Reaches _ s₁) hk).exists_outgoing
  have hp : Cluster.posts s₁ (.run 0) = some (dest, d) := by rw [Cluster.posts, hk]
  have hr : Hosts.Reaches 2 (fun _ => false) handle ⟨s, [], []⟩ ⟨_, [] ++ [f], []⟩ :=
    .tail (.single (.act (l := .run 0) trivial hq h₁)) (.post hp (Net.moves_iff.mpr (.sendto hk)) hf)
  exact ⟨_, hr, List.cons_ne_nil _ _, hosts_refine .tc (fun _ => false) (Kernel.Maps.filled_complete (by decide))
    (Kernel.Maps.filled_ports (by decide)) (Kernel.Maps.filled_hosted 2) (by decide) hr⟩

end Mpi

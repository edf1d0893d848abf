import XdpCollectives.Kernel.Theorems.Ring
import XdpCollectives.Kernel.Theorems.Linear

open Memory Wire

namespace Kernel

variable {maps : Maps} {f g : Frame} {n root src dst : Nat} {w w' : World} {p : Program}

-- How often the UDP socket of a rank was handed a packet for that rank.
def World.deliveries (w : World) (r : Nat) : Nat :=
  w.handed.countP fun f => f.udpDest = BitVec.ofNat 16 (basePort + r) ∧ f.dstHost.toNat = r

theorem World.deliveries_addressed {w : World} (hf : f.Addressed) (hg : g.Addressed)
    (he : g.dstHost = f.dstHost) (hs : [f, g].Sublist w.handed) : 2 ≤ w.deliveries f.dstHost.toNat := by
  rw [Frame.Addressed] at hf hg
  rw [he] at hg
  have hc := hs.countP_le (p := fun g => g.udpDest = BitVec.ofNat 16 (basePort + f.dstHost.toNat) ∧
    g.dstHost.toNat = f.dstHost.toNat)
  rw [List.countP_cons_of_pos (by simpa [he] using hf), List.countP_cons_of_pos (by simpa [he] using hg)] at hc
  exact hc

namespace Ring

theorem addressed (hn : 2 ≤ n) (hr : root < n) (c : maps.Complete n) (hp : maps.Ports n)
    (h : f.Bcast .bcastRing root root ((root + 1) % n)) (ha : f.Addressed)
    (s : World.Reaches (p.handle maps) { flight := [f] } w) : ∀ g ∈ w.flight, g.Addressed := by
  induction s
  case refl => simpa using ha
  case tail w _ s s' hi =>
    have ⟨_, g, next, bs, _, hb, hx, _, reflected, hw⟩ :=
      arrival (p := p) hn hr c (reaches hn hr c h s) s'
    subst hw
    intro b hb'
    have ⟨t, ht, hbt⟩ := World.exists_reflected reflected hb'
    have hd : (root + 1 + w.arrived.length) % n < n := Nat.mod_lt _ (by omega)
    exact ((hb.relay_sent ht hbt).right.right hd (hx ▸ Nat.mod_lt _ (by omega)) hp).right

-- Every number of turns is reached.
theorem exists_turn (hn : 2 ≤ n) (hr : root < n) (c : maps.Complete n)
    (h : f.Bcast .bcastRing root root ((root + 1) % n)) (hk : k ≤ n - 1) :
    ∃ w, World.Reaches (p.handle maps) { flight := [f] } w ∧ Ring n root k w := by
  induction k
  case zero => exact ⟨_, .refl, start hn hr h⟩
  case succ k hi =>
    have ⟨w, s, hw⟩ := hi (by omega)
    have hf : w.flight ≠ [] := fun hf => by
      have := hw.flight_nil_iff.mp hf
      omega
    have ⟨w', s'⟩ : ∃ w', World.Step (p.handle maps) w w' := World.Step.exists_of_flight hf
    exact ⟨w', s.tail s', step hn hr c hw s'⟩

-- The last rank is handed the original and the copy that has nowhere to go.
theorem last_delivered_twice (hn : 2 ≤ n) (hr : root < n) (c : maps.Complete n) (hp : maps.Ports n)
    (h : f.Bcast .bcastRing root root ((root + 1) % n)) (ha : f.Addressed) :
    ∃ w, World.Reaches (p.handle maps) { flight := [f] } w ∧ ∃ r < n, 2 ≤ w.deliveries r := by
  have ⟨w, s, hw⟩ := exists_turn hn hr c h (k := n - 2) (p := p) (by omega)
  have hf : w.flight ≠ [] := fun hf => by
    have := hw.flight_nil_iff.mp hf
    omega
  have ⟨w', s'⟩ : ∃ w', World.Step (p.handle maps) w w' := World.Step.exists_of_flight hf
  have ⟨_, g, next, bs, hg, hb, hx, _, _, hw'⟩ := arrival hn hr c hw s'
  have hd : (root + 1 + (n - 2)) % n < n := Nat.mod_lt _ (by omega)
  have hz := hb.relay_stop c hd (hx ▸ Nat.mod_lt _ (by omega)) (.inl <| hx.trans <| last_turn hr (by omega))
  have hga := addressed hn hr c hp h ha s g (by simp [hg])
  refine ⟨w', s.tail s', _, hb.dst ▸ hd, World.deliveries_addressed hga hga rfl ?_⟩
  rw [hw', hz, List.append_assoc]
  exact List.sublist_append_right ..

end Ring

-- A step from the start.
theorem World.first (p : Program) (maps : Maps) (f : Frame) :
    ∃ w, Reaches (p.handle maps) { flight := [f] } w ∧ w.handed = (p.handle maps f).handed ∧
      List.Forall₂ Frame.Reflected (p.handle maps f).sent w.flight := by
  have ⟨w, s⟩ : ∃ w, Step (p.handle maps) { flight := [f] } w := Step.exists_of_flight (by simp)
  cases s with | @arrive l r g bs flight reflected =>
  obtain ⟨rfl, rfl, rfl⟩ : l = [] ∧ r = [] ∧ g = f := by
    cases l <;> simp_all
  exact ⟨_, .single (.arrive (l := []) rfl reflected), rfl, reflected⟩

-- The copy whose number is the number of ranks has its own rank to go to, for which there is no
-- entry in `proc_to_address`.
theorem Xdp.linear_delivered_twice (hn : 2 ≤ n) (c : maps.Complete n) (hd : dst < n) (hr : dst ≠ root)
    (h : f.Bcast .bcastLinear root root dst) (ha : f.Addressed) :
    ∃ w, World.Reaches (Xdp.handle maps) { flight := [f] } w ∧ ∃ r < n, 2 ≤ w.deliveries r := by
  have ⟨w, s, hw, _⟩ := World.first .xdp maps f
  have ⟨v, hv, _⟩ := c.numProcess
  have hs : f.rootHost = f.srcHost := h.root_eq_iff.mpr h.src
  have hd' : f.dstHost.toNat < n := by rwa [h.dst]
  have hx := c.next_toNat hv hd' (k := n) (Nat.le_refl n)
  rw [h.dst, Nat.add_mod_right, Nat.mod_eq_of_lt hd] at hx
  have hz := h.relay_stop c hd (hx ▸ hd) (.inr hx)
  refine ⟨w, s, _, hd', World.deliveries_addressed ha ha rfl ?_⟩
  have hh := handle_linear h.mpi.live hv h.opcode (h.root_ne_dst hr) hs
  rw [c.setWidth hv] at hh
  rw [hw, Program.handle, hh]
  apply List.Sublist.cons_cons
  rw [List.singleton_sublist]
  refine List.mem_flatMap.mpr ⟨_, List.mem_map.mpr ⟨n - 1, List.mem_range.mpr (by omega), rfl⟩, ?_⟩
  rw [Nat.sub_add_cancel (by omega), hz]
  exact List.mem_singleton_self f

-- The packet that was rewritten for the next rank goes on to the local stack, and its clone gets
-- there too.
theorem Tc.linear_delivered_twice (hn : 2 ≤ n) (hr : root < n) (c : maps.Complete n) (hp : maps.Ports n)
    (h : f.Bcast .bcastLinear root root ((root + 1) % n)) (ha : f.Addressed) :
    ∃ w, World.Reaches (Tc.handle maps) { flight := [f] } w ∧ ∃ r < n, 2 ≤ w.deliveries r := by
  obtain ⟨w, s, hw, hf⟩ := World.first .tc maps f
  obtain ⟨v, hv, _⟩ := c.numProcess
  have hd : (root + 1) % n < n := Nat.mod_lt _ (by omega)
  have hdr : (root + 1) % n ≠ root := Cycle.add_mod_ne hr (by omega) (by omega)
  have hd' : f.dstHost.toNat < n := by rwa [h.dst]
  have hx := c.next_toNat hv hd' (k := 1) (by omega)
  rw [h.dst] at hx
  have hh := handle_linear h.mpi.live hv h.opcode (h.root_ne_dst hdr) (c.one_lt hv hn)
  by_cases hz : ((root + 1) % n + 1) % n = root
  case pos =>
    have he := h.root_eq_iff.mpr (hx.trans hz)
    rw [linear, if_pos he] at hh
    refine ⟨w, s, _, hd', World.deliveries_addressed ha ha rfl ?_⟩
    rw [hw, Program.handle, hh]
    exact List.Sublist.refl _
  case neg =>
    have he := mt h.root_eq_iff.mp (hx ▸ hz)
    have hx' := hx ▸ Nat.mod_lt ((root + 1) % n + 1) (y := n) (by omega)
    have hnd : ((root + 1) % n + 1) % n ≠ (root + 1) % n := Cycle.add_mod_ne hd (by omega) (by omega)
    obtain ⟨info, hi, ho⟩ := h.relay_send c hd hx' (hx ▸ hz) (hx ▸ hnd)
    simp only [linear, if_neg he, hi] at hh
    rw [Program.handle, hh] at hf hw
    obtain ⟨b, hb₁, hf⟩ : ∃ b, Frame.Reflected _ b ∧ w.flight = [b] := by
      simpa [Outcome.append, List.forall₂_cons_left_iff] using hf
    have ht : f.swapMac.readdress f.dstHost ((f.dstHost + 1#32) % v.setWidth 32) info ∈
        (relay maps f ((f.dstHost + 1#32) % v.setWidth 32)).sent := by
      rw [ho]
      exact List.mem_singleton_self _
    obtain ⟨hb, hgd, hga⟩ := h.relay_sent (n := n) ht hb₁
    obtain ⟨hga, hba⟩ := hga hd hx' hp
    rw [hx] at hb
    have hb' := handle_linear hb.mpi.live hv hb.opcode (hb.root_ne_dst hz) (c.one_lt hv hn)
    obtain ⟨w', s'⟩ : ∃ w', World.Step (handle maps) w w' :=
      World.Step.exists_of_flight (by simp [hf])
    refine ⟨w', s.tail s', _, ?_, World.deliveries_addressed hga hba ?_ ?_⟩
    · rwa [hgd]
    · rw [hgd, ← BitVec.toNat_inj, hb.dst, hx]
    · cases s' with | @arrive l r g bs flight _ =>
      obtain ⟨rfl, rfl, rfl⟩ : l = [] ∧ r = [] ∧ g = b := by
        rw [hf] at flight
        cases l <;> simp_all
      rw [hw, hb']
      simp only [Outcome.append, List.singleton_append]
      exact .cons _ (.cons_cons _ (.cons_cons _ (List.nil_sublist _)))

-- Whatever the program, the opcode and the number of ranks, some rank is handed the datagram twice.
theorem delivered_twice (p : Program) (hn : 2 ≤ n) (hr : root < n) (c : maps.Complete n)
    (hp : maps.Ports n) (ho : op = .bcastRing ∨ op = .bcastLinear)
    (h : f.Bcast op root root ((root + 1) % n)) (ha : f.Addressed) :
    ¬∀ w, World.Reaches (p.handle maps) { flight := [f] } w → ∀ r < n, w.deliveries r ≤ 1 := by
  have hd : (root + 1) % n < n := Nat.mod_lt _ (by omega)
  have hdr : (root + 1) % n ≠ root := Cycle.add_mod_ne hr (by omega) (by omega)
  have ht : ∃ w, World.Reaches (p.handle maps) { flight := [f] } w ∧ ∃ r < n, 2 ≤ w.deliveries r := by
    cases ho
    case inl ho =>
      subst ho
      exact Ring.last_delivered_twice hn hr c hp h ha
    case inr ho =>
      subst ho
      cases p
      case xdp => exact Xdp.linear_delivered_twice hn c hd hdr h ha
      case tc  => exact Tc.linear_delivered_twice hn hr c hp h ha
  intro hw
  have ⟨w, s, r, hr, h₂⟩ := ht
  have := hw w s r hr
  omega

theorem delivered_twice_two :
    let f := Frame.ofMessage 5000 5001 (Header.encode ⟨0, 0, 1, 3, 2, 1, 1, 0, 0⟩ ++ [0])
    ¬∀ w, World.Reaches (Xdp.handle (.filled 2)) { flight := [f] } w → ∀ r < 2, w.deliveries r ≤ 1 :=
  delivered_twice .xdp (by decide) (by decide) (Maps.filled_complete (by decide))
    (Maps.filled_ports (by decide)) (.inl rfl)
    (Frame.ofMessage_bcast ⟨0, 0, 1, 3, 2, 1, 1, 0, 0⟩ .bcastRing (by decide) [0])
    (Frame.ofMessage_addressed ⟨0, 0, 1, 3, 2, 1, 1, 0, 0⟩ _ [0] rfl)

-- Rank 0 broadcasts one byte to rank 1, which is the only other rank.
theorem deliveries_two :
    let f := Frame.ofMessage 5000 5001 (Header.encode ⟨0, 0, 1, 3, 2, 1, 1, 0, 0⟩ ++ [0])
    ∃ w, World.Reaches (Program.handle .xdp (.filled 2)) { flight := [f] } w ∧
      ∃ r < 2, 2 ≤ w.deliveries r :=
  Ring.last_delivered_twice (by decide) (by decide) (Maps.filled_complete (by decide))
    (Maps.filled_ports (by decide))
    (Frame.ofMessage_bcast ⟨0, 0, 1, 3, 2, 1, 1, 0, 0⟩ .bcastRing (by decide) [0])
    (Frame.ofMessage_addressed ⟨0, 0, 1, 3, 2, 1, 1, 0, 0⟩ _ [0] rfl)

end Kernel

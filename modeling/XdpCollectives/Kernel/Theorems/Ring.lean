import XdpCollectives.Kernel.Arrival

open Memory Wire

namespace Kernel

variable {maps : Maps} {f : Frame} {n root : Nat} {w w' : World} {p : Program}

-- The ranks of a ring in the order of their turns: `root + 1`, `root + 2`, ... modulo `n`.
def ringOrder (n root : Nat) : List Nat :=
  (List.range (n - 1)).map fun i => (root + 1 + i) % n

theorem ringOrder_length : (ringOrder n root).length = n - 1 := by
  simp [ringOrder]

theorem ringOrder_perm (hr : root < n) : (root :: ringOrder n root).Perm (List.range n) := by
  have he : (List.range n).map (fun k => (root + k) % n) = root :: ringOrder n root := by
    rw [show List.range n = 0 :: (List.range (n - 1)).map Nat.succ by
      rw [← List.range_succ_eq_map, Nat.sub_add_cancel (by omega)]]
    simp [Nat.mod_eq_of_lt hr, ringOrder, Function.comp_def, Nat.add_assoc, Nat.add_comm 1]
  exact he ▸ Cycle.map_add_mod_perm root n

theorem ringOrder_nodup (hr : root < n) : (ringOrder n root).Nodup :=
  ((ringOrder_perm hr).nodup_iff.mpr List.nodup_range).of_cons

theorem mem_ringOrder (hr : root < n) : d ∈ ringOrder n root ↔ d < n ∧ d ≠ root := by
  have hp := ringOrder_perm hr
  have hd : (root :: ringOrder n root).Nodup := hp.nodup_iff.mpr List.nodup_range
  have hm := hp.mem_iff (a := d)
  simp only [List.mem_cons, List.mem_range] at hm
  constructor
  case mp  => exact fun h => ⟨hm.mp (.inr h), fun he => (List.nodup_cons.mp hd).left (he ▸ h)⟩
  case mpr => exact fun ⟨h, he⟩ => (hm.mpr h).resolve_left he

-- The ring after `k` arrivals: the ranks that had their turn, and the packet for the next one.
structure Ring (n root k : Nat) (w : World) : Prop where
  le      : k ≤ n - 1
  arrived : w.arrived.map (·.dstHost.toNat) = (ringOrder n root).take k
  bcast   : ∀ g ∈ w.arrived, ∃ src, g.Bcast .bcastRing root src g.dstHost.toNat
  sent    : w.sent.map (·.dstHost.toNat) = ((ringOrder n root).drop 1).take k
  flight  : if k < n - 1
            then ∃ f, w.flight = [f] ∧ f.Bcast .bcastRing root ((root + k) % n) ((root + 1 + k) % n)
            else w.flight = []

namespace Ring

theorem start (hn : 2 ≤ n) (hr : root < n)
    (h : f.Bcast .bcastRing root root ((root + 1) % n)) : Ring n root 0 { flight := [f] } where
  le      := by omega
  arrived := by simp
  bcast   := by simp
  sent    := by simp
  flight  := by
    rw [if_pos (by omega)]
    exact ⟨f, rfl, by simpa [Nat.mod_eq_of_lt hr] using h⟩

theorem flight_nil_iff (h : Ring n root k w) : w.flight = [] ↔ k = n - 1 := by
  have hl := h.le
  have hf := h.flight
  split at hf
  case isTrue hk =>
    have ⟨_, he, _⟩ := hf
    simp [he]
    omega
  case isFalse hk =>
    simp [hf]
    omega

theorem turn (k : Nat) : (ringOrder n root)[k]? = if k < n - 1 then some ((root + 1 + k) % n) else none := by
  by_cases hk : k < n - 1
  case pos => simp [ringOrder, hk]
  case neg => simp [ringOrder, hk]

theorem take_turn (hk : k < n - 1) :
    (ringOrder n root).take (k + 1) = (ringOrder n root).take k ++ [(root + 1 + k) % n] := by
  rw [List.take_add_one, turn, if_pos hk, Option.toList_some]

theorem turn_ne_root (hr : root < n) (hk : k < n - 1) : (root + 1 + k) % n ≠ root := by
  have := Cycle.add_mod_ne hr (k := k + 1) (by omega) (by omega)
  rwa [show root + 1 + k = root + (k + 1) by omega]

theorem next_turn (k : Nat) : ((root + 1 + k) % n + 1) % n = (root + 1 + (k + 1)) % n := by
  rw [Nat.mod_add_mod]
  rfl

theorem last_turn (hr : root < n) (hk : k + 1 = n - 1) : (root + 1 + (k + 1)) % n = root := by
  rw [show root + 1 + (k + 1) = root + n by omega, Nat.add_mod_right, Nat.mod_eq_of_lt hr]

-- One arrival: the packet for the rank whose turn it is, and what the program does to it.
theorem arrival (hn : 2 ≤ n) (hr : root < n) (c : maps.Complete n) (h : Ring n root k w)
    (s : World.Step (p.handle maps) w w') :
    k < n - 1 ∧ ∃ (f : Frame) (next : BitVec 32) (bs : List Frame),
      w.flight = [f] ∧ f.Bcast .bcastRing root ((root + k) % n) ((root + 1 + k) % n) ∧
      next.toNat = (root + 1 + (k + 1)) % n ∧
      p.handle maps f = Outcome.append { handed := [f] } (relay maps f next) ∧
      List.Forall₂ Frame.Reflected (relay maps f next).sent bs ∧
      w' = {
        flight  := bs
        arrived := w.arrived ++ [f]
        sent    := w.sent ++ (relay maps f next).sent
        handed  := w.handed ++ [f] ++ (relay maps f next).handed } := by
  have hk : k < n - 1 := by
    have := mt h.flight_nil_iff.mpr s.flight_ne_nil
    have := h.le
    omega
  have hf := h.flight
  rw [if_pos hk] at hf
  have ⟨f, he, hb⟩ := hf
  cases s with | @arrive l r f' bs flight reflected =>
  obtain ⟨rfl, rfl, rfl⟩ : l = [] ∧ r = [] ∧ f' = f := by
    rw [flight] at he
    cases l <;> simp_all
  have ⟨v, hv, _⟩ := c.numProcess
  have hd : (root + 1 + k) % n < n := Nat.mod_lt _ (by omega)
  have hd' : f'.dstHost.toNat < n := by rwa [hb.dst]
  have hx := c.next_toNat hv hd' (k := 1) (by omega)
  rw [hb.dst, next_turn] at hx
  have hh := p.handle_ring hb hv (turn_ne_root hr hk)
  have hs : (p.handle maps f').sent = (relay maps f' ((f'.dstHost + 1#32) % v.setWidth 32)).sent := by
    simp only [hh, Outcome.append, List.nil_append]
  rw [hs] at reflected
  refine ⟨hk, f', _, bs, he, hb, hx, hh, reflected, ?_⟩
  rw [hh]
  simp only [Outcome.append, List.nil_append, List.append_assoc]

-- All turns but the last one transmit a packet, to the next rank.
theorem step (hn : 2 ≤ n) (hr : root < n) (c : maps.Complete n) (h : Ring n root k w)
    (s : World.Step (p.handle maps) w w') : Ring n root (k + 1) w' := by
  have ⟨hk, f, next, bs, _, hb, hx, _, reflected, hw⟩ := arrival hn hr c h s
  subst hw
  have hd : (root + 1 + k) % n < n := Nat.mod_lt _ (by omega)
  have hx' : next.toNat < n := hx ▸ Nat.mod_lt _ (by omega)
  have ha : (w.arrived ++ [f]).map (·.dstHost.toNat) = (ringOrder n root).take (k + 1) := by
    rw [List.map_append, h.arrived, take_turn hk, List.map_singleton, hb.dst]
  have hg : ∀ g ∈ w.arrived ++ [f], ∃ src, g.Bcast .bcastRing root src g.dstHost.toNat := by
    intro g hg
    cases List.mem_append.mp hg with
    | inl hg => exact h.bcast g hg
    | inr hg => exact ⟨_, List.mem_singleton.mp hg ▸ hb.dst.symm ▸ hb⟩
  have hs : ((ringOrder n root).drop 1).take (k + 1) =
      ((ringOrder n root).drop 1).take k ++ (if k + 1 < n - 1 then [(root + 1 + (k + 1)) % n] else []) := by
    rw [List.take_add_one, List.getElem?_drop, turn, Nat.add_comm 1 k]
    split <;> rfl
  by_cases hl : k + 1 < n - 1
  case pos =>
    have hne : (root + 1 + (k + 1)) % n ≠ (root + 1 + k) % n := by
      rw [← next_turn]
      exact Cycle.add_mod_ne hd (by omega) (by omega)
    have ⟨info, _, ho⟩ := hb.relay_send c hd hx' (hx ▸ turn_ne_root hr hl) (hx ▸ hne)
    rw [ho] at reflected ⊢
    cases reflected with | @cons _ b _ _ hb₁ hb₂ =>
    cases hb₂
    exact {
      le      := by omega
      arrived := ha
      bcast   := hg
      sent    := by
        rw [hs, if_pos hl, List.map_append, h.sent, List.map_singleton, hb.relayed_dst, hx]
      flight  := by
        rw [if_pos hl]
        refine ⟨b, rfl, ?_⟩
        have := (hb.relayed hb₁).left
        rwa [hx, show root + 1 + k = root + (k + 1) by omega] at this }
  case neg =>
    have ho := hb.relay_stop c hd hx' (.inl <| hx.trans <| last_turn hr (by omega))
    rw [ho] at reflected ⊢
    cases reflected
    exact {
      le      := by omega
      arrived := ha
      bcast   := hg
      sent    := by rw [hs, if_neg hl, List.append_nil, List.append_nil, h.sent]
      flight  := by rw [if_neg hl] }

-- The packet can always go on to the last rank.
theorem finish (hn : 2 ≤ n) (hr : root < n) (c : maps.Complete n) (h : Ring n root k w) :
    ∃ w', World.Reaches (p.handle maps) w w' ∧ w'.flight = [] := by
  induction hm : n - 1 - k generalizing k w
  case zero =>
    have := h.le
    exact ⟨w, .refl, h.flight_nil_iff.mpr (by omega)⟩
  case succ m hi =>
    have hf := mt h.flight_nil_iff.mp (by omega)
    have ⟨w₁, s⟩ : ∃ w₁, World.Step (p.handle maps) w w₁ := World.Step.exists_of_flight hf
    have ⟨w', hw, he⟩ := hi (step hn hr c h s) (by omega)
    exact ⟨w', .head s hw, he⟩

-- A whole run, by the number of its arrivals.
theorem reaches (hn : 2 ≤ n) (hr : root < n) (c : maps.Complete n)
    (h : f.Bcast .bcastRing root root ((root + 1) % n))
    (s : World.Reaches (p.handle maps) { flight := [f] } w) : Ring n root w.arrived.length w := by
  have hs : ∃ k, Ring n root k w := by
    induction s
    case refl          => exact ⟨0, start hn hr h⟩
    case tail _ _ s hi =>
      have ⟨k, hk⟩ := hi
      exact ⟨k + 1, step hn hr c hk s⟩
  have ⟨k, hk⟩ := hs
  have hl : w.arrived.length = k := by
    have := congrArg List.length hk.arrived
    have := hk.le
    simp only [List.length_map, List.length_take, ringOrder_length] at *
    omega
  exact hl ▸ hk

theorem ne_root (hr : root < n) (h : Ring n root k w) :
    ∀ g ∈ w.arrived ++ w.sent ++ w.flight, g.dstHost.toNat ≠ root := by
  intro g hg
  have hm {l : List Frame} (hl : g ∈ l) (hs : l.map (·.dstHost.toNat) ⊆ ringOrder n root) :
      g.dstHost.toNat ≠ root :=
    ((mem_ringOrder hr).mp <| hs <| List.mem_map_of_mem hl).right
  simp only [List.mem_append] at hg
  rcases hg with (hg | hg) | hg
  · exact hm hg (h.arrived ▸ List.take_subset ..)
  · exact hm hg (h.sent ▸ List.Subset.trans (List.take_subset ..) (List.drop_subset ..))
  · have hf := h.flight
    split at hf
    case isTrue hk =>
      have ⟨_, he, hb⟩ := hf
      rw [he, List.mem_singleton] at hg
      rw [hg, hb.dst]
      exact turn_ne_root hr hk
    case isFalse => simp [hf] at hg

-- The copy that is made at the predecessor of the root is not transmitted.
theorem last_sent (hn : 2 ≤ n) (hr : root < n) (c : maps.Complete n) (h : Ring n root k w)
    (hg : g ∈ w.arrived) (hl : (g.dstHost.toNat + 1) % n = root) : (p.handle maps g).sent = [] := by
  have ⟨_, hb⟩ := h.bcast g hg
  have ⟨v, hv, _⟩ := c.numProcess
  have hm : g.dstHost.toNat ∈ ringOrder n root :=
    (h.arrived ▸ List.take_subset ..) <| List.mem_map_of_mem hg
  have ⟨hd, he⟩ := (mem_ringOrder hr).mp hm
  have hx := c.next_toNat hv hd (k := 1) (by omega)
  have hz := hb.relay_stop c hd (hx ▸ Nat.mod_lt _ (by omega)) (.inl <| hx.trans hl)
  rw [p.handle_ring hb hv he]
  simp only [Outcome.append, List.nil_append]
  exact congrArg Outcome.sent hz

end Ring

-- A broadcast over the ring visits every rank but the root once and then stops.
theorem ring_visits_once (p : Program) (hn : 2 ≤ n) (hr : root < n) (c : maps.Complete n)
    (h : f.Bcast .bcastRing root root ((root + 1) % n))
    (s : World.Reaches (p.handle maps) { flight := [f] } w) :
    w.arrived.map (·.dstHost.toNat) <+: ringOrder n root ∧
    (∀ g ∈ w.arrived ++ w.sent ++ w.flight, g.dstHost.toNat ≠ root) ∧
    (∀ g ∈ w.arrived, (g.dstHost.toNat + 1) % n = root → (p.handle maps g).sent = []) ∧
    (w.flight ≠ [] → ∃ w', World.Step (p.handle maps) w w') ∧
    (w.flight = [] →
      w.arrived.map (·.dstHost.toNat) = ringOrder n root ∧
      (∀ d < n, d ≠ root → (w.arrived.map (·.dstHost.toNat)).count d = 1) ∧
      w.sent.length = n - 2) := by
  have hi := Ring.reaches hn hr c h s
  refine ⟨?order, hi.ne_root hr, fun _ hg => hi.last_sent hn hr c hg, World.Step.exists_of_flight, ?done⟩
  case order => exact hi.arrived ▸ List.take_prefix ..
  case done =>
    intro hf
    have hk := hi.flight_nil_iff.mp hf
    have ha := hi.arrived
    rw [hk, ← ringOrder_length, List.take_length] at ha
    refine ⟨ha, fun d hd he => ?_, ?_⟩
    · rw [ha]
      exact List.count_eq_one_of_mem (ringOrder_nodup hr) ((mem_ringOrder hr).mpr ⟨hd, he⟩)
    · have hs := congrArg List.length hi.sent
      simp only [hk, List.length_map, List.length_take, List.length_drop, ringOrder_length] at hs
      omega

theorem ring_visits_once_three :
    let f := Frame.ofMessage 5001 5002 (Header.encode ⟨1, 1, 2, 3, 2, 1, 1, 0, 0⟩ ++ [65])
    ∃ w, World.Reaches (Program.xdp.handle (.filled 3)) { flight := [f] } w ∧ w.flight = [] ∧
      w.arrived.map (·.dstHost.toNat) = [2, 0] ∧ w.sent.length = 1 := by
  intro f
  have hb : f.Bcast .bcastRing 1 1 2 := Frame.ofMessage_bcast ⟨1, 1, 2, 3, 2, 1, 1, 0, 0⟩ .bcastRing (by decide) [65]
  have hc : (Maps.filled 3).Complete 3 := Maps.filled_complete (by decide)
  have ⟨w, s, hf⟩ := (Ring.start (by decide) (by decide) hb).finish (p := .xdp) (by decide) (by decide) hc
  have ⟨ha, _, hs⟩ := (ring_visits_once .xdp (by decide) (by decide) hc hb s).right.right.right.right hf
  exact ⟨w, s, hf, ha, hs⟩

end Kernel

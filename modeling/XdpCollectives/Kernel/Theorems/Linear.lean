import XdpCollectives.Kernel.Arrival

open Memory Wire

namespace Kernel

variable {maps : Maps} {f : Frame} {n root src dst : Nat} {w w' : World}

theorem Outcome.ranks_append (o₁ o₂ : Outcome) : (append o₁ o₂).ranks = o₁.ranks ++ o₂.ranks := by
  simp [ranks, append]

theorem Outcome.ranks_concat (os : List Outcome) : (concat os).ranks = os.flatMap ranks := by
  rw [ranks, concat, List.map_flatMap]
  rfl

theorem Outcome.ranks_handed (f : Frame) : ({ handed := [f] } : Outcome).ranks = [] := rfl

theorem Maps.Complete.one_lt (c : maps.Complete n) (hv : maps.numProcess 0#32 = some v)
    (hn : 2 ≤ n) : 1#32 < v.setWidth 32 := by
  rw [BitVec.lt_def, c.setWidth hv]
  exact hn

-- The ranks that a packet of the root reaches besides its first recipient.
def others (n root d : Nat) : List Nat :=
  (List.range n).filter fun r => r ≠ root ∧ r ≠ d

theorem mem_others : r ∈ others n root dst ↔ r < n ∧ r ≠ root ∧ r ≠ dst := by
  simp [others]

theorem others_length (hr : root < n) (hd : dst < n) (h : dst ≠ root) :
    (others n root dst).length = n - 2 := by
  have hp : (root :: dst :: others n root dst).Perm (List.range n) := by
    apply (List.perm_ext_iff_of_nodup ?_ List.nodup_range).mpr
    · intro a
      simp only [List.mem_cons, mem_others, List.mem_range]
      omega
    · have ho : (others n root dst).Nodup := List.nodup_range.filter _
      simp [mem_others, ho, Ne.symm h]
  have hl := hp.length_eq
  simp only [List.length_cons, List.length_range] at hl
  omega

namespace Xdp

-- The copies `1`, ..., `n` go once around the ring, from `dst + 1` to `dst`.
theorem linear_ranks (c : maps.Complete n) (hd : dst < n) (hr : dst ≠ root)
    (h : f.Bcast .bcastLinear root root dst) :
    (handle maps f).ranks.Perm (others n root dst) := by
  have ⟨v, hv, _⟩ := c.numProcess
  have hs : f.rootHost = f.srcHost := h.root_eq_iff.mpr h.src
  have hk : ∀ i ∈ List.range n,
      (relay maps f ((f.dstHost + BitVec.ofNat 32 (i + 1)) % v.setWidth 32)).ranks =
        if (dst + 1 + i) % n = root ∨ (dst + 1 + i) % n = dst then [] else [(dst + 1 + i) % n] := by
    intro i hi
    have hi := List.mem_range.mp hi
    have hx := c.next_toNat hv (h.dst ▸ hd) (k := i + 1) (by omega)
    rw [h.dst, show dst + (i + 1) = dst + 1 + i by omega] at hx
    rw [relay_ranks h c hd (hx ▸ Nat.mod_lt _ (by omega)), hx]
  rw [handle_linear h.mpi.live hv h.opcode (h.root_ne_dst hr) hs, Outcome.ranks_append,
    Outcome.ranks_concat, c.setWidth hv, Outcome.ranks_handed, List.nil_append, List.flatMap_map,
    List.flatMap_congr hk]
  have hf : ((List.range n).flatMap fun i =>
      if (dst + 1 + i) % n = root ∨ (dst + 1 + i) % n = dst then [] else [(dst + 1 + i) % n]) =
      ((List.range n).map fun i => (dst + 1 + i) % n).filter fun r => r ≠ root ∧ r ≠ dst := by
    induction List.range n
    case nil => rfl
    case cons i _ hi =>
      rw [List.flatMap_cons, hi, List.map_cons, List.filter_cons]
      by_cases hc : (dst + 1 + i) % n = root ∨ (dst + 1 + i) % n = dst
      case pos => rw [if_pos hc, if_neg (by simp; tauto), List.nil_append]
      case neg => rw [if_neg hc, if_pos (by simp; tauto), List.singleton_append]
  rw [hf]
  exact (Cycle.map_add_mod_perm (dst + 1) n).filter _

-- The packets of the second generation have the first recipient as their source.
theorem linear_sent (c : maps.Complete n) (hd : dst < n) (hr : dst ≠ root)
    (h : f.Bcast .bcastLinear root root dst) (ht : t ∈ (handle maps f).sent) (hb : t.Reflected b) :
    (handle maps b).sent = [] := by
  obtain ⟨v, hv, _⟩ := c.numProcess
  have hs : f.rootHost = f.srcHost := h.root_eq_iff.mpr h.src
  rw [handle_linear h.mpi.live hv h.opcode (h.root_ne_dst hr) hs, c.setWidth hv] at ht
  simp only [Outcome.append, Outcome.concat, List.nil_append, List.mem_flatMap, List.mem_map,
    List.mem_range] at ht
  obtain ⟨_, ⟨i, hi, ho⟩, ht⟩ := ht
  have hx := c.next_toNat hv (h.dst ▸ hd) (k := i + 1) (by omega)
  have hx' := hx ▸ Nat.mod_lt (f.dstHost.toNat + (i + 1)) (y := n) (by omega)
  rw [← ho] at ht
  by_cases hz : ((f.dstHost + BitVec.ofNat 32 (i + 1)) % v.setWidth 32).toNat = root ∨
      ((f.dstHost + BitVec.ofNat 32 (i + 1)) % v.setWidth 32).toNat = dst
  case pos => simp [h.relay_stop c hd hx' hz] at ht
  case neg =>
    obtain ⟨hnr, hnd⟩ := not_or.mp hz
    obtain ⟨_, _, hw⟩ := h.relay_send c hd hx' hnr hnd
    rw [hw, List.mem_singleton] at ht
    obtain ⟨hb, _⟩ := h.relayed (ht ▸ hb)
    have hbs : b.rootHost ≠ b.srcHost := by rwa [Ne, hb.root_eq_iff, hb.src]
    rw [handle_linear_not_src hb.mpi.live hv hb.opcode (hb.root_ne_dst hnr) hbs]

-- A linear broadcast before its only packet arrives, and afterwards.
inductive Linear (maps : Maps) (n : Nat) (f : Frame) : World → Prop
  | start : Linear maps n f { flight := [f] }
  | spread {w : World}
      (sent   : w.sent = (handle maps f).sent)
      (silent : ∀ b ∈ w.flight, (handle maps b).sent = [])
      (count  : w.arrived.length + w.flight.length = n - 1) : Linear maps n f w

namespace Linear

theorem step (hn : 2 ≤ n) (c : maps.Complete n) (hr : root < n) (hd : dst < n) (hdr : dst ≠ root)
    (h : f.Bcast .bcastLinear root root dst) (hl : Linear maps n f w)
    (s : World.Step (handle maps) w w') : Linear maps n f w' := by
  cases s with | @arrive l r g bs flight reflected =>
  have hb := reflected.length_eq
  cases hl
  case start =>
    obtain ⟨rfl, rfl, rfl⟩ : l = [] ∧ r = [] ∧ g = f := by
      cases l <;> simp_all
    have hp := (linear_ranks c hd hdr h).length_eq
    rw [others_length hr hd hdr, Outcome.ranks, List.length_map] at hp
    refine .spread ?sent ?silent ?count
    case sent => rfl
    case silent =>
      intro b hb
      obtain ⟨t, ht, hb⟩ := World.exists_reflected reflected hb
      exact linear_sent c hd hdr h ht hb
    case count =>
      simp only [List.nil_append, List.length_singleton]
      omega
  case spread sent silent count =>
    have hg : (handle maps g).sent = [] := silent g (by simp [flight])
    rw [hg] at hb reflected
    obtain rfl : bs = [] := List.eq_nil_of_length_eq_zero hb.symm
    refine .spread ?sent ?silent ?count
    case sent   => simp [hg, sent]
    case silent =>
      intro b hb
      simp only [List.append_nil, List.mem_append] at hb
      exact silent b (by simp only [flight, List.mem_append, List.mem_cons]; tauto)
    case count  =>
      simp only [flight, List.length_append, List.length_cons, List.length_nil] at count ⊢
      omega

theorem reaches (hn : 2 ≤ n) (c : maps.Complete n) (hr : root < n) (hd : dst < n) (hdr : dst ≠ root)
    (h : f.Bcast .bcastLinear root root dst)
    (s : World.Reaches (handle maps) { flight := [f] } w) : Linear maps n f w := by
  induction s
  case refl          => exact .start
  case tail _ _ s hi => exact step hn c hr hd hdr h hi s

end Linear

-- A linear broadcast reaches the ranks that are neither its root nor its first recipient with one
-- packet each, and none of these makes the program transmit another one.
theorem linear_fan_out (hn : 2 ≤ n) (c : maps.Complete n) (hr : root < n) (hd : dst < n)
    (hdr : dst ≠ root) (h : f.Bcast .bcastLinear root root dst) :
    (handle maps f).ranks.Perm (others n root dst) ∧
    (∀ t ∈ (handle maps f).sent, ∀ b, t.Reflected b → (handle maps b).sent = []) ∧
    ∀ w, World.Reaches (handle maps) { flight := [f] } w →
      w.arrived.length ≤ n - 1 ∧
      (w.flight ≠ [] → ∃ w', World.Step (handle maps) w w') ∧
      (w.arrived ≠ [] → w.sent.length = n - 2) ∧
      (w.flight = [] → w.arrived.length = n - 1 ∧ w.sent.length = n - 2) := by
  have hp := linear_ranks c hd hdr h
  have hs : (handle maps f).sent.length = n - 2 := by
    have hl := hp.length_eq
    rwa [others_length hr hd hdr, Outcome.ranks, List.length_map] at hl
  refine ⟨hp, fun _ ht _ hb => linear_sent c hd hdr h ht hb, fun w s => ?_⟩
  cases Linear.reaches hn c hr hd hdr h s
  case start =>
    exact ⟨Nat.zero_le _, World.Step.exists_of_flight, fun ha => absurd rfl ha, by simp⟩
  case spread sent silent count =>
    refine ⟨by omega, World.Step.exists_of_flight, fun _ => sent ▸ hs, fun hf => ⟨?_, sent ▸ hs⟩⟩
    rw [hf, List.length_nil] at count
    exact count

theorem linear_fan_out_four :
    (handle (.filled 4) (.ofMessage 5002 5003 (Header.encode ⟨2, 2, 3, 2, 2, 1, 1, 0, 0⟩ ++ [0]))).ranks.Perm
      [0, 1] :=
  (linear_fan_out (by decide) (Maps.filled_complete (by decide)) (by decide) (by decide) (by decide)
    (Frame.ofMessage_bcast ⟨2, 2, 3, 2, 2, 1, 1, 0, 0⟩ .bcastLinear (by decide) [0])).left

-- Packets that come from another rank than the root are not sent on.
theorem linear_ranks_not_src (c : maps.Complete n) (hr : dst ≠ root) (hs : src ≠ root)
    (h : f.Bcast .bcastLinear root src dst) : (handle maps f).ranks = [] := by
  have ⟨v, hv, _⟩ := c.numProcess
  have hrs : f.rootHost ≠ f.srcHost := by rwa [Ne, h.root_eq_iff, h.src]
  rw [handle_linear_not_src h.mpi.live hv h.opcode (h.root_ne_dst hr) hrs, Outcome.ranks_handed]

end Xdp

namespace Tc

-- The loop over the ranks ends in its first round.
theorem linear_ranks (hn : 2 ≤ n) (c : maps.Complete n) (hd : dst < n) (hr : dst ≠ root)
    (h : f.Bcast .bcastLinear root src dst) :
    (handle maps f).ranks = if (dst + 1) % n = root then [] else [(dst + 1) % n] := by
  obtain ⟨v, hv, _⟩ := c.numProcess
  have hx := c.next_toNat hv (h.dst ▸ hd) (k := 1) (by omega)
  rw [h.dst] at hx
  have hx' := hx ▸ Nat.mod_lt (dst + 1) (y := n) (by omega)
  have hnd : (dst + 1) % n ≠ dst := Cycle.add_mod_ne hd (by omega) (by omega)
  rw [handle_linear h.mpi.live hv h.opcode (h.root_ne_dst hr) (c.one_lt hv hn), Outcome.ranks_append,
    Outcome.ranks_handed, List.nil_append]
  by_cases hz : (dst + 1) % n = root
  case pos =>
    have he := h.root_eq_iff.mpr (hx.trans hz)
    rw [if_pos hz, linear, if_pos he, Outcome.ranks_handed]
  case neg =>
    have he := mt h.root_eq_iff.mp (hx ▸ hz)
    obtain ⟨info, hi, _⟩ := h.relay_send c hd hx' (hx ▸ hz) (hx ▸ hnd)
    rw [if_neg hz, linear, if_neg he, hi]
    simp [Outcome.ranks, h.relayed_dst, hx]

end Tc

theorem others_eq_nil (hr : root < n) (hd : dst < n) (h : dst ≠ root) :
    (∀ r, r ∉ others n root dst) ↔ n = 2 := by
  have hl := others_length hr hd h
  rw [← List.eq_nil_iff_forall_not_mem, ← List.length_eq_zero_iff, hl]
  omega

theorem others_eq_singleton (hr : root < n) (hd : dst < n) (h : dst ≠ root) (hx : x ∈ others n root dst) :
    (∀ r, r ∈ others n root dst ↔ r = x) ↔ n = 3 := by
  have hl := others_length hr hd h
  have hn : (others n root dst).Nodup := List.nodup_range.filter _
  constructor
  case mp =>
    intro hs
    have hp : (others n root dst).Perm [x] := by
      apply (List.perm_ext_iff_of_nodup hn (List.nodup_singleton x)).mpr
      simpa using hs
    have := hp.length_eq
    simp only [List.length_singleton] at this
    omega
  case mpr =>
    intro h₃ r
    have ⟨y, hy⟩ := List.length_eq_one_iff.mp (hl.trans (by omega))
    simp_all

-- The two programs transmit to the same ranks in a ring, and in a linear broadcast only where the
-- successor of the recipient is the only rank to transmit to, or there is none.
theorem programs_agree_iff (hn : 2 ≤ n) (c : maps.Complete n) (hr : root < n) (hd : dst < n)
    (hdr : dst ≠ root) (ho : op = .bcastRing ∨ op = .bcastLinear) (h : f.Bcast op root src dst) :
    (∀ r, r ∈ (Tc.handle maps f).ranks ↔ r ∈ (Xdp.handle maps f).ranks) ↔
      op = .bcastRing ∨
      src = root ∧ (n = 2 ∨ n = 3 ∧ (dst + 1) % n ≠ root) ∨
      src ≠ root ∧ (dst + 1) % n = root := by
  cases ho
  case inl ho =>
    subst ho
    have ⟨v, hv, _⟩ := c.numProcess
    have ht := Program.tc.handle_ring h hv hdr
    have hx := Program.xdp.handle_ring h hv hdr
    simp only [Program.handle] at ht hx
    simp [ht, hx]
  case inr ho =>
    subst ho
    have hnd : (dst + 1) % n ≠ dst := Cycle.add_mod_ne hd (by omega) (by omega)
    have hnn : (dst + 1) % n < n := Nat.mod_lt _ (by omega)
    rw [Tc.linear_ranks hn c hd hdr h]
    by_cases hs : src = root
    case pos =>
      subst hs
      have hm r := (Xdp.linear_ranks c hd hdr h).mem_iff (a := r)
      by_cases hz : (dst + 1) % n = src
      case pos =>
        have hnil := others_eq_nil hr hd hdr
        simp [hm, hz, hnil]
      case neg =>
        have hone := others_eq_singleton hr hd hdr (mem_others.mpr ⟨hnn, hz, hnd⟩)
        have h₂ : n ≠ 2 := fun h₂ => by
          have := (others_eq_nil hr hd hdr).mpr h₂ ((dst + 1) % n)
          exact this (mem_others.mpr ⟨hnn, hz, hnd⟩)
        have hone' : (∀ r, r = (dst + 1) % n ↔ r ∈ others n src dst) ↔ n = 3 := by
          rw [← hone]
          exact forall_congr' fun _ => iff_comm
        simp [hm, hz, h₂, hone']
    case neg =>
      rw [Xdp.linear_ranks_not_src c hdr hs h]
      by_cases hz : (dst + 1) % n = root <;> simp [hs, hz]

theorem programs_agree_three :
    let f := Frame.ofMessage 5000 5001 (Header.encode ⟨0, 0, 1, 2, 2, 1, 1, 0, 0⟩ ++ [0])
    ∀ r, r ∈ (Tc.handle (.filled 3) f).ranks ↔ r ∈ (Xdp.handle (.filled 3) f).ranks :=
  (programs_agree_iff (by decide) (Maps.filled_complete (by decide)) (by decide) (by decide)
    (by decide) (.inr rfl)
    (Frame.ofMessage_bcast ⟨0, 0, 1, 2, 2, 1, 1, 0, 0⟩ .bcastLinear (by decide) [0])).mpr
    (.inr <| .inl ⟨rfl, .inr ⟨rfl, by decide⟩⟩)

-- With four ranks, the broadcast of rank 0 does not get to rank 3.
theorem programs_disagree_four :
    let f := Frame.ofMessage 5000 5001 (Header.encode ⟨0, 0, 1, 2, 2, 1, 1, 0, 0⟩ ++ [0])
    ¬∀ r, r ∈ (Tc.handle (.filled 4) f).ranks ↔ r ∈ (Xdp.handle (.filled 4) f).ranks := by
  intro f h
  have hc : (Maps.filled 4).Complete 4 := Maps.filled_complete (by decide)
  have hf : f.Bcast .bcastLinear 0 0 1 :=
    Frame.ofMessage_bcast ⟨0, 0, 1, 2, 2, 1, 1, 0, 0⟩ .bcastLinear (by decide) [0]
  have ht := Tc.linear_ranks (by decide) hc (by decide) (by decide) hf
  have hx := (Xdp.linear_ranks hc (by decide) (by decide) hf).mem_iff (a := 3)
  have hm : 3 ∈ (Tc.handle (.filled 4) f).ranks := (h 3).mpr (hx.mpr (by decide))
  simp [ht] at hm

end Kernel

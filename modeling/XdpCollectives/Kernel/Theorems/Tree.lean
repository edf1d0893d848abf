import XdpCollectives.Kernel.Theorems.Delivery

open Memory Wire

-- The broadcast along a tree, with the opcode `MPI_BCAST`.
namespace Kernel.Xdp

variable {maps : Maps} {f t b : Frame} {n dst : Nat} {w w' : World}

-- What becomes of a copy. Its number does not matter.
def treeRelay (maps : Maps) (size : BitVec 32) (f : Frame) : Outcome :=
  let next := 2 * f.srcHost + 2
  if size.sle next then { handed := [f] }
  else match maps.procToAddress ⟨f.srcHost, next⟩ with
    | none      => { handed := [f] }
    | some info => { sent := [f.readdress f.srcHost next info] }

theorem kfunc_bcast_copy (m : f.Live) (hv : maps.numProcess 0#32 = some v) (ho : f.opcode = some .bcast)
    (hr : f.rootHost ≠ f.dstHost) (hi : i ≠ 0#32) :
    copyOutcome (kfunc maps ⟨f, some i⟩) = treeRelay maps (v.setWidth 32) f := by
  have ⟨h₁, h₂, _, _, _, h₃⟩ := m.len_lt
  have hc : handleClone maps ⟨f, some i⟩ = cloneBcast maps ⟨f, some i⟩ := by
    simp only [Frame.opcode] at ho
    simp [handleClone, h₁, h₂, m.magic, ho]
  simp only [kfunc, parseIpPacket_live m, m.saddr, hc, cloneBcast, hr, h₃, hv, hi, treeRelay, if_true, if_false,
    Option.isSome_some]
  split
  · rfl
  · cases maps.procToAddress _ <;> rfl

-- The packet is passed, and so are or go its two copies.
theorem handle_tree (m : f.Live) (hv : maps.numProcess 0#32 = some v) (ho : f.opcode = some .bcast)
    (hr : f.rootHost ≠ f.dstHost) :
    handle maps f = Outcome.append { handed := [f] }
      (Outcome.append (treeRelay maps (v.setWidth 32) f) (treeRelay maps (v.setWidth 32) f)) := by
  have h₁ := kfunc_bcast_copy (i := 1#32) m hv ho hr (by decide)
  have h₂ := kfunc_bcast_copy (i := 2#32) m hv ho hr (by decide)
  have hl : List.range 2 = [0, 1] := rfl
  simp only [handle, handleOriginal_live m hv, ho, if_neg hr, BitVec.reduceToNat, hl, List.map_cons, List.map_nil,
    Nat.zero_add, Nat.reduceAdd, h₁, h₂]
  simp [Outcome.concat, Outcome.append]

-- A packet of the tree broadcast of rank 0, for the UDP socket of the rank in its header.
structure Planted (f : Frame) (dst : Nat) : Prop where
  bcast     : f.Bcast .bcast 0 0 dst
  addressed : f.Addressed

section Packets

theorem Planted.srcHost (h : Planted f dst) : f.srcHost = 0#32 :=
  BitVec.eq_of_toNat_eq h.bcast.src

-- The number of ranks as an `int`.
theorem sle_two (hn : 2 ≤ n) (hm : n ≤ 2 ^ 31) : (BitVec.ofNat 32 n).sle 2#32 = true ↔ n = 2 ∨ n = 2 ^ 31 := by
  have h2 : (2#32 : BitVec 32).toInt = 2 := by decide
  rw [BitVec.sle_eq_decide, decide_eq_true_iff, BitVec.toInt_ofNat', h2, Int.bmod_def]
  omega

theorem treeRelay_pass (h : Planted f dst) (hn : n = 2 ∨ n = 2 ^ 31) :
    treeRelay maps (BitVec.ofNat 32 n) f = { handed := [f] } := by
  have hs : (BitVec.ofNat 32 n).sle (2 * f.srcHost + 2) = true := by
    rw [h.srcHost]
    exact (sle_two (by omega) (by omega)).mpr hn
  simp only [treeRelay, hs, if_true]

theorem treeRelay_send (c : maps.Complete n) (hp : maps.Ports n) (h : Planted f dst) (hn : 3 ≤ n) (hm : n < 2 ^ 31) :
    ∃ t, treeRelay maps (BitVec.ofNat 32 n) f = { sent := [t] } ∧ ∀ b, t.Reflected b → Planted b 2 := by
  have hs : ¬(BitVec.ofNat 32 n).sle (2 * f.srcHost + 2) = true := by
    rw [h.srcHost]
    exact mt (sle_two (by omega) (by omega)).mp (by omega)
  have hx : 2 * f.srcHost + 2 = 2#32 := by
    rw [h.srcHost]
    rfl
  have ⟨info, hi⟩ := Option.isSome_iff_exists.mp ((c.procToAddress 0 (by omega) 2 (by omega)).mpr (by decide))
  have hport := hp 0 (by omega) 2 (by omega) info hi
  refine ⟨f.readdress 0#32 2#32 info, ?_, fun b hb => ?_⟩
  · simp only [treeRelay]
    rw [if_neg hs, hx, h.srcHost, hi]
  · have hf := h.bcast.mpi.forwarded .refl hb
    exact {
      bcast     := {
        mpi    := hf.mpi
        opcode := by rw [Frame.opcode, hf.opcodeHost]; exact h.bcast.opcode
        root   := by rw [hf.rootHost, h.bcast.root]
        src    := by rw [hf.srcHost]; rfl
        dst    := by rw [hf.dstHost]; rfl }
      addressed := by
        rw [Frame.Addressed, hf.udpDest, hf.dstHost, hport]
        rfl }

variable (c : maps.Complete n) (h : Planted f dst) (hd : dst ≠ 0)
include c h hd

theorem Planted.handle : handle maps f = Outcome.append { handed := [f] }
    (Outcome.append (treeRelay maps (BitVec.ofNat 32 n) f) (treeRelay maps (BitVec.ofNat 32 n) f)) := by
  have ⟨v, hv, _⟩ := c.numProcess
  rw [handle_tree h.bcast.mpi.live hv h.bcast.opcode (h.bcast.root_ne_dst hd), c.setWidth_eq hv]

-- Two ranks: the packet is passed three times.
theorem Planted.handle_pass (hn : n = 2 ∨ n = 2 ^ 31) : Xdp.handle maps f = { handed := [f, f, f] } := by
  rw [h.handle c hd, treeRelay_pass h hn]
  rfl

-- More ranks: it is passed once, and both copies go to rank 2.
theorem Planted.handle_send (hp : maps.Ports n) (hn : 3 ≤ n) (hm : n < 2 ^ 31) :
    ∃ t, Xdp.handle maps f = { sent := [t, t], handed := [f] } ∧ ∀ b, t.Reflected b → Planted b 2 := by
  have ⟨t, ht, hb⟩ := treeRelay_send c hp h hn hm
  refine ⟨t, ?_, hb⟩
  rw [h.handle c hd, ht]
  rfl

end Packets

-- What the packets of rank 0 to `n` ranks are for: every other rank is reached, none of them twice, the root is not,
-- and the transmissions come to an end.
structure TreeBroadcast (handle : Frame → Outcome) (n : Nat) (fs : List Frame) : Prop where
  every  : ∀ w, World.Reaches handle { flight := fs } w → ∀ r, 0 < r → r < n →
    ∃ w', World.Reaches handle w w' ∧ 0 < w'.deliveries r
  once   : ∀ w, World.Reaches handle { flight := fs } w → ∀ r, w.deliveries r ≤ 1
  root   : ∀ w, World.Reaches handle { flight := fs } w → w.deliveries 0 = 0
  finite : ∃ k, ∀ w, World.Reaches handle { flight := fs } w → w.sent.length ≤ k

section Runs

-- Any packet in flight may be the next.
theorem exists_arrive (handle : Frame → Outcome) (l : List Frame) (f : Frame) (r : List Frame)
    (h : w.flight = l ++ f :: r) :
    ∃ w' bs, World.Step handle w w' ∧ List.Forall₂ Frame.Reflected (handle f).sent bs ∧ w'.flight = l ++ r ++ bs ∧
      w'.handed = w.handed ++ (handle f).handed := by
  have ⟨bs, hbs⟩ := World.exists_forall₂_reflected (handle f).sent
  exact ⟨_, bs, .arrive h hbs, hbs, rfl, rfl⟩

variable {f₁ f₂ : Frame} {fs : List Frame} (c : maps.Complete n) (hp : maps.Ports n)
include c hp

variable (fs) in
-- The rank of the packet is handed it and its copies, or rank 2 is handed both copies.
theorem tree_delivered_twice (hn : 2 ≤ n) (h : Planted f₁ 1) :
    ∃ w, World.Reaches (Xdp.handle maps) { flight := f₁ :: fs } w ∧ ∃ r, 2 ≤ w.deliveries r := by
  have hf := c.fits
  have ⟨w₁, bs, s₁, hbs, hw₁, hh₁⟩ := exists_arrive (Xdp.handle maps) (w := { flight := f₁ :: fs }) [] f₁ fs rfl
  by_cases hs : n = 2 ∨ n = 2 ^ 31
  case pos =>
    refine ⟨w₁, .single s₁, _, World.deliveries_addressed h.addressed h.addressed rfl ?_⟩
    rw [hh₁, h.handle_pass c Nat.one_ne_zero hs]
    exact List.sublist_append_left [f₁, f₁] [f₁]
  case neg =>
    have ⟨t, ht, hb⟩ := h.handle_send c Nat.one_ne_zero hp (by omega) (by omega)
    rw [ht] at hbs
    cases hbs with | @cons _ b₁ _ _ hb₁ hbs =>
    cases hbs with | @cons _ b₂ _ _ hb₂ hbs =>
    cases hbs
    have h₁ := hb b₁ hb₁
    have h₂ := hb b₂ hb₂
    have ⟨t₁, ht₁, _⟩ := h₁.handle_send c (by decide) hp (by omega) (by omega)
    have ⟨t₂, ht₂, _⟩ := h₂.handle_send c (by decide) hp (by omega) (by omega)
    have ⟨w₂, bs₁, s₂, _, hw₂, hh₂⟩ := exists_arrive (Xdp.handle maps) fs b₁ [b₂] hw₁
    rw [List.append_assoc] at hw₂
    have ⟨w₃, _, s₃, _, _, hh₃⟩ := exists_arrive (Xdp.handle maps) fs b₂ bs₁ hw₂
    have he : b₂.dstHost = b₁.dstHost := BitVec.eq_of_toNat_eq (h₂.bcast.dst.trans h₁.bcast.dst.symm)
    refine ⟨w₃, .tail (.tail (.single s₁) s₂) s₃, _, World.deliveries_addressed h₁.addressed h₂.addressed he ?_⟩
    rw [hh₃, hh₂, ht₁, ht₂, List.append_assoc]
    exact List.sublist_append_right ..

-- More ranks than two: every packet that arrives causes two others, and all of them are for the ranks 1 and 2.
theorem tree_run (hn : 3 ≤ n) (hm : n < 2 ^ 31) (h₁ : Planted f₁ 1) (h₂ : Planted f₂ 2)
    (s : World.Reaches (Xdp.handle maps) { flight := [f₁, f₂] } w) :
    (∀ f ∈ w.flight ++ w.handed, Planted f 1 ∨ Planted f 2) ∧ w.flight.length = 2 + w.arrived.length ∧
      w.sent.length = 2 * w.arrived.length := by
  induction s
  case refl => simp [h₁, h₂]
  case tail w w' _ s hi =>
    have ⟨hall, hflight, hsent⟩ := hi
    cases s with | @arrive l r f bs flight reflected =>
    have hf : Planted f 1 ∨ Planted f 2 := hall f (by simp [flight])
    have ⟨t, ht, hb⟩ : ∃ t, Xdp.handle maps f = { sent := [t, t], handed := [f] } ∧
        ∀ b, t.Reflected b → Planted b 2 := by
      cases hf with
      | inl hf => exact hf.handle_send c (by decide) hp hn hm
      | inr hf => exact hf.handle_send c (by decide) hp hn hm
    rw [ht] at reflected ⊢
    cases reflected with | @cons _ b₁ _ _ hb₁ hbs =>
    cases hbs with | @cons _ b₂ _ _ hb₂ hbs =>
    cases hbs
    rw [flight] at hall hflight
    refine ⟨fun g hg => ?_, ?_, ?_⟩
    · have hmem : g ∈ l ++ f :: r ++ w.handed ∨ g = b₁ ∨ g = b₂ := by
        simp only [List.mem_append, List.mem_cons, List.not_mem_nil, or_false] at hg ⊢
        tauto
      rcases hmem with hg | rfl | rfl
      · exact hall g hg
      · exact .inr (hb g hb₁)
      · exact .inr (hb g hb₂)
    · simp only [List.length_append, List.length_cons, List.length_nil] at hflight ⊢
      omega
    · simp only [List.length_append, List.length_cons, List.length_nil]
      omega

theorem tree_endless (hn : 3 ≤ n) (hm : n < 2 ^ 31) (h₁ : Planted f₁ 1) (h₂ : Planted f₂ 2) (k : Nat) :
    ∃ w, World.Reaches (Xdp.handle maps) { flight := [f₁, f₂] } w ∧ w.sent.length = 2 * k := by
  have hw : ∃ w, World.Reaches (Xdp.handle maps) { flight := [f₁, f₂] } w ∧ w.arrived.length = k := by
    induction k
    case zero => exact ⟨_, .refl, rfl⟩
    case succ k hi =>
      have ⟨w, s, hk⟩ := hi
      have ⟨_, hflight, _⟩ := tree_run c hp hn hm h₁ h₂ s
      have ⟨w', s'⟩ : ∃ w', World.Step (Xdp.handle maps) w w' :=
        World.Step.exists_of_flight (List.ne_nil_of_length_pos (by omega))
      refine ⟨w', s.tail s', ?_⟩
      cases s'
      rw [List.length_append, hk, List.length_singleton]
  have ⟨w, s, hk⟩ := hw
  exact ⟨w, s, by rw [(tree_run c hp hn hm h₁ h₂ s).right.right, hk]⟩

-- No other rank is reached.
theorem tree_unreached (hn : 3 ≤ n) (hm : n < 2 ^ 31) (h₁ : Planted f₁ 1) (h₂ : Planted f₂ 2)
    (s : World.Reaches (Xdp.handle maps) { flight := [f₁, f₂] } w) (hr : r ≠ 1 ∧ r ≠ 2) : w.deliveries r = 0 := by
  rw [World.deliveries, List.countP_eq_zero]
  intro g hg
  have hd : g.dstHost.toNat = 1 ∨ g.dstHost.toNat = 2 :=
    ((tree_run c hp hn hm h₁ h₂ s).left g (List.mem_append_right _ hg)).imp (·.bcast.dst) (·.bcast.dst)
  simp only [decide_eq_true_eq, not_and]
  omega

end Runs

end Kernel.Xdp

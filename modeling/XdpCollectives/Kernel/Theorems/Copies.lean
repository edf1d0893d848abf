import XdpCollectives.Kernel.Theorems.Journey
import XdpCollectives.Kernel.Theorems.Ring
import XdpCollectives.Kernel.Theorems.Linear

open Memory Wire

-- What the sockets are handed of a broadcast.
namespace Kernel

-- What the local UDP stack makes of a packet: the port that it is for, and what `recvfrom` returns.
def Frame.delivery (f : Frame) : BitVec 16 × List Byte :=
  (f.udpDest, f.message)

namespace World

variable {handle : Frame → Outcome} {Y : Frame → List (BitVec 16 × List Byte) → Prop} {fs : List Frame} {f : Frame}
  {w w' : World} {yss : List (List (BitVec 16 × List Byte))}

theorem forall₂_append_left {R : α → β → Prop} {l r : List α} {ys : List β} (h : List.Forall₂ R (l ++ r) ys) :
    ∃ ys₁ ys₂, ys = ys₁ ++ ys₂ ∧ List.Forall₂ R l ys₁ ∧ List.Forall₂ R r ys₂ := by
  have hl := List.forall₂_take_append ys l r h.flip
  have hr := List.forall₂_drop_append ys l r h.flip
  exact ⟨_, _, (List.take_append_drop l.length ys).symm, hl.flip, hr.flip⟩

-- Every packet stands for all that is handed over on its account: at once, and of the packets that come back.
structure Accounts (handle : Frame → Outcome) (Y : Frame → List (BitVec 16 × List Byte) → Prop) : Prop where
  hands : ∀ f ys, Y f ys → (handle f).handed ≠ []
  pays  : ∀ f ys, Y f ys → ∀ bs, List.Forall₂ Frame.Reflected (handle f).sent bs →
    ∃ yss, List.Forall₂ Y bs yss ∧ ((handle f).handed.map Frame.delivery ++ yss.flatten).Perm ys

namespace Accounts

theorem any {Z : ι → Frame → List (BitVec 16 × List Byte) → Prop} (ha : ∀ i, Accounts handle (Z i)) :
    Accounts handle fun f ys => ∃ i, Z i f ys where
  hands := by
    intro f ys hf
    obtain ⟨i, hf⟩ := hf
    exact (ha i).hands f ys hf
  pays := by
    intro f ys hf bs hbs
    obtain ⟨i, hf⟩ := hf
    obtain ⟨yss, hy, hp⟩ := (ha i).pays f ys hf bs hbs
    exact ⟨yss, hy.imp fun _ _ h => ⟨i, h⟩, hp⟩

variable (ha : Accounts handle Y)
include ha

-- The arrival of a packet, whatever is ahead of it and behind it.
theorem arrives {l r bs : List Frame} (hf : List.Forall₂ Y (l ++ f :: r) yss)
    (reflected : List.Forall₂ Frame.Reflected (handle f).sent bs) : (handle f).handed ≠ [] ∧
    ∃ yss', List.Forall₂ Y (l ++ r ++ bs) yss' ∧
      ((handle f).handed.map Frame.delivery ++ yss'.flatten).Perm yss.flatten := by
  obtain ⟨ls, rs, rfl, hl, hr⟩ := forall₂_append_left hf
  cases hr with | @cons _ ys _ rs hy hr =>
  obtain ⟨zss, hz, hp⟩ := ha.pays f ys hy bs reflected
  refine ⟨ha.hands f ys hy, ls ++ rs ++ zss, List.rel_append (List.rel_append hl hr) hz, ?_⟩
  rw [List.flatten_append, List.flatten_append, List.flatten_append, List.flatten_cons]
  calc (handle f).handed.map Frame.delivery ++ (ls.flatten ++ rs.flatten ++ zss.flatten)
    _ |>.Perm (ls.flatten ++ rs.flatten ++ ((handle f).handed.map Frame.delivery ++ zss.flatten)) :=
      List.perm_append_comm_assoc ..
    _ |>.Perm (ls.flatten ++ rs.flatten ++ ys) := hp.append_left _
    _ |>.Perm (ls.flatten ++ (ys ++ rs.flatten)) := by
      rw [List.append_assoc]
      exact List.perm_append_comm.append_left _

theorem step (hf : List.Forall₂ Y w.flight yss) (s : Step handle w w') : ∃ yss', List.Forall₂ Y w'.flight yss' ∧
    w.handed.length < w'.handed.length ∧
    (w'.handed.map Frame.delivery ++ yss'.flatten).Perm (w.handed.map Frame.delivery ++ yss.flatten) := by
  cases s with | @arrive l r f bs flight reflected =>
  rw [flight] at hf
  obtain ⟨hne, yss', hf', hp⟩ := ha.arrives hf reflected
  refine ⟨yss', hf', ?_, ?_⟩
  · have := List.length_pos_of_ne_nil hne
    rw [List.length_append]
    omega
  · rw [List.map_append, List.append_assoc]
    exact hp.append_left _

theorem reaches (hf : List.Forall₂ Y fs yss) (s : Reaches handle { flight := fs } w) :
    ∃ yss', List.Forall₂ Y w.flight yss' ∧ (w.handed.map Frame.delivery ++ yss'.flatten).Perm yss.flatten := by
  induction s
  case refl => exact ⟨yss, hf, .refl _⟩
  case tail s hi =>
    obtain ⟨_, hk, hp⟩ := hi
    obtain ⟨yss', hk, _, hp'⟩ := ha.step hk s
    exact ⟨yss', hk, hp'.trans hp⟩

-- Every run can be carried on to its end.
theorem ends (hf : List.Forall₂ Y fs yss) (s : Reaches handle { flight := fs } w) :
    ∃ w', Reaches handle w w' ∧ w'.flight = [] := by
  induction hk : yss.flatten.length - w.handed.length using Nat.strong_induction_on generalizing w with
  | _ k hi =>
    by_cases he : w.flight = []
    case pos => exact ⟨w, .refl, he⟩
    case neg =>
      obtain ⟨w₁, s₁⟩ : ∃ w₁, Step handle w w₁ := Step.exists_of_flight he
      obtain ⟨_, hfl, _⟩ := ha.reaches hf s
      obtain ⟨_, _, hlt, _⟩ := ha.step hfl s₁
      obtain ⟨_, _, hp⟩ := ha.reaches hf (s.tail s₁)
      have hl := hp.length_eq
      rw [List.length_append, List.length_map] at hl
      obtain ⟨w₂, s₂, he⟩ := hi _ (by omega) (s.tail s₁) rfl
      exact ⟨w₂, .head s₁ s₂, he⟩

-- At its end, everything has been handed over.
theorem handed (hf : List.Forall₂ Y fs yss) (s : Reaches handle { flight := fs } w) (he : w.flight = []) :
    (w.handed.map Frame.delivery).Perm yss.flatten := by
  obtain ⟨_, hk, hp⟩ := ha.reaches hf s
  rw [he] at hk
  cases hk
  rwa [List.flatten_nil, List.append_nil] at hp

end Accounts
end World

-- What the socket of `dst` is handed of the message of `h` and `data` that comes from `src`.
def parcel (h : Header) (data : List Byte) (src dst : Nat) : BitVec 16 × List Byte :=
  (BitVec.ofNat 16 (basePort + dst),
    { h with src := BitVec.ofNat 32 src, dst := BitVec.ofNat 32 dst }.encode ++ data)

-- A packet of a broadcast, with the message of `h` and `data`, on its way from one rank to another.
structure Frame.Brings (f : Frame) (op : MPICollective) (root : Nat) (h : Header) (data : List Byte) (src dst : Nat) :
    Prop where
  bcast     : f.Bcast op root src dst
  addressed : f.Addressed
  message   : f.message = { h with src := f.srcHost, dst := f.dstHost }.encode ++ data

variable {maps : Maps} {f g b : Frame} {op : MPICollective} {h : Header} {data : List Byte} {n root src dst : Nat}
  {next : BitVec 32} {info : SocketId}

namespace Frame.Brings

theorem delivery (hf : f.Brings op root h data src dst) : f.delivery = parcel h data src dst := by
  have hs : f.srcHost = BitVec.ofNat 32 src := by rw [← hf.bcast.src, BitVec.ofNat_toNat, BitVec.setWidth_eq]
  have hd : f.dstHost = BitVec.ofNat 32 dst := by rw [← hf.bcast.dst, BitVec.ofNat_toNat, BitVec.setWidth_eq]
  rw [Frame.delivery, hf.addressed, hf.message, hf.bcast.dst, hs, hd]
  rfl

-- A packet that is readdressed to another rank, and what comes back of it.
theorem readdressed (hf : f.Brings op root h data src dst) (hd : dst < n) (hx : next.toNat < n) (hp : maps.Ports n)
    (hi : maps.procToAddress ⟨f.dstHost, next⟩ = some info) :
    (f.swapMac.readdress f.dstHost next info).delivery = parcel h data dst next.toNat ∧
      ∀ b, Reflected (f.swapMac.readdress f.dstHost next info) b → b.Brings op root h data dst next.toNat := by
  have hihl : 5 ≤ f.swapMac.ihl := hf.bcast.mpi.swapMac_ihl
  have hport : info.dstPort = BitVec.ofNat 16 (basePort + next.toNat) := by
    refine hp dst hd next.toNat hx info ?_
    rwa [← hf.bcast.dst, BitVec.ofNat_toNat, BitVec.ofNat_toNat, BitVec.setWidth_eq, BitVec.setWidth_eq]
  have hmsg := @readdress_message f f.dstHost next info _ _ hf.bcast.mpi.ihl hf.message
  have hdst : f.dstHost = BitVec.ofNat 32 dst := by rw [← hf.bcast.dst, BitVec.ofNat_toNat, BitVec.setWidth_eq]
  constructor
  case left =>
    rw [Frame.delivery, hf.bcast.relayed_udpDest, hport, hmsg, parcel, hdst, BitVec.ofNat_toNat, BitVec.setWidth_eq]
  case right =>
    intro b hb
    obtain ⟨hbb, hud⟩ := hf.bcast.relayed hb
    have ha := hb.agree
    have hg : 5 ≤ (f.swapMac.readdress f.dstHost next info).ihl := (readdress_ihl hihl).symm ▸ hihl
    refine ⟨hbb, ?_, ?_⟩
    · rw [Addressed, hud, hport, hbb.dst]
    · rw [ha.message hg, ha.srcHost hg, ha.dstHost hg, hmsg, readdress_srcHost hihl, readdress_dstHost hihl]

end Frame.Brings

-- The ranks whose sockets are handed something when the packet for rank `d` arrives, where every packet makes one for
-- the next rank.
def Program.hop (p : Program) (op : MPICollective) (n root d : Nat) : List Nat :=
  d :: if (d + 1) % n = root then [d]
  else match p, op with
    | .tc, .bcastLinear => [(d + 1) % n]
    | _,   _            => []

-- The same where the packet for the rank behind the root makes all the others.
def fan (n root : Nat) : List Nat :=
  let first := (root + 1) % n
  first :: (List.range n).map fun i =>
    if (first + (i + 1)) % n = root ∨ (first + (i + 1)) % n = first then first else (first + (i + 1)) % n

-- How many copies of a packet of `root` for the rank behind it the socket of rank `r` is handed in the end.
def Program.copies (p : Program) (op : MPICollective) (n root r : Nat) : Nat :=
  let last := if (r + 1) % n = root then 1 else 0
  if r = root then 0
  else match p, op with
    | .xdp, .bcastLinear => if r = (root + 1) % n then 3 else 1
    | .tc,  .bcastLinear => (if r = (root + 1) % n then 1 else 2) + last
    | _,    _            => 1 + last

theorem Program.copies_root (p : Program) (op : MPICollective) (n root : Nat) : p.copies op n root root = 0 := by
  simp [copies]

theorem Program.copies_pos (p : Program) (op : MPICollective) (n : Nat) (h : r ≠ root) : 0 < p.copies op n root r := by
  simp only [copies, if_neg h]
  split <;> split <;> omega

-- The rank that they come from.
def Program.source (p : Program) (op : MPICollective) (n root r : Nat) : Nat :=
  match p, op with
  | .xdp, .bcastLinear => if r = (root + 1) % n then root else (root + 1) % n
  | _,    _            => (r + n - 1) % n

section Ranks

variable {p : Program} {op : MPICollective} {n root : Nat}

-- The end of the ring is reached with the last turn.
theorem turn_last_iff (hr : root < n) (hk : k < n - 1) : ((root + 1 + k) % n + 1) % n = root ↔ k = n - 2 := by
  rw [Ring.next_turn]
  constructor
  case mp =>
    intro h
    by_contra hne
    exact Ring.turn_ne_root hr (by omega) h
  case mpr =>
    rintro rfl
    exact Ring.last_turn hr (by omega)

theorem turn_eq_first_iff (hn : 2 ≤ n) (hk : k < n - 1) : (root + 1 + k) % n = (root + 1) % n ↔ k = 0 := by
  constructor
  case mp =>
    intro h
    exact Cycle.add_mod_injOn (i := root + 1) (by omega) (by omega) (h : (root + 1 + k) % n = (root + 1 + 0) % n)
  case mpr =>
    rintro rfl
    rfl

theorem copies_perm (hr : root < n) : ((List.range n).flatMap fun r => List.replicate (p.copies op n root r) r).Perm
    ((List.range (n - 1)).flatMap fun i =>
      List.replicate (p.copies op n root ((root + 1 + i) % n)) ((root + 1 + i) % n)) := by
  have hp := (ringOrder_perm hr).flatMap_right fun r => List.replicate (p.copies op n root r) r
  rw [List.flatMap_cons, p.copies_root, List.replicate_zero, List.nil_append, ringOrder, List.flatMap_map] at hp
  exact hp.symm

-- In a linear broadcast of the traffic control program, every rank but the first is handed the packet that the rank
-- before it has made for it, and its own.
theorem hops_linear (hr : root < n) (hk : k + (m + 1) = n - 1) :
    ((root + 1 + k) % n :: (List.range' k (m + 1)).flatMap fun i =>
        Program.hop .tc .bcastLinear n root ((root + 1 + i) % n)).Perm
      ((List.range' k (m + 1)).flatMap fun i => List.replicate
        (2 + if ((root + 1 + i) % n + 1) % n = root then 1 else 0) ((root + 1 + i) % n)) := by
  induction m generalizing k with
  | zero =>
    have hl : ((root + 1 + k) % n + 1) % n = root := (turn_last_iff hr (by omega)).mpr (by omega)
    rw [List.range'_one, List.flatMap_singleton, List.flatMap_singleton, Program.hop, if_pos hl, if_pos hl]
    exact .refl _
  | succ m hi =>
    have hl : ¬((root + 1 + k) % n + 1) % n = root := mt (turn_last_iff hr (by omega)).mp (by omega)
    rw [List.range'_succ, List.flatMap_cons, List.flatMap_cons, Program.hop, if_neg hl, if_neg hl, Ring.next_turn]
    exact ((hi (by omega)).cons _).cons _

theorem hops_perm (hn : 2 ≤ n) (hr : root < n) (ho : op = .bcastRing ∨ op = .bcastLinear ∧ p = .tc) :
    ((List.range (n - 1)).flatMap fun i => p.hop op n root ((root + 1 + i) % n)).Perm
      ((List.range n).flatMap fun r => List.replicate (p.copies op n root r) r) := by
  refine .trans ?_ (copies_perm hr).symm
  rcases ho with rfl | ⟨rfl, rfl⟩
  · refine List.Perm.of_eq (List.flatMap_congr fun i hi => ?_)
    have hne := Ring.turn_ne_root hr (List.mem_range.mp hi)
    simp only [Program.hop, Program.copies, if_neg hne]
    split <;> rfl
  · obtain ⟨m, hm⟩ : ∃ m, n - 1 = m + 1 := ⟨n - 2, by omega⟩
    have hc i (hi : i < n - 1) : Program.copies .tc .bcastLinear n root ((root + 1 + i) % n) =
        (if i = 0 then 1 else 2) + if ((root + 1 + i) % n + 1) % n = root then 1 else 0 := by
      simp only [Program.copies, if_neg (Ring.turn_ne_root hr hi), turn_eq_first_iff hn hi]
    have h := hops_linear hr (k := 0) (m := m) (by omega)
    have he : ((List.range' 0 (m + 1)).flatMap fun i => List.replicate
          (2 + if ((root + 1 + i) % n + 1) % n = root then 1 else 0) ((root + 1 + i) % n)) =
        (root + 1 + 0) % n :: (List.range' 0 (m + 1)).flatMap fun i => List.replicate
          (Program.copies .tc .bcastLinear n root ((root + 1 + i) % n)) ((root + 1 + i) % n) := by
      rw [List.range'_succ, List.flatMap_cons, List.flatMap_cons, hc 0 (by omega), if_pos rfl, ← List.cons_append,
        ← List.replicate_succ]
      congr 1
      · congr 1
        omega
      · refine List.flatMap_congr fun i hi => ?_
        obtain ⟨hi₁, hi₂⟩ := List.mem_range'_1.mp hi
        rw [hc i (by omega), if_neg (show i ≠ 0 by omega)]
    rw [he] at h
    rw [hm, List.range_eq_range']
    exact h.cons_inv

-- In a linear broadcast of the XDP program, the copies for the root and for the first recipient itself are handed over.
theorem fan_perm (hn : 2 ≤ n) (hr : root < n) : (fan n root).Perm
    ((List.range n).flatMap fun r => List.replicate (Program.copies .xdp .bcastLinear n root r) r) := by
  refine .trans ?_ (copies_perm hr).symm
  obtain ⟨m, rfl⟩ : ∃ m, n = m + 2 := ⟨n - 2, by omega⟩
  have hc i (hi : i < m + 1) : Program.copies .xdp .bcastLinear (m + 2) root ((root + 1 + i) % (m + 2)) =
      if i = 0 then 3 else 1 := by
    simp only [Program.copies, if_neg (Ring.turn_ne_root hr (show i < m + 2 - 1 by omega)),
      turn_eq_first_iff hn (show i < m + 2 - 1 by omega)]
  have ht i : ((root + 1) % (m + 2) + (i + 1)) % (m + 2) = (root + 1 + (i + 1)) % (m + 2) := Nat.mod_add_mod ..
  have hr₁ : (root + 1 + (m + 1)) % (m + 2) = root := Ring.last_turn hr rfl
  have hr₂ : (root + 1 + (m + 1 + 1)) % (m + 2) = (root + 1) % (m + 2) := Nat.add_mod_right ..
  have hl : (List.range m).map (fun i =>
      if ((root + 1) % (m + 2) + (i + 1)) % (m + 2) = root ∨
        ((root + 1) % (m + 2) + (i + 1)) % (m + 2) = (root + 1) % (m + 2) then (root + 1) % (m + 2)
      else ((root + 1) % (m + 2) + (i + 1)) % (m + 2)) =
      (List.range m).map fun i => (root + 1 + (i + 1)) % (m + 2) := by
    refine List.map_congr_left fun i hi => ?_
    have hi := List.mem_range.mp hi
    have h₁ := Ring.turn_ne_root hr (show i + 1 < m + 2 - 1 by omega)
    have h₂ : (root + 1 + (i + 1)) % (m + 2) ≠ (root + 1) % (m + 2) :=
      mt (turn_eq_first_iff hn (by omega)).mp (Nat.succ_ne_zero i)
    rw [ht, if_neg (by tauto)]
  have hf : ((List.range m).flatMap fun i => List.replicate
      (Program.copies .xdp .bcastLinear (m + 2) root ((root + 1 + (i + 1)) % (m + 2)))
        ((root + 1 + (i + 1)) % (m + 2))) =
      (List.range m).map fun i => (root + 1 + (i + 1)) % (m + 2) := by
    rw [List.map_eq_flatMap]
    refine List.flatMap_congr fun i hi => ?_
    have hi := List.mem_range.mp hi
    rw [hc _ (by omega), if_neg (Nat.succ_ne_zero i)]
    rfl
  rw [fan, List.range_succ, List.range_succ, List.map_append, List.map_append, hl, List.map_singleton,
    List.map_singleton, ht, ht, hr₁, hr₂, if_pos (.inl rfl), if_pos (.inr rfl), show m + 2 - 1 = m + 1 from rfl,
    List.range_succ_eq_map, List.flatMap_cons, List.flatMap_map, hc 0 (by omega), if_pos rfl]
  simp only [Nat.succ_eq_add_one, hf]
  refine (List.Perm.cons _ ?_)
  rw [List.append_assoc]
  exact List.perm_append_comm

end Ranks

section Chain

variable {p : Program} (hn : 2 ≤ n) (hr : root < n) (c : maps.Complete n) (hp : maps.Ports n)
  (ho : op = .bcastRing ∨ op = .bcastLinear ∧ p = .tc)

include hn c hp ho in
-- What becomes of a packet whose copies go from rank to rank.
theorem Frame.Brings.arrives (hf : f.Brings op root h data ((dst + n - 1) % n) dst) (hd : dst < n) (hdr : dst ≠ root) :
    (p.handle maps f).handed.map Frame.delivery =
      (p.hop op n root dst).map (fun r => parcel h data ((r + n - 1) % n) r) ∧
    ∀ bs, List.Forall₂ Frame.Reflected (p.handle maps f).sent bs →
      if (dst + 1) % n = root then bs = []
      else ∃ b, bs = [b] ∧ b.Brings op root h data (((dst + 1) % n + n - 1) % n) ((dst + 1) % n) := by
  obtain ⟨v, hv, _⟩ := c.numProcess
  have hx := c.next_toNat hv (hf.bcast.dst ▸ hd) (k := 1) (by omega)
  rw [hf.bcast.dst] at hx
  have hx' := hx ▸ Nat.mod_lt (dst + 1) (y := n) (by omega)
  have hpred : ((dst + 1) % n + n - 1) % n = dst := by
    rw [Cycle.add_mod_pred (by omega) dst 0, Nat.add_zero, Nat.mod_eq_of_lt hd]
  have hnd : (dst + 1) % n ≠ dst := Cycle.add_mod_ne hd (by omega) (by omega)
  by_cases hz : (dst + 1) % n = root
  case pos =>
    have hh : p.handle maps f = { handed := [f, f] } := by
      rcases ho with rfl | ⟨rfl, rfl⟩
      · rw [p.handle_ring hf.bcast hv hdr, hf.bcast.relay_stop c hd hx' (.inl (hx.trans hz))]
        rfl
      · rw [Program.handle, Tc.handle_linear hf.bcast.mpi.live hv hf.bcast.opcode (hf.bcast.root_ne_dst hdr)
          (c.one_lt hv hn), Tc.linear, if_pos (hf.bcast.root_eq_iff.mpr (hx.trans hz))]
        rfl
    rw [hh]
    refine ⟨by simp [Program.hop, hz, hf.delivery], fun bs hbs => ?_⟩
    rw [if_pos hz]
    exact List.forall₂_nil_left_iff.mp hbs
  case neg =>
    obtain ⟨info, hi, hs⟩ := hf.bcast.relay_send c hd hx' (hx ▸ hz) (hx ▸ hnd)
    obtain ⟨hg, hb⟩ := hf.readdressed hd hx' hp hi
    rw [hx] at hg hb
    have hback (bs : List Frame) (hbs : List.Forall₂ Frame.Reflected (p.handle maps f).sent bs)
        (hsent : (p.handle maps f).sent =
          [f.swapMac.readdress f.dstHost ((f.dstHost + 1#32) % v.setWidth 32) info]) :
        if (dst + 1) % n = root then bs = []
        else ∃ b, bs = [b] ∧ b.Brings op root h data (((dst + 1) % n + n - 1) % n) ((dst + 1) % n) := by
      rw [if_neg hz]
      rw [hsent] at hbs
      cases hbs with | @cons _ b _ _ hb₁ hb₂ =>
      cases hb₂
      exact ⟨b, rfl, hpred.symm ▸ hb b hb₁⟩
    rcases ho with rfl | ⟨rfl, rfl⟩
    · have hh := p.handle_ring hf.bcast hv hdr
      rw [hs] at hh
      refine ⟨?_, fun bs hbs => hback bs hbs (by rw [hh]; rfl)⟩
      rw [hh]
      simp [Program.hop, hz, Outcome.append, hf.delivery]
    · have hh : Program.handle .tc maps f = _ := Tc.handle_linear hf.bcast.mpi.live hv hf.bcast.opcode
        (hf.bcast.root_ne_dst hdr) (c.one_lt hv hn)
      simp only [Tc.linear, if_neg (mt hf.bcast.root_eq_iff.mp (hx ▸ hz)), hi] at hh
      refine ⟨?_, fun bs hbs => hback bs hbs (by rw [hh]; rfl)⟩
      rw [hh]
      simp [Program.hop, hz, Outcome.append, hf.delivery, hg, hpred]

-- All that is handed over from the arrival at rank `d` on.
def Program.chain (p : Program) (op : MPICollective) (n root d : Nat) : List Nat :=
  (List.range (Cycle.distance n d root)).flatMap fun i => p.hop op n root ((d + i) % n)

theorem Program.chain_eq (hr : root < n) (hd : dst < n) (hdr : dst ≠ root) : p.chain op n root dst =
    p.hop op n root dst ++ if (dst + 1) % n = root then [] else p.chain op n root ((dst + 1) % n) := by
  rw [chain, ← Cycle.distance_succ hd hr hdr, List.range_succ_eq_map, List.flatMap_cons, List.flatMap_map,
    Nat.add_zero, Nat.mod_eq_of_lt hd]
  congr 1
  split
  case isTrue hz => rw [hz, Cycle.distance_self]; rfl
  case isFalse =>
    rw [chain]
    refine List.flatMap_congr fun i _ => ?_
    rw [Nat.mod_add_mod, Nat.succ_eq_add_one, Nat.add_assoc, Nat.add_comm 1]

include hn hr c hp ho in
theorem chain_accounts : World.Accounts (p.handle maps) fun f ys =>
    ∃ d < n, d ≠ root ∧ f.Brings op root h data ((d + n - 1) % n) d ∧
      ys = (p.chain op n root d).map fun r => parcel h data ((r + n - 1) % n) r where
  hands := by
    intro f ys hf
    obtain ⟨d, hd, hdr, hf, _⟩ := hf
    have hh := (hf.arrives hn c hp ho hd hdr).left
    intro he
    rw [he] at hh
    simp [Program.hop] at hh
  pays := by
    intro f ys hf bs hbs
    obtain ⟨d, hd, hdr, hf, rfl⟩ := hf
    obtain ⟨hh, hb⟩ := hf.arrives hn c hp ho hd hdr
    have hb := hb bs hbs
    rw [hh, Program.chain_eq hr hd hdr, List.map_append]
    split at hb
    case isTrue hz =>
      subst hb
      rw [if_pos hz]
      exact ⟨[], .nil, .refl _⟩
    case isFalse hz =>
      obtain ⟨b, rfl, hb⟩ := hb
      rw [if_neg hz]
      refine ⟨[_], .cons ⟨_, Nat.mod_lt _ (by omega), hz, hb, rfl⟩ .nil, ?_⟩
      rw [List.flatten_singleton]

end Chain

section Fan

variable (c : maps.Complete n) (hp : maps.Ports n)
include c hp

-- What the copies with the numbers `is` come to.
theorem Frame.Brings.spreads (hf : f.Brings op root h data src dst) (hd : dst < n)
    (hv : maps.numProcess 0#32 = some v) (is : List Nat) (his : ∀ i ∈ is, i < n) :
    let o := Outcome.concat (is.map fun i => relay maps f ((f.dstHost + BitVec.ofNat 32 (i + 1)) % v.setWidth 32))
    ∀ bs, List.Forall₂ Frame.Reflected o.sent bs →
      (∀ b ∈ bs, ∃ d < n, d ≠ root ∧ b.Brings op root h data dst d) ∧
      (o.handed.map Frame.delivery ++ bs.map Frame.delivery).Perm (is.map fun i =>
        if (dst + (i + 1)) % n = root ∨ (dst + (i + 1)) % n = dst then parcel h data src dst
        else parcel h data dst ((dst + (i + 1)) % n)) := by
  induction is with
  | nil =>
    intro o bs hbs
    obtain rfl := List.forall₂_nil_left_iff.mp hbs
    exact ⟨by simp, .refl _⟩
  | cons i is hi =>
    intro o bs hbs
    have hlt := his i List.mem_cons_self
    have hx := c.next_toNat hv (hf.bcast.dst ▸ hd) (k := i + 1) (by omega)
    rw [hf.bcast.dst] at hx
    have hx' := hx ▸ Nat.mod_lt (dst + (i + 1)) (y := n) (by omega)
    have hi := hi fun j hj => his j (List.mem_cons_of_mem _ hj)
    by_cases hz : (dst + (i + 1)) % n = root ∨ (dst + (i + 1)) % n = dst
    case pos =>
      have hs := hf.bcast.relay_stop c hd hx' (hx.symm ▸ hz)
      simp only [o, List.map_cons, Outcome.concat, List.flatMap_cons, hs, List.nil_append] at hbs
      obtain ⟨hb, hperm⟩ := hi bs hbs
      refine ⟨hb, ?_⟩
      simp only [o, List.map_cons, Outcome.concat, List.flatMap_cons, hs, if_pos hz, hf.delivery,
        List.cons_append]
      exact hperm.cons _
    case neg =>
      obtain ⟨hnr, hnd⟩ := not_or.mp hz
      obtain ⟨info, hinfo, hs⟩ := hf.bcast.relay_send c hd hx' (hx ▸ hnr) (hx ▸ hnd)
      obtain ⟨_, hback⟩ := hf.readdressed hd hx' hp hinfo
      simp only [o, List.map_cons, Outcome.concat, List.flatMap_cons, hs, List.singleton_append] at hbs
      cases hbs with | @cons _ b _ bs hb hbs =>
      have hb := hback b hb
      rw [hx] at hb
      obtain ⟨hbs, hperm⟩ := hi bs hbs
      refine ⟨List.forall_mem_cons.mpr ⟨⟨_, hx ▸ hx', hnr, hb⟩, hbs⟩, ?_⟩
      simp only [o, List.map_cons, Outcome.concat, List.flatMap_cons, hs, if_neg hz, List.nil_append, hb.delivery]
      exact List.perm_middle.trans (hperm.cons _)

theorem fan_accounts (hn : 2 ≤ n) (hr : root < n) : World.Accounts (Xdp.handle maps) fun f ys =>
    f.Brings .bcastLinear root h data root ((root + 1) % n) ∧
        ys = (fan n root).map (fun r => parcel h data (Program.source .xdp .bcastLinear n root r) r) ∨
      ∃ d < n, d ≠ root ∧ f.Brings .bcastLinear root h data ((root + 1) % n) d ∧ ys = [f.delivery] := by
  obtain ⟨v, hv, _⟩ := c.numProcess
  have hd : (root + 1) % n < n := Nat.mod_lt _ (by omega)
  have hdr : (root + 1) % n ≠ root := Cycle.add_mod_ne hr (by omega) (by omega)
  have hlater {f : Frame} {d : Nat} (hdr' : d ≠ root) (hf : f.Brings .bcastLinear root h data ((root + 1) % n) d) :
      Xdp.handle maps f = { handed := [f] } := by
    have hs : f.rootHost ≠ f.srcHost := by rwa [Ne, hf.bcast.root_eq_iff, hf.bcast.src]
    exact Xdp.handle_linear_not_src hf.bcast.mpi.live hv hf.bcast.opcode (hf.bcast.root_ne_dst hdr') hs
  have hfirst {f : Frame} (hf : f.Brings .bcastLinear root h data root ((root + 1) % n)) :=
    Xdp.handle_linear hf.bcast.mpi.live hv hf.bcast.opcode (hf.bcast.root_ne_dst hdr)
      (hf.bcast.root_eq_iff.mpr hf.bcast.src)
  constructor
  case hands =>
    rintro f ys (⟨hf, _⟩ | ⟨d, _, hdr', hf, _⟩)
    · rw [hfirst hf]
      simp [Outcome.append]
    · rw [hlater hdr' hf]
      simp
  case pays =>
    rintro f ys (⟨hf, rfl⟩ | ⟨d, _, hdr', hf, rfl⟩) bs hbs
    · have hh := hfirst hf
      rw [c.setWidth hv] at hh
      rw [hh] at hbs ⊢
      obtain ⟨hb, hperm⟩ := hf.spreads c hp hd hv (List.range n) (fun i => List.mem_range.mp) bs hbs
      refine ⟨bs.map fun b => [b.delivery], ?_, ?_⟩
      · rw [List.forall₂_map_right_iff, List.forall₂_same]
        intro b hm
        obtain ⟨d, hd, hdr', hb⟩ := hb b hm
        exact .inr ⟨d, hd, hdr', hb, rfl⟩
      · have hflat : (bs.map fun b => [b.delivery]).flatten = bs.map Frame.delivery := by
          rw [← List.flatMap_def, List.map_eq_flatMap]
        have hsource (r : Nat) : Program.source .xdp .bcastLinear n root r =
            if r = (root + 1) % n then root else (root + 1) % n := rfl
        rw [hflat, fan, List.map_cons, List.map_map]
        simp only [Outcome.append, List.map_cons, List.cons_append, hf.delivery, hsource, if_true]
        refine (hperm.cons _).trans (.of_eq ?_)
        congr 1
        refine List.map_congr_left fun i _ => ?_
        rw [Function.comp_apply]
        split
        case isTrue     => rw [if_pos rfl]
        case isFalse hz => rw [if_neg fun he => hz (.inr he)]
    · rw [hlater hdr' hf] at hbs ⊢
      obtain rfl := List.forall₂_nil_left_iff.mp hbs
      exact ⟨[], .nil, .refl _⟩

end Fan

-- What a broadcast of `root` comes to in the end.
def Program.spread (p : Program) (op : MPICollective) (n root : Nat) (h : Header) (data : List Byte) :
    List (BitVec 16 × List Byte) :=
  ((List.range n).flatMap fun r => List.replicate (p.copies op n root r) r).map fun r =>
    parcel h data (p.source op n root r) r

theorem bcast_accounts (h : Header) (data : List Byte) (p : Program) (hn : 2 ≤ n) (hr : root < n)
    (c : maps.Complete n) (hp : maps.Ports n) (ho : op = .bcastRing ∨ op = .bcastLinear) :
    ∃ Y, World.Accounts (p.handle maps) Y ∧
      ∀ f, f.Brings op root h data root ((root + 1) % n) → ∃ ys, Y f ys ∧ ys.Perm (p.spread op n root h data) := by
  have hd : (root + 1) % n < n := Nat.mod_lt _ (by omega)
  have hdr : (root + 1) % n ≠ root := Cycle.add_mod_ne hr (by omega) (by omega)
  have hpred : ((root + 1) % n + n - 1) % n = root := by
    rw [Cycle.add_mod_pred (by omega) root 0, Nat.add_zero, Nat.mod_eq_of_lt hr]
  by_cases hl : op = .bcastLinear ∧ p = .xdp
  case pos =>
    obtain ⟨rfl, rfl⟩ := hl
    exact ⟨_, fan_accounts c hp hn hr, fun f hf => ⟨_, .inl ⟨hf, rfl⟩, (fan_perm hn hr).map _⟩⟩
  case neg =>
    have ho : op = .bcastRing ∨ op = .bcastLinear ∧ p = .tc := by
      cases p <;> tauto
    refine ⟨_, chain_accounts hn hr c hp ho, fun f hf => ⟨_, ⟨_, hd, hdr, by rwa [hpred], rfl⟩, ?_⟩⟩
    have hs (r : Nat) : p.source op n root r = (r + n - 1) % n := by
      rcases ho with rfl | ⟨rfl, rfl⟩
      · cases p <;> rfl
      · rfl
    have hdist : Cycle.distance n ((root + 1) % n) root = n - 1 := by
      have h := Cycle.distance_add hd (show n - 1 < n by omega)
      rwa [← Nat.add_sub_assoc (by omega), hpred] at h
    rw [Program.chain, hdist]
    simp only [Program.spread, hs]
    refine .map _ (.trans (.of_eq ?_) (hops_perm hn hr ho))
    exact List.flatMap_congr fun i _ => by rw [Nat.mod_add_mod]

-- The opcode, where the message is one that goes from rank to rank.
def forwardedAs (h : Header) : Option MPICollective :=
  match MPICollective.ofCode h.collective.toNat with
  | some .bcastRing   => some .bcastRing
  | some .bcastLinear => some .bcastLinear
  | _                 => none

-- The messages of the library: a broadcast is for the rank behind its root. The XDP program makes something else of
-- those of the broadcast over a tree.
structure Program.Takes (p : Program) (n : Nat) (h : Header) : Prop where
  src  : h.src.toNat < n
  dst  : h.dst.toNat < n
  ne   : h.src ≠ h.dst
  tree : MPICollective.ofCode h.collective.toNat = some .bcast → p = .tc
  next : ∀ op, forwardedAs h = some op → h.root = h.src ∧ h.dst.toNat = (h.src.toNat + 1) % n

-- What becomes of a message in the end.
def Program.arrivals (p : Program) (n : Nat) (h : Header) (data : List Byte) : List (BitVec 16 × List Byte) :=
  match forwardedAs h with
  | some op => p.spread op n h.root.toNat h data
  | none    => [parcel h data h.src.toNat h.dst.toNat]

section Messages

variable {p : Program} {h : Header} {data : List Byte}

theorem forwardedAs_some (ho : forwardedAs h = some op) :
    MPICollective.ofCode h.collective.toNat = some op ∧ (op = .bcastRing ∨ op = .bcastLinear) := by
  rw [forwardedAs] at ho
  split at ho
  case h_1 hc =>
    cases ho
    exact ⟨hc, .inl rfl⟩
  case h_2 hc =>
    cases ho
    exact ⟨hc, .inr rfl⟩
  case h_3 => contradiction

theorem forwardedAs_none (ho : forwardedAs h = none) : MPICollective.ofCode h.collective.toNat ≠ some .bcastRing ∧
    MPICollective.ofCode h.collective.toNat ≠ some .bcastLinear := by
  rw [forwardedAs] at ho
  split at ho
  case h_1 | h_2    => contradiction
  case h_3 hr hl => exact ⟨hr, hl⟩

theorem Frame.message_starts (hm : f.message = h.encode ++ data) :
    f.payload + mpiHeader ≤ f.len ∧ f.data.read f.payload 4 = magic := by
  have hl := congrArg List.length hm
  simp only [message, Mem.read_length, List.length_append, h.encode_length, mpiHeader] at hl
  refine ⟨by simp only [mpiHeader]; omega, ?_⟩
  rw [← Mem.read_take f.data f.payload (n := f.len - f.payload) (by omega),
    show f.data.read f.payload (f.len - f.payload) = h.encode ++ data from hm, Header.encode, List.append_assoc]
  rfl

theorem Frame.message_header (hm : f.message = h.encode ++ data) :
    f.rootHost = h.root ∧ f.opcodeHost = h.collective := by
  have hl : mpiHeader ≤ f.len - f.payload := by
    have := congrArg List.length hm
    simp only [message, Mem.read_length, List.length_append, h.encode_length] at this
    omega
  obtain ⟨hr, _, _, ho⟩ := f.decode_read hl
  rw [show f.data.read f.payload (f.len - f.payload) = h.encode ++ data from hm, h.decode_encode] at hr ho
  exact ⟨hr.symm, ho.symm⟩

theorem Frame.message_opcode (f : Frame) (hm : f.message = h.encode ++ data) :
    f.opcode = MPICollective.ofCode h.collective.toNat := by
  rw [opcode, (message_header hm).right]

theorem Frame.Brings.of_message (hf : f.Mpi) (ha : f.Addressed) (hm : f.message = h.encode ++ data)
    (ho : MPICollective.ofCode h.collective.toNat = some op) (hr : h.root.toNat = root) (hs : h.src.toNat = src)
    (hd : h.dst.toNat = dst) : f.Brings op root h data src dst := by
  obtain ⟨hs', hd'⟩ := f.message_ranks hm
  refine ⟨⟨hf, (f.message_opcode hm).trans ho, ?_, hs' ▸ hs, hd' ▸ hd⟩, ha, ?_⟩
  · rw [(message_header hm).left, hr]
  · rw [hs', hd', hm]

theorem Program.Takes.two_le (ht : p.Takes n h) : 2 ≤ n := by
  have hs := ht.src
  have hd := ht.dst
  have hne := mt BitVec.eq_of_toNat_eq ht.ne
  omega

theorem Xdp.handle_plain (m : f.Live) (hv : maps.numProcess 0#32 = some v) (hb : f.opcode ≠ some .bcast)
    (hr : f.opcode ≠ some .bcastRing) (hl : f.opcode ≠ some .bcastLinear) : handle maps f = { handed := [f] } := by
  cases ho : f.opcode with
  | none    => simp [handle, handleOriginal_live m hv, ho, copyOutcome]
  | some op =>
    rw [ho] at hb hr hl
    cases op
    case bcast       => exact absurd rfl hb
    case bcastRing   => exact absurd rfl hr
    case bcastLinear => exact absurd rfl hl
    all_goals simp [handle, handleOriginal_live m hv, ho, copyOutcome]

theorem Tc.handle_plain (m : f.Live) (hr : f.opcode ≠ some .bcastRing) (hl : f.opcode ≠ some .bcastLinear) :
    handle maps f = { handed := [f] } := by
  obtain ⟨h₁, h₂, _⟩ := m.len_lt
  have hz : ¬(0#32 = magickMark) := by decide
  have ho : handleOriginal maps 0 ⟨f, 0#32⟩ = { action := .ok, skb := ⟨f, 0#32⟩ } := by
    simp only [Frame.opcode] at hr hl
    rw [handleOriginal, if_neg h₂, if_neg h₁, if_neg (by simp [m.magic])]
    split
    case h_2 ho => exact absurd ho hr
    case h_3 ho => exact absurd ho hl
    all_goals rfl
  simp [handle, kfunc, hz, parseIpPacket_live m, m.saddr, ho, Outcome.append, Outcome.concat, Run.own]

theorem plain_accounts (p : Program) (c : maps.Complete n) : World.Accounts (p.handle maps) fun f ys =>
    f.Live ∧ f.opcode ≠ some .bcastRing ∧ f.opcode ≠ some .bcastLinear ∧ (f.opcode = some .bcast → p = .tc) ∧
      ys = [f.delivery] := by
  obtain ⟨v, hv, _⟩ := c.numProcess
  have hh {f : Frame} (m : f.Live) (hr : f.opcode ≠ some .bcastRing) (hl : f.opcode ≠ some .bcastLinear)
      (hb : f.opcode = some .bcast → p = .tc) : p.handle maps f = { handed := [f] } := by
    cases p with
    | xdp => exact Xdp.handle_plain m hv (fun ho => by cases hb ho) hr hl
    | tc  => exact Tc.handle_plain m hr hl
  constructor
  case hands =>
    rintro f ys ⟨m, hr, hl, hb, _⟩
    rw [hh m hr hl hb]
    simp
  case pays =>
    rintro f ys ⟨m, hr, hl, hb, rfl⟩ bs hbs
    rw [hh m hr hl hb] at hbs ⊢
    obtain rfl := List.forall₂_nil_left_iff.mp hbs
    exact ⟨[], .nil, .refl _⟩

theorem parcel_self (h : Header) (data : List Byte) : parcel h data h.src.toNat h.dst.toNat =
    (BitVec.ofNat 16 (basePort + h.dst.toNat), h.encode ++ data) := by
  simp [parcel]

theorem message_accounts (data : List Byte) (ht : p.Takes n h) (c : maps.Complete n) (hp : maps.Ports n) :
    ∃ Y, World.Accounts (p.handle maps) Y ∧ ∀ f : Frame, f.Mpi → f.Addressed → f.message = h.encode ++ data →
      ∃ ys, Y f ys ∧ ys.Perm (p.arrivals n h data) := by
  cases ho : forwardedAs h with
  | some op =>
    obtain ⟨hc, hor⟩ := forwardedAs_some ho
    obtain ⟨hr, hnext⟩ := ht.next op ho
    obtain ⟨Y, hY, hy⟩ := bcast_accounts h data p ht.two_le (hr ▸ ht.src) c hp hor
    refine ⟨Y, hY, fun f hm ha hmsg => ?_⟩
    obtain ⟨ys, hf, hperm⟩ := hy f (.of_message hm ha hmsg hc rfl (hr ▸ rfl) (hr ▸ hnext))
    rw [Program.arrivals, ho]
    exact ⟨ys, hf, hperm⟩
  | none =>
    obtain ⟨hnr, hnl⟩ := forwardedAs_none ho
    refine ⟨_, plain_accounts p c, fun f hm ha hmsg => ?_⟩
    obtain ⟨_, hd⟩ := f.message_ranks hmsg
    have hop := f.message_opcode hmsg
    refine ⟨_, ⟨hm.live, hop ▸ hnr, hop ▸ hnl, fun hb => ht.tree (hop ▸ hb), rfl⟩, .of_eq ?_⟩
    rw [Program.arrivals, ho, parcel_self, Frame.delivery, ha, hmsg, hd]

-- However the packets of any messages follow each other, every message comes to the same.
theorem messages_accounts (p : Program) (c : maps.Complete n) (hp : maps.Ports n) :
    ∃ Y, World.Accounts (p.handle maps) Y ∧ ∀ h data, p.Takes n h → ∀ f : Frame, f.Mpi → f.Addressed →
      f.message = h.encode ++ data → ∃ ys, Y f ys ∧ ys.Perm (p.arrivals n h data) := by
  have hm (m : { m : Header × List Byte // p.Takes n m.1 }) := message_accounts m.val.2 m.property c hp
  choose Y hY hy using hm
  refine ⟨fun f ys => ∃ m, Y m f ys, .any hY, fun h data ht f hf ha hmsg => ?_⟩
  obtain ⟨ys, hys, hperm⟩ := hy ⟨(h, data), ht⟩ f hf ha hmsg
  exact ⟨ys, ⟨_, hys⟩, hperm⟩

-- A packet with this message, as it arrives at the program.
def Frame.Holds (f : Frame) (m : Header × List Byte) : Prop :=
  f.Mpi ∧ f.Addressed ∧ f.message = m.1.encode ++ m.2

theorem Frame.ofMessage_holds {m : Header × List Byte} {sport dport : BitVec 16}
    (hd : dport = BitVec.ofNat 16 (basePort + m.1.dst.toNat)) :
    (ofMessage sport dport (m.1.encode ++ m.2)).Holds m := by
  refine ⟨ofMessage_mpi ?_ ?_, ofMessage_addressed m.1 dport m.2 hd, ?_⟩
  · rw [List.length_append, m.1.encode_length]
    omega
  · rw [Header.encode, List.append_assoc]
    rfl
  · rw [message, ofMessage_payload, ofMessage_len, Nat.add_sub_cancel_left]
    exact ofMessage_read

-- Nothing is lost and nothing comes twice but the copies of the broadcasts, and the packets do not go on forever.
theorem messages_handed (p : Program) (c : maps.Complete n) (hp : maps.Ports n) {ms : List (Header × List Byte)}
    {fs : List Frame} {w : World} (ht : ∀ m ∈ ms, p.Takes n m.1) (hf : List.Forall₂ Frame.Holds fs ms)
    (h : World.Reaches (p.handle maps) { flight := fs } w) :
    (w.flight = [] → (w.handed.map Frame.delivery).Perm (ms.flatMap fun m => p.arrivals n m.1 m.2)) ∧
      (∃ w', World.Reaches (p.handle maps) w w' ∧ w'.flight = []) := by
  obtain ⟨Y, ha, hy⟩ := messages_accounts p c hp
  obtain ⟨yss, hfy, hperm⟩ : ∃ yss, List.Forall₂ Y fs yss ∧
      yss.flatten.Perm (ms.flatMap fun m => p.arrivals n m.1 m.2) := by
    clear h
    induction hf
    case nil => exact ⟨[], .nil, .refl _⟩
    case cons f m fs ms hfm _ hi =>
      obtain ⟨hm, hms⟩ := List.forall_mem_cons.mp ht
      obtain ⟨ys, hys, hp⟩ := hy m.1 m.2 hm f hfm.left hfm.right.left hfm.right.right
      obtain ⟨yss, hyss, hps⟩ := hi hms
      exact ⟨ys :: yss, .cons hys hyss, hp.append hps⟩
  exact ⟨fun he => (ha.handed hfy h he).trans hperm, ha.ends hfy h⟩

-- Broadcasts of two ranks over a ring and with a fan, and a message for one rank, all at once.
theorem messages_handed_three :
    let broadcast (src : Nat) (op : MPICollective) : Header :=
      { root := BitVec.ofNat 32 src, src := BitVec.ofNat 32 src, dst := BitVec.ofNat 32 ((src + 1) % 3)
        collective := BitVec.ofNat 32 op.code, datatype := 0, len := 1, tag := 1, seq := 0, id := 0 }
    let ms := [(broadcast 0 .bcastRing, [1]), (broadcast 2 .bcastLinear, [2]), (broadcast 1 .send, [3])]
    let fs := ms.map fun m =>
      Frame.ofMessage 0 (BitVec.ofNat 16 (basePort + m.1.dst.toNat)) (m.1.encode ++ m.2)
    ∃ w, World.Reaches (Program.xdp.handle (.filled 3)) { flight := fs } w ∧ w.flight = [] ∧
      (w.handed.map Frame.delivery).Perm (ms.flatMap fun m => Program.xdp.arrivals 3 m.1 m.2) := by
  intro broadcast ms fs
  have ht : ∀ m ∈ ms, Program.xdp.Takes 3 m.1 := by
    intro m hm
    simp only [ms, List.mem_cons, List.not_mem_nil, or_false] at hm
    rcases hm with rfl | rfl | rfl
    all_goals refine ⟨by decide, by decide, by decide, fun hb => (by cases hb), fun op ho => ?_⟩
    · cases ho
      decide
    · cases ho
      decide
    · cases ho
  have hf : List.Forall₂ Frame.Holds fs ms := by
    rw [List.forall₂_map_left_iff, List.forall₂_same]
    intro m _
    exact Frame.ofMessage_holds rfl
  obtain ⟨_, w, h, he⟩ := messages_handed .xdp (Maps.filled_complete (by decide)) (Maps.filled_ports (by decide)) ht hf
    .refl
  have hperm := (messages_handed .xdp (Maps.filled_complete (by decide)) (Maps.filled_ports (by decide)) ht hf h).left
  exact ⟨w, h, he, hperm he⟩

end Messages

end Kernel

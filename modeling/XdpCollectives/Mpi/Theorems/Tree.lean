import XdpCollectives.Kernel.Theorems.Journey
import XdpCollectives.Kernel.Theorems.Tree
import XdpCollectives.Mpi.Theorems.Stored

-- The packets of `mpi_bcast_xdp` and what the program in the kernel makes of them.
namespace Mpi

open Memory Wire Process Kernel

variable {p : ProcessInfo} {n : Nat} {maps : Maps}

-- A datagram has the header of a broadcast along the tree of `root`.
def Grown (root src : Nat) (e : Event Note) : Prop :=
  ∀ q d, e = .sendto q d → ∃ h data, d = Header.encode h ++ data ∧ h.root = BitVec.ofNat 32 root ∧
    h.src = BitVec.ofNat 32 src ∧ h.dst = BitVec.ofNat 32 q ∧ h.collective = BitVec.ofNat 32 MPICollective.bcast.code

def SameRank (p q : ProcessInfo) : Prop :=
  q.rank = p.rank ∧ q.size = p.size

theorem sendto_grown {h : Header} (hroot : h.root = BitVec.ofNat 32 root) (hsrc : h.src = BitVec.ofNat 32 src)
    (hdst : h.dst = BitVec.ofNat 32 dest) (hc : h.collective = BitVec.ofNat 32 MPICollective.bcast.code)
    (data : Bytes) :
    Keeps (Grown root src) (p.sendto (dest : Nat) (h.encode ++ data)) fun _ => True := by
  refine .ite (fun _ => .done _) fun _ => .sendto ?_ (.done _)
  rintro q d ⟨⟩
  exact ⟨h, data, rfl, hroot, hsrc, hdst, hc⟩

section Send

variable (p) (buf : Mem) (datatype : MPIDatatype) (root dest : Nat) (tag : Int)

theorem _mpiSendFragments_grown (size N es fuel seq : Nat) :
    Keeps (Grown root p.rank) (_mpiSendFragments p buf size N es datatype root dest tag .bcast fuel seq)
      fun _ => True := by
  induction fuel generalizing seq
  case zero => exact .done _
  case succ fuel hi =>
    refine .ite (fun _ => .done _) fun _ => .ite (fun _ => .fault) fun _ => ?_
    simp only [List.append_assoc]
    refine (sendto_grown rfl rfl rfl rfl _).bind fun sent _ => .ite (fun _ => .done _) fun _ => hi (seq + 1)

theorem _mpiSend_grown (count : Int) :
    Keeps (Grown root p.rank) (_mpiSend p buf count datatype root dest tag .bcast) fun x => SameRank p x.2 := by
  refine .ite (fun _ => .ret ⟨rfl, rfl⟩) fun _ => .ite (fun _ => .fault) fun _ => .ite (fun _ => ?_) fun _ => ?_
  · exact (_mpiSendFragments_grown _ _ _ _ _ _ _ _ _ _ _).bind fun sent _ =>
      .ite (fun _ => .ret ⟨rfl, rfl⟩) fun _ => .ret ⟨rfl, rfl⟩
  · exact .ite (fun _ => .fault) fun _ => (sendto_grown rfl rfl rfl rfl _).bind fun sent _ =>
      .ite (fun _ => .ret ⟨rfl, rfl⟩) fun _ => .ret ⟨rfl, rfl⟩

theorem sendChildren_grown (count : Int) :
    Keeps (Grown root p.rank) (sendChildren p buf count datatype root tag) (SameRank p) := by
  refine (_mpiSend_grown _ _ _ _ _ _ _).bind fun ⟨_, q⟩ ⟨hrank, hsize⟩ => ?_
  rw [← hrank]
  refine (_mpiSend_grown _ _ _ _ _ _ _).bind fun ⟨_, r⟩ ⟨hrank', hsize'⟩ => .ret ?_
  exact ⟨hrank'.trans hrank, hsize'.trans hsize⟩

end Send

-- The root is rank 0.
theorem mpiBcastXdp_root (h : p.rank = 0) (buf : Mem) (count : Int) (datatype : MPIDatatype) :
    mpiBcastXdp p buf count datatype 0 =
      (sendChildren p buf count datatype 0 1).bind fun p => .ret (0, buf, p) := by
  simp only [mpiBcastXdp, h]
  rfl

-- A packet from 192.168.101.2 that brings this datagram to the UDP socket of a rank.
structure Packet (f : Frame) (dest : Nat) (d : Bytes) : Prop where
  mpi     : f.Mpi
  message : f.message = d
  port    : f.udpDest = BitVec.ofNat 16 (basePort + dest)

theorem Packet.planted {f : Frame} {d : Bytes} (hf : Packet f dest d) (hd : dest < 2 ^ 32)
    (h : Grown 0 0 (.sendto dest d)) : Xdp.Planted f dest := by
  have ⟨h, data, he, hroot, hsrc, hdst, hc⟩ := h dest d rfl
  have hl : mpiHeader ≤ f.len - f.payload := Nat.le_sub_of_add_le (by rw [Nat.add_comm]; exact hf.mpi.fits)
  have ⟨h₁, h₂, h₃, h₄⟩ := f.decode_read hl
  rw [show f.data.read f.payload (f.len - f.payload) = h.encode ++ data from hf.message.trans he, h.decode_encode]
    at h₁ h₂ h₃ h₄
  have hdst' : f.dstHost.toNat = dest := by
    rw [← h₃, hdst, BitVec.toNat_ofNat]
    exact Nat.mod_eq_of_lt hd
  exact {
    bcast     := {
      mpi    := hf.mpi
      opcode := by
        rw [Frame.opcode, ← h₄, hc]
        rfl
      root   := by rw [← h₁, hroot]; rfl
      src    := by rw [← h₂, hsrc]; rfl
      dst    := hdst' }
    addressed := by rw [Frame.Addressed, hf.port, hdst'] }

-- Whatever the number of ranks, and whatever other packets there are.
theorem mpiBcastXdp_not_tree {garbage buf : Mem} {count : Int} {datatype : MPIDatatype} {t : List (Event Note)}
    {y : Program (Int × Mem × ProcessInfo)} {d : Bytes} {f : Frame} (hn : 2 ≤ n) (c : maps.Complete n)
    (hp : maps.Ports n) (hd : Does (mpiBcastXdp (.init n 0 garbage) buf count datatype 0) t y)
    (hs : .sendto ((2 * 0 + 1) % n) d ∈ t) (hf : Packet f ((2 * 0 + 1) % n) d) (fs : List Frame) :
    ¬Xdp.TreeBroadcast (Xdp.handle maps) n (f :: fs) := by
  have h1 : (2 * 0 + 1) % n = 1 := Nat.mod_eq_of_lt hn
  rw [h1] at hs hf
  rw [mpiBcastXdp_root rfl] at hd
  have hkeeps : Keeps (Grown 0 0) ((sendChildren (.init n 0 garbage) buf count datatype 0 1).bind fun p =>
      .ret ((0 : Int), buf, p)) fun _ => True :=
    (sendChildren_grown (.init n 0 garbage) buf datatype 0 1 count).bind fun _ _ => .done _
  have hplanted := hf.planted (by decide) ((hkeeps t y hd).left _ hs)
  intro h
  have ⟨w, hw, r, hr⟩ := Xdp.tree_delivered_twice fs c hp hn hplanted
  have := h.once w hw r
  omega

theorem packet_ofMessage (sport : BitVec 16) (dest : Nat) (h : Header) (data : Bytes) :
    Packet (.ofMessage sport (BitVec.ofNat 16 (basePort + dest)) (h.encode ++ data)) dest (h.encode ++ data) where
  mpi     := Frame.ofMessage_mpi (by simp [h.encode_length]) (by rw [Header.encode, List.append_assoc]; rfl)
  message := by
    rw [Frame.message, Frame.ofMessage_payload, Frame.ofMessage_len, Nat.add_sub_cancel_left]
    exact Frame.ofMessage_read
  port    := Frame.ofMessage_udpDest

-- Rank 0 of three broadcasts one character.
def threeRanks : ProcessInfo := .init 3 0 fun _ => 0

def toChild (dest : Nat) : Bytes :=
  (header threeRanks 0 dest .bcast .char 1 1 0 0).encode ++ [65]

theorem does_three : ∃ x, Does (mpiBcastXdp threeRanks (fun _ => 65) 1 .char 0)
    [.sendto 1 (toChild 1), .sendto 2 (toChild 2)] (.ret x) :=
  ⟨_, .step .sendto (.step .sendto .refl)⟩

theorem mpiBcastXdp_not_tree_three : ¬Xdp.TreeBroadcast (Xdp.handle (.filled 3)) 3
    [.ofMessage 5000 5001 (toChild 1), .ofMessage 5000 5002 (toChild 2)] :=
  have ⟨_, hd⟩ := does_three
  mpiBcastXdp_not_tree (by decide) (Maps.filled_complete (by decide)) (Maps.filled_ports (by decide)) hd
    List.mem_cons_self (packet_ofMessage 5000 1 _ _) _

theorem not_treeBroadcast_three :
    ¬∀ (n : Nat) (maps : Maps) (garbage buf : Mem) (count : Int) (datatype : MPIDatatype) (t : List (Event Note))
      (x : Int × Mem × ProcessInfo) (d₁ d₂ : Bytes) (f₁ f₂ : Frame), 2 ≤ n → maps.Complete n → maps.Ports n →
      Does (mpiBcastXdp (.init n 0 garbage) buf count datatype 0) t (.ret x) → .sendto 1 d₁ ∈ t → .sendto 2 d₂ ∈ t →
      Packet f₁ 1 d₁ → Packet f₂ 2 d₂ → Xdp.TreeBroadcast (Xdp.handle maps) n [f₁, f₂] := by
  intro h
  have ⟨x, hd⟩ := does_three
  have h₁ := packet_ofMessage 5000 1 (header threeRanks 0 (1 : Nat) .bcast .char 1 1 0 0) [65]
  have h₂ := packet_ofMessage 5000 2 (header threeRanks 0 (2 : Nat) .bcast .char 1 1 0 0) [65]
  have hc : (Maps.filled 3).Complete 3 := Maps.filled_complete (by decide)
  have hp : (Maps.filled 3).Ports 3 := Maps.filled_ports (by decide)
  have ht := h 3 (.filled 3) (fun _ => 0) (fun _ => 65) 1 .char _ x _ _ _ _ (by decide) hc hp hd List.mem_cons_self
    (List.mem_cons_of_mem _ List.mem_cons_self) h₁ h₂
  have ⟨k, hk⟩ := ht.finite
  have hg (dest : Nat) : Grown 0 0 (.sendto dest (toChild dest)) := by
    rintro q d ⟨⟩
    exact ⟨_, _, rfl, rfl, rfl, rfl, rfl⟩
  have ⟨w, hw, hlen⟩ := Xdp.tree_endless hc hp (by decide) (by decide) (h₁.planted (by decide) (hg 1))
    (h₂.planted (by decide) (hg 2)) (k + 1)
  have := hk w hw
  omega

end Mpi

import XdpCollectives.Mpi.Forwarding
import XdpCollectives.Mpi.Theorems.Mixing

-- The network that the programs in the kernel make of the wire.
namespace Mpi

open Memory Wire Process

variable {p : Kernel.Program} {n r : Nat} {late : Nat → Bool}

-- A datagram of rank `r` that the programs know what to do with.
def Posted (p : Kernel.Program) (n r dest : Nat) (d : Bytes) : Prop :=
  ∃ (h : Header) (data : Bytes), d = h.encode ++ data ∧ h.src.toNat = r ∧ h.dst.toNat = dest ∧ p.Takes n h

-- Its opcode is one of `K`.
def Labelled (K : MPICollective → Prop) (d : Bytes) : Prop :=
  ∃ op, K op ∧ MPICollective.ofCode (Header.decode d).collective.toNat = some op

variable {K : MPICollective → Prop}

def Posts (p : Kernel.Program) (n r : Nat) (K : MPICollective → Prop) (e : Event Note) : Prop :=
  ∀ dest d, e = .sendto dest d → Posted p n r dest d ∧ Labelled K d

theorem posts_send (dest : Nat) (m : Bytes) : Posts p n r K (.send dest m) := by
  intro _ _ he
  cases he

theorem posts_recv (src : Nat) (m : Bytes) : Posts p n r K (.recv src m) := by
  intro _ _ he
  cases he

theorem posts_took (d : Bytes) : Posts p n r K (.took d) := by
  intro _ _ he
  cases he

theorem posts_timeout : Posts p n r K .timeout := by
  intro _ _ he
  cases he

theorem posts_note (e : Note) : Posts p n r K (.note e) := by
  intro _ _ he
  cases he

-- The opcode of the datagrams of a call.
def Call.collective : Call → Option MPICollective
  | .barrier                                     => none
  | .bcast .ring .. | .bcast .linear ..          => some .send
  | .bcast .ringXdp .. | .bcast .ringXdpEager .. => some .bcastRing
  | .bcast .linearXdp ..                         => some .bcastLinear

-- A message for one rank, or a broadcast of the root for the rank behind it.
def Routes (P : ProcessInfo) (root dest : Int) (collective : MPICollective) : Prop :=
  collective = .send ∨ (collective = .bcastRing ∨ collective = .bcastLinear) ∧ root = P.rank ∧ dest = P.next

section Sends

variable {P : ProcessInfo} {root dest : Int} {collective : MPICollective} (hP : P.rank = r ∧ P.size = n) (hr : r < n)
  (hn : n ≤ 2 ^ 31)
include hP hr hn

theorem posted_header (hd : P.InRange dest) (hne : dest ≠ P.rank) (hroute : Routes P root dest collective)
    (datatype : MPIDatatype) (len tag : Int) (seq : Nat) (id : BitVec 64) (data : Bytes) :
    Posted p n r dest.toNat ((header P root dest collective datatype len tag seq id).encode ++ data) := by
  obtain ⟨hrank, hsize⟩ := hP
  obtain ⟨hd₀, hd₁⟩ := hd
  let h := header P root dest collective datatype len tag seq id
  have hs : h.src.toNat = r := by
    rw [show h.src = BitVec.ofNat 32 P.rank from rfl, BitVec.toNat_ofNat, hrank, Nat.mod_eq_of_lt (by omega)]
  have hdst : h.dst.toNat = dest.toNat := by
    rw [show h.dst = BitVec.ofInt 32 dest from rfl, BitVec.toNat_ofInt]
    congr 1
    exact Int.emod_eq_of_lt hd₀ (by omega)
  have hc : MPICollective.ofCode h.collective.toNat = some collective := by
    rw [header_collective_toNat, MPICollective.ofCode_code]
  refine ⟨h, data, rfl, hs, hdst, by omega, by omega, fun he => ?_, fun hb => ?_, fun op ho => ?_⟩
  · rw [he] at hs
    omega
  · rw [hc] at hb
    rcases hroute with rfl | ⟨rfl | rfl, _⟩ <;> cases hb
  · obtain ⟨ho, hor⟩ := Kernel.forwardedAs_some ho
    cases hc.symm.trans ho
    rcases hroute with rfl | ⟨_, hroot, hdest⟩
    · rcases hor with hor | hor <;> cases hor
    · refine ⟨?_, ?_⟩
      · rw [show h.root = BitVec.ofInt 32 root from rfl, hroot, BitVec.ofInt_natCast]
        rfl
      · rw [hdst, hs, hdest, Int.toNat_natCast, ProcessInfo.next, hrank, hsize]

theorem sendto_posts (hK : K collective) (hd : P.InRange dest) (hroute : Routes P root dest collective)
    (datatype : MPIDatatype) (len tag : Int) (seq : Nat) (id : BitVec 64) (data : Bytes) : Keeps (Posts p n r K)
      (P.sendto dest ((header P root dest collective datatype len tag seq id).encode ++ data)) fun _ => True := by
  refine .ite (fun _ => .done _) fun hne => .sendto (fun dest' d he => ?_) (.done _)
  cases he
  refine ⟨posted_header hP hr hn hd hne hroute datatype len tag seq id data, collective, hK, ?_⟩
  rw [Header.decode_encode, header_collective_toNat, MPICollective.ofCode_code]

theorem _mpiSendFragments_posts (hK : K collective) (hd : P.InRange dest) (hroute : Routes P root dest collective)
    (buf : Mem) (size N es : Nat) (datatype : MPIDatatype) (tag : Int) (fuel seq : Nat) : Keeps (Posts p n r K)
      (_mpiSendFragments P buf size N es datatype root dest tag collective fuel seq) fun _ => True := by
  induction fuel generalizing seq with
  | zero => exact .done _
  | succ fuel hi =>
    refine .ite (fun _ => .done _) fun _ => .ite (fun _ => .fault) fun _ => .bind (R := fun _ => True) ?_ fun sent _ =>
      .ite (fun _ => .done _) fun _ => hi (seq + 1)
    rw [List.append_assoc]
    exact sendto_posts hP hr hn hK hd hroute _ _ _ _ _ _

theorem _mpiSend_posts (hK : K collective) (hroute : Routes P root dest collective) (buf : Mem) (count : Int)
    (datatype : MPIDatatype) (tag : Int) :
    Keeps (Posts p n r K) (_mpiSend P buf count datatype root dest tag collective)
      fun x => x.2.rank = r ∧ x.2.size = n := by
  refine .ite (fun _ => .ret hP) fun _ => .ite (fun _ => .fault) fun hin => ?_
  have hd : P.InRange dest := by tauto
  refine .ite (fun _ => ?_) fun _ => .ite (fun _ => .fault) fun _ => ?_
  · exact (_mpiSendFragments_posts hP hr hn hK hd hroute _ _ _ _ _ _ _ _).bind fun sent _ =>
      .ite (fun _ => .ret hP) fun _ => .ret hP
  · exact (sendto_posts hP hr hn hK hd hroute _ _ _ _ _ _).bind fun sent _ => .ite (fun _ => .ret hP) fun _ => .ret hP

theorem mpiSend_posts (hK : K .send) (buf : Mem) (count : Int) (datatype : MPIDatatype) (dest tag : Int) :
    Keeps (Posts p n r K) (mpiSend P buf count datatype dest tag) fun x => x.2.rank = r ∧ x.2.size = n := by
  refine (_mpiSend_posts hP hr hn hK (.inl rfl) buf count datatype tag).bind fun x hx => ?_
  refine (recvHeader_keeps x.2 posts_recv dest _).bind fun h _ => .ite (fun _ => ?_) fun _ => .ret hx
  exact (_mpiSendTcp_keeps x.2 posts_send buf count datatype _ _ tag _).bind fun _ _ => .ret hx

end Sends

theorem Posted.exists_wrapped {dest : Nat} {d : Bytes} (h : Posted p n r dest d) : ∃ f, Wrapped dest d f := by
  obtain ⟨h, data, rfl, _, rfl, _⟩ := h
  obtain ⟨hf, _, hm⟩ := @Kernel.Frame.ofMessage_holds (h, data) 0 _ rfl
  exact ⟨_, hf, Kernel.Frame.ofMessage_udpDest, hm⟩

section Calls

variable {P : ProcessInfo} {buf : Mem} {count : Int} {datatype : MPIDatatype} {root : Nat} (hr : r < n)
  (hn : n ≤ 2 ^ 31)

-- What a call does keeps to this, and leaves the rank and the number of ranks as they are.
def Call.Posting (p : Kernel.Program) (n r : Nat) (K : MPICollective → Prop)
    (x : Program (Int × Mem × ProcessInfo)) : Prop :=
  Keeps (Posts p n r K) x fun x => x.2.2.rank = r ∧ x.2.2.size = n

theorem mpiRecv_posts (hP : P.rank = r ∧ P.size = n) (buf : Mem) (count : Int) (datatype : MPIDatatype)
    (src tag : Int) : Call.Posting p n r K (mpiRecv P buf count datatype src tag) := by
  obtain ⟨rfl, rfl⟩ := hP
  exact mpiRecv_keeps P posts_send posts_recv (fun _ => posts_note _) posts_took posts_timeout buf count datatype src
    tag

include hr hn

theorem mpiBcastRing_posts (hK : K .send) (hP : P.rank = r ∧ P.size = n) :
    Call.Posting p n r K (mpiBcastRing P buf count datatype root) := by
  refine .ite (fun _ => ?_) fun _ => ?_
  · exact (mpiSend_posts hP hr hn hK buf count datatype _ _).bind fun x hx => .ret hx
  · refine (mpiRecv_posts hP buf count datatype _ _).bind fun x hx => .ite (fun _ => .ret hx) fun _ => ?_
    refine (_mpiSendTcpLostPacket_keeps _ posts_send _ _ _ _ _).bind fun _ _ =>
      .ite (fun _ => ?_) fun _ => .ret hx
    exact (mpiSend_posts hx hr hn hK _ count datatype _ _).bind fun y hy => .ret hy

theorem sendLinear_posts (hK : K .send) (hP : P.rank = r ∧ P.size = n) (tag : Int) (is : List Nat) :
    Keeps (Posts p n r K) (sendLinear buf count datatype root tag is P) fun P => P.rank = r ∧ P.size = n := by
  induction is generalizing P with
  | nil => exact .ret hP
  | cons i is hi =>
    exact .ite (fun _ => (mpiSend_posts hP hr hn hK buf count datatype _ _).bind fun x hx => hi hx) fun _ => hi hP

theorem mpiBcastLinear_posts (hK : K .send) (hP : P.rank = r ∧ P.size = n) :
    Call.Posting p n r K (mpiBcastLinear P buf count datatype root) := by
  refine .ite (fun _ => ?_) fun _ => ?_
  · exact (sendLinear_posts hr hn hK hP _ _).bind fun x hx => .ret hx
  · refine (mpiRecv_posts hP buf count datatype _ _).bind fun x hx => .ite (fun _ => .ret hx) fun _ => ?_
    exact (_mpiSendTcpLostPacket_keeps _ posts_send _ _ _ _ _).bind fun _ _ => .ret hx

theorem bcastXdp_posts (hP : P.rank = r ∧ P.size = n) {collective : MPICollective}
    (hc : collective = .bcastRing ∨ collective = .bcastLinear) (hK : K collective) (rest : Mem) :
    Call.Posting p n r K (bcastXdp collective rest P buf count datatype root) := by
  refine .ite (fun hroot => ?_) fun _ => ?_
  · refine (_mpiSend_posts hP hr hn hK (.inr ⟨hc, by rw [hroot], rfl⟩) buf count datatype _).bind fun x hx => ?_
    exact (recvAcks_keeps x.2 posts_send posts_recv buf count datatype _ _ _).bind fun _ _ => .ret hx
  · refine (mpiRecv_posts hP buf count datatype _ _).bind fun x hx => .ite (fun _ => .ret hx) fun _ => ?_
    exact (_mpiSendTcpLostPacket_keeps _ posts_send _ _ _ _ _).bind fun _ _ => .ret hx

theorem mpiBcastRingXdpEager_posts (hK : K .bcastRing) (hP : P.rank = r ∧ P.size = n) :
    Call.Posting p n r K (mpiBcastRingXdpEager P buf count datatype root) := by
  refine .ite (fun hroot => ?_) fun _ => ?_
  · have hroute : Routes P root P.next .bcastRing := .inr ⟨.inl rfl, by rw [hroot], rfl⟩
    exact (_mpiSend_posts hP hr hn hK hroute buf count datatype _).bind fun x hx => .ret hx
  · obtain ⟨rfl, rfl⟩ := hP
    exact (mpiRecvNoAck_keeps P (fun _ => posts_note _) posts_took posts_timeout buf count datatype P.prev
      ⟨rfl, rfl⟩ fun _ _ _ hq => hq.same).bind fun x hx => .ite (fun _ => .ret hx) fun _ => .ret hx

theorem Call.perform_posts (hP : P.rank = r ∧ P.size = n) (c : Call) (hK : ∀ op, c.collective = some op → K op) :
    Posting p n r K (c.perform P buf) := by
  cases c with
  | barrier =>
    refine .bind (R := fun _ => True) (.ite (fun _ => ?_) fun _ => ?_) fun _ _ => .ret hP
    · exact (_mpiSendTcp_keeps P posts_send _ _ _ _ _ _ _).bind fun _ _ =>
        (_mpiRecvTcp_keeps P posts_recv _ _ _ _).bind fun _ _ => .done _
    · exact (_mpiRecvTcp_keeps P posts_recv _ _ _ _).bind fun _ _ =>
        (_mpiSendTcp_keeps P posts_send _ _ _ _ _ _ _).bind fun _ _ => .done _
  | bcast b count datatype root =>
    cases b with
    | ring         => exact mpiBcastRing_posts hr hn (hK _ rfl) hP
    | linear       => exact mpiBcastLinear_posts hr hn (hK _ rfl) hP
    | ringXdp      => exact bcastXdp_posts hr hn hP (.inl rfl) (hK _ rfl) _
    | linearXdp    => exact bcastXdp_posts hr hn hP (.inr rfl) (hK _ rfl) _
    | ringXdpEager => exact mpiBcastRingXdpEager_posts hr hn (hK _ rfl) hP

theorem performCalls_posts (bufs : Nat → Mem) (calls : List Call) (i : Nat) (hP : P.rank = r ∧ P.size = n)
    (hK : ∀ c ∈ calls, ∀ op, c.collective = some op → K op) :
    Keeps (Posts p n r K) (performCalls bufs i calls P) fun _ => True := by
  induction calls generalizing i P with
  | nil => exact .done ()
  | cons c calls hi =>
    obtain ⟨hc, hcs⟩ := List.forall_mem_cons.mp hK
    refine .note (posts_note _) ((Call.perform_posts hr hn hP c hc).bind fun x hx => ?_)
    exact .note (posts_note _) (hi (i + 1) hx hcs)

end Calls

section Network

variable {μ : Medium} {garbage : Nat → Mem} {bufs : Nat → Nat → Mem} {calls : List Call} {s : Net Note} {dest : Nat}
  {d : Bytes} {k : Program Unit} (hn : n ≤ 2 ^ 31) (h : (network n garbage bufs calls).Reaches μ s)
  (hs : s.prog r = .sendto dest d k)
include hn h hs

-- Whatever a rank sends next in a run is a datagram of its own for another rank, with the opcode of a call.
theorem network_sends : Posted p n r dest d ∧ Labelled (fun op => ∃ c ∈ calls, c.collective = some op) d := by
  have hd := Net.does h r
  rw [hs] at hd
  have hd := hd.trans (.step .sendto .refl)
  by_cases hr : r < n
  case pos =>
    simp only [if_pos hr] at hd
    have hk : Keeps (Posts p n r fun op => ∃ c ∈ calls, c.collective = some op)
        (performCalls (bufs r) 0 calls (.init n r (garbage r))) fun _ => True :=
      performCalls_posts hr hn (bufs r) calls 0 ⟨rfl, rfl⟩ fun c hc op ho => ⟨c, hc, ho⟩
    exact ((hk _ _ hd).left _ (by simp)) _ _ rfl
  case neg =>
    simp only [if_neg hr] at hd
    have := hd.of_ret.left
    simp at this

theorem network_posts : Posted p n r dest d :=
  (network_sends hn h hs).left

end Network

section Arrivals

variable {h : Header} {data d : Bytes} {src dest : Nat} {ys ys' : List (BitVec 16 × Bytes)}

theorem reroute_encode (h : Header) (data : Bytes) (src dst : Nat) : reroute (h.encode ++ data) src dst =
    { h with src := BitVec.ofNat 32 src, dst := BitVec.ofNat 32 dst }.encode ++ data := by
  have hl : 16 ≤ h.encode.length := by
    rw [h.encode_length]
    decide
  have hr := h.encode_rerouted (BitVec.ofNat 32 src) (BitVec.ofNat 32 dst)
  rw [reroute, if_neg (by rw [List.length_append]; omega), List.take_append_of_le_length (by omega),
    List.drop_append_of_le_length hl, hr]
  simp only [List.append_assoc]

theorem forwarding_reach_lt (hd : dest < n) : ∀ q ∈ (forwarding p n late).reach src dest d, q < n := by
  intro q hq
  rw [forwarding] at hq
  dsimp only at hq
  split at hq
  case h_1 =>
    obtain ⟨r, hr, hq⟩ := List.mem_flatMap.mp hq
    rw [(List.mem_replicate.mp hq).right]
    exact List.mem_range.mp hr
  case h_2 => rwa [List.mem_singleton.mp hq]

-- The medium puts what a message comes to in the end.
theorem arrivals_eq (h : Header) (data : Bytes) (src : Nat) : p.arrivals n h data =
    ((forwarding p n late).reach src h.dst.toNat (h.encode ++ data)).map fun r =>
      (BitVec.ofNat 16 (basePort + r), (forwarding p n late).copy r (h.encode ++ data)) := by
  simp only [forwarding, forwarder, Kernel.Program.arrivals, h.decode_encode]
  cases Kernel.forwardedAs h with
  | some op => simp only [Kernel.Program.spread, reroute_encode, Kernel.parcel]
  | none    => rw [Kernel.parcel_self, List.map_singleton]

theorem inbox_append (n r : Nat) (ys ys' : List (BitVec 16 × Bytes)) :
    inbox n r (ys ++ ys') = inbox n r ys ++ inbox n r ys' := by
  simp only [inbox]
  split
  case isTrue  => rw [List.filter_append, List.map_append]
  case isFalse => rfl

theorem inbox_perm (h : ys.Perm ys') (n r : Nat) : (inbox n r ys).Perm (inbox n r ys') := by
  simp only [inbox]
  split
  case isTrue  => exact (h.filter _).map _
  case isFalse => exact .refl _

-- No two ranks have the same port.
theorem inbox_map (hb : basePort + n ≤ 2 ^ 16) {qs : List Nat} (hq : ∀ q ∈ qs, q < n) (g : Nat → Bytes) (r : Nat) :
    inbox n r (qs.map fun q => (BitVec.ofNat 16 (basePort + q), g q)) = (qs.filter (· = r)).map g := by
  rw [inbox]
  split
  case isTrue hr =>
    rw [List.filter_map, List.map_map]
    have hp : ∀ q ∈ qs, (BitVec.ofNat 16 (basePort + q) = BitVec.ofNat 16 (basePort + r) ↔ q = r) := by
      intro q hm
      have := hq q hm
      rw [← BitVec.toNat_inj, BitVec.toNat_ofNat, BitVec.toNat_ofNat, Nat.mod_eq_of_lt (by omega),
        Nat.mod_eq_of_lt (by omega)]
      omega
    congr 1
    refine List.filter_congr fun q hm => ?_
    simp only [Function.comp_apply, hp q hm]
  case isFalse hr =>
    rw [List.filter_eq_nil_iff.mpr fun q hm => ?_, List.map_nil]
    have := hq q hm
    simp only [decide_eq_true_eq]
    omega

end Arrivals

section Simulation

variable {handle : Kernel.Frame → Kernel.Outcome} {Y : Kernel.Frame → List (BitVec 16 × Bytes) → Prop} {c c' : Cluster}
  {u : Nat → List Bytes}

-- The same processes, with these datagrams before them.
def Cluster.over (c : Cluster) (u : Nat → List Bytes) : Net Note :=
  { c.net with udp := u }

-- What the ranks have before them is in their sockets, or it is still to come of the packets on their way.
def Cluster.Shows (n : Nat) (Y : Kernel.Frame → List (BitVec 16 × Bytes) → Prop) (c : Cluster) (u : Nat → List Bytes) :
    Prop :=
  ∃ yss, List.Forall₂ Y c.flight yss ∧ ∀ r, (u r).Perm (c.net.udp r ++ inbox n r yss.flatten)

-- A packet of the library comes to what the medium puts.
def Delivers (p : Kernel.Program) (n : Nat) (Y : Kernel.Frame → List (BitVec 16 × Bytes) → Prop) : Prop :=
  ∀ h data, p.Takes n h → ∀ f : Kernel.Frame, f.Mpi → f.Addressed → f.message = h.encode ++ data →
    ∃ ys, Y f ys ∧ ys.Perm (p.arrivals n h data)

theorem Cluster.posts_some {s : Net Note} {l : Net.Label} {dest : Nat} {d : Bytes} (h : posts s l = some (dest, d)) :
    ∃ q k, l = .run q ∧ s.prog q = .sendto dest d k := by
  cases l with
  | run q =>
    simp only [posts] at h
    split at h
    case h_1 hq =>
      cases h
      exact ⟨q, _, rfl, hq⟩
    case h_2 => contradiction
  | _ => simp [posts] at h

-- Whatever is taken first of a part of the datagrams can be taken of all of them.
theorem take_perm {us vs ws : List Bytes} {d : Bytes} (hv : vs[0]? = some d) (h : us.Perm (vs ++ ws)) :
    ∃ j, us[j]? = some d ∧ (us.eraseIdx j).Perm (vs.eraseIdx 0 ++ ws) := by
  cases vs with
  | nil       => simp at hv
  | cons v vs =>
    obtain rfl : v = d := Option.some.inj hv
    obtain ⟨j, hj⟩ := List.mem_iff_getElem?.mp (h.mem_iff.mpr (by simp : v ∈ v :: vs ++ ws))
    obtain ⟨hlt, hget⟩ := List.getElem?_eq_some_iff.mp hj
    refine ⟨j, hj, ?_⟩
    have hp := (List.getElem_cons_eraseIdx_perm hlt).trans h
    rw [hget] at hp
    exact hp.cons_inv

namespace Cluster.Shows

theorem arrive (ha : Kernel.World.Accounts handle Y) (hs : c.Shows n Y u) {l r bs : List Kernel.Frame}
    {f : Kernel.Frame} (flight : c.flight = l ++ f :: r)
    (reflected : List.Forall₂ Kernel.Frame.Reflected (handle f).sent bs) :
    Cluster.Shows n Y { net := hand n c.net (handle f).handed, flight := l ++ r ++ bs } u := by
  obtain ⟨yss, hy, hu⟩ := hs
  rw [flight] at hy
  obtain ⟨_, yss', hy', hp⟩ := ha.arrives hy reflected
  refine ⟨yss', hy', fun q => (hu q).trans ?_⟩
  rw [hand, List.append_assoc, ← inbox_append]
  exact (inbox_perm hp.symm n q).append_left _

theorem post (hd : Delivers p n Y) (hb : basePort + n ≤ 2 ^ 16) (hs : c.Shows n Y u) {src dest : Nat} {d : Bytes}
    {f : Kernel.Frame} (posted : Posted p n src dest d) (wrapped : Wrapped dest d f) {net : Net Note}
    (hnet : net.udp = c.net.udp) : Cluster.Shows n Y { net, flight := c.flight ++ [f] } fun q =>
      u q ++ (((forwarding p n late).reach src dest d).filter (· = q)).map fun q => (forwarding p n late).copy q d := by
  obtain ⟨yss, hy, hu⟩ := hs
  obtain ⟨h, data, rfl, _, rfl, ht⟩ := posted
  have ha : f.Addressed := by
    rw [Kernel.Frame.Addressed, wrapped.port, (f.message_ranks wrapped.message).right]
  obtain ⟨ys, hfy, hperm⟩ := hd h data ht f wrapped.mpi ha wrapped.message
  refine ⟨yss ++ [ys], List.rel_append hy (.cons hfy .nil), fun q => ?_⟩
  dsimp only
  have hq := inbox_perm hperm n q
  rw [@arrivals_eq p n late h data src, inbox_map hb (forwarding_reach_lt ht.dst)] at hq
  rw [List.flatten_append, List.flatten_singleton, inbox_append, hnet, ← List.append_assoc]
  exact (hu q).append hq.symm

-- A process that takes the first datagram of its socket takes some datagram in the network.
theorem take (hs : c.Shows n Y u) {q : Nat} {d : Bytes} (hj : (c.net.udp q)[0]? = some d) :
    ∃ j, (u q)[j]? = some d ∧ ∀ net : Net Note,
      net.udp = Function.update c.net.udp q ((c.net.udp q).eraseIdx 0) →
        Cluster.Shows n Y { c with net } (Function.update u q ((u q).eraseIdx j)) := by
  obtain ⟨yss, hy, hu⟩ := hs
  obtain ⟨j, hj', hp⟩ := take_perm hj (hu q)
  refine ⟨j, hj', fun net hnet => ⟨yss, hy, fun r => ?_⟩⟩
  dsimp only
  rw [hnet]
  by_cases hr : r = q
  case pos =>
    subst hr
    rwa [Function.update_self, Function.update_self]
  case neg =>
    rw [Function.update_of_ne hr, Function.update_of_ne hr]
    exact hu r

theorem step (ha : Kernel.World.Accounts handle Y) (hd : Delivers p n Y) (hb : basePort + n ≤ 2 ^ 16)
    (hs : c.Shows n Y u) (hposted : ∀ r dest d k, c.net.prog r = .sendto dest d k → Posted p n r dest d)
    (h : Cluster.Step n late handle c c') : ∃ u', c'.Shows n Y u' ∧
      (c'.over u' = c.over u ∨ (c.over u).Steps (forwarding p n late) (c'.over u')) := by
  cases h with
  | act first quiet step =>
    cases Net.moves_iff.mp step with
    | note hp       => exact ⟨u, hs, .inr ⟨.run _, Net.moves_iff.mpr (.note hp)⟩⟩
    | send hp       => exact ⟨u, hs, .inr ⟨.run _, Net.moves_iff.mpr (.send hp)⟩⟩
    | recv hp hne   => exact ⟨u, hs, .inr ⟨.run _, Net.moves_iff.mpr (.recv hp hne)⟩⟩
    | timeout hp hm => exact ⟨u, hs, .inr ⟨.timeout _, Net.moves_iff.mpr (.timeout hp hm)⟩⟩
    | drop hm _     => exact absurd hm Bool.false_ne_true
    | sendto hp     => simp [posts, hp] at quiet
    | take hp hj    =>
      obtain rfl := first
      obtain ⟨j, hj', hs'⟩ := hs.take hj
      exact ⟨_, hs' _ rfl, .inr ⟨.take _ j, Net.moves_iff.mpr (.take hp hj')⟩⟩
  | post posted step wrapped =>
    obtain ⟨q, k, rfl, hq⟩ := posts_some posted
    simp only [Net.step, hq, Option.some.injEq] at step
    subst step
    refine ⟨_, hs.post hd hb (hposted q _ _ k hq) wrapped ?_, .inr ⟨.run q, Net.moves_iff.mpr (.sendto hq)⟩⟩
    funext r
    exact List.append_nil _
  | arrive flight reflected => exact ⟨u, hs.arrive ha flight reflected, .inl rfl⟩

theorem reaches (ha : Kernel.World.Accounts handle Y) (hd : Delivers p n Y) (hb : basePort + n ≤ 2 ^ 16)
    {garbage : Nat → Mem} {bufs : Nat → Nat → Mem} {calls : List Call}
    (h : Cluster.Reaches n late handle ⟨network n garbage bufs calls, []⟩ c) :
    ∃ u, c.Shows n Y u ∧ (network n garbage bufs calls).Reaches (forwarding p n late) (c.over u) := by
  induction h
  case refl =>
    refine ⟨fun _ => [], ⟨[], .nil, fun r => ?_⟩, .refl⟩
    rw [List.flatten_nil, inbox, List.filter_nil, List.map_nil, ite_self]
    exact .refl _
  case tail c c' _ hstep hi =>
    obtain ⟨u, hs, hr⟩ := hi
    obtain ⟨u', hs', he | hstep⟩ := hs.step ha hd hb (fun r dest d k hp => network_posts (by omega) hr hp) hstep
    · exact ⟨u', hs', he ▸ hr⟩
    · exact ⟨u', hs', hr.tail hstep⟩

-- The packets on their way can all arrive before the processes go on.
theorem drains (ha : Kernel.World.Accounts handle Y) (hs : c.Shows n Y u) :
    ∃ c', Cluster.Reaches n late handle c c' ∧ c'.Shows n Y u ∧ c'.flight = [] ∧ c'.over u = c.over u := by
  obtain ⟨yss, hy, hu⟩ := hs
  induction hk : yss.flatten.length using Nat.strong_induction_on generalizing c yss with
  | _ k hi =>
    cases hf : c.flight with
    | nil => exact ⟨c, .refl, ⟨yss, hy, hu⟩, hf, rfl⟩
    | cons f r =>
      obtain ⟨bs, hbs⟩ := Kernel.World.exists_forall₂_reflected (handle f).sent
      have hfl : c.flight = [] ++ f :: r := hf
      let c₁ : Cluster := ⟨hand n c.net (handle f).handed, [] ++ r ++ bs⟩
      have hstep : Cluster.Step n late handle c c₁ := .arrive hfl hbs
      obtain ⟨hne, yss', hy', hp⟩ := ha.arrives (hfl ▸ hy) hbs
      have hlt := hp.length_eq
      have hpos := List.length_pos_of_ne_nil hne
      rw [List.length_append, List.length_map] at hlt
      have hu' q : (u q).Perm (c₁.net.udp q ++ inbox n q yss'.flatten) := by
        refine (hu q).trans ?_
        rw [show c₁.net.udp q = c.net.udp q ++ _ from rfl, List.append_assoc, ← inbox_append]
        exact (inbox_perm hp.symm n q).append_left _
      obtain ⟨c', hr, hs', he, ho⟩ := hi _ (by omega) (c := c₁) yss' hy' hu' rfl
      exact ⟨c', .head hstep hr, hs', he, ho⟩

theorem calm (hs : c.Shows n Y u) (he : c.flight = []) (r : Nat) : (u r).Perm (c.net.udp r) := by
  obtain ⟨yss, hy, hu⟩ := hs
  rw [he] at hy
  cases hy
  simpa [inbox] using hu r

theorem ne_nil (hs : c.Shows n Y u) (he : c.flight = []) {d : Bytes} (hm : d ∈ u r) : c.net.udp r ≠ [] :=
  List.ne_nil_of_mem ((hs.calm he r).mem_iff.mp hm)

-- Where nothing can happen any more, nothing can happen in the network.
theorem stuck (hs : c.Shows n Y u) (hposted : ∀ r dest d k, c.net.prog r = .sendto dest d k → Posted p n r dest d)
    (h : ∀ c', ¬Cluster.Step n late handle c c') (s : Net Note) : ¬(c.over u).Steps (forwarding p n late) s := by
  have he : c.flight = [] := by
    by_contra hne
    obtain ⟨f, r, hf⟩ := List.exists_cons_of_ne_nil hne
    obtain ⟨bs, hbs⟩ := Kernel.World.exists_forall₂_reflected (handle f).sent
    exact h _ (.arrive (l := []) hf hbs)
  have hact {l : Net.Label} {net : Net Note} (hl : l.First) (hq : posts c.net l = none) :
      ¬Net.Moves (alone late) c.net l net := fun hm => h _ (.act hl hq (Net.moves_iff.mpr hm))
  rintro ⟨l, hstep⟩
  cases Net.moves_iff.mp hstep with
  | note hp       =>
    have hp : c.net.prog _ = _ := hp
    exact hact (l := .run _) trivial (by simp [posts, hp]) (.note hp)
  | send hp       =>
    have hp : c.net.prog _ = _ := hp
    exact hact (l := .run _) trivial (by simp [posts, hp]) (.send hp)
  | recv hp hne   =>
    have hp : c.net.prog _ = _ := hp
    exact hact (l := .run _) trivial (by simp [posts, hp]) (.recv hp hne)
  | timeout hp hm => exact hact (l := .timeout _) trivial rfl (.timeout hp hm)
  | drop hm _     => exact absurd hm Bool.false_ne_true
  | sendto hp     =>
    have hp : c.net.prog _ = _ := hp
    obtain ⟨f, hf⟩ := (hposted _ _ _ _ hp).exists_wrapped
    exact h _ (.post (l := .run _) (by simp [posts, hp]) (Net.moves_iff.mpr (.sendto hp)) hf)
  | take hp hj   =>
    obtain ⟨d, ds, hu⟩ := List.exists_cons_of_ne_nil (hs.ne_nil he (List.mem_of_getElem? hj))
    exact hact (l := .take _ 0) rfl rfl (.take hp (by rw [hu]; rfl))

end Cluster.Shows
end Simulation

-- Whatever the order in which the packets arrive, the processes over the programs in the kernel do what they do in a
-- network whose medium puts the copies at once, and they get stuck only where these do.
theorem cluster_refines (p : Kernel.Program) (late : Nat → Bool) {maps : Kernel.Maps} (hc : maps.Complete n)
    (hp : maps.Ports n) (hb : basePort + n ≤ 2 ^ 16) {garbage : Nat → Mem} {bufs : Nat → Nat → Mem} {calls : List Call}
    {c : Cluster} (h : Cluster.Reaches n late (p.handle maps) ⟨network n garbage bufs calls, []⟩ c) :
    ∃ u, (network n garbage bufs calls).Reaches (forwarding p n late) (c.over u) ∧
      (c.flight = [] → ∀ r, (u r).Perm (c.net.udp r)) ∧
      ((∀ c', ¬Cluster.Step n late (p.handle maps) c c') → ∀ s, ¬(c.over u).Steps (forwarding p n late) s) ∧
      ∃ c', Cluster.Reaches n late (p.handle maps) c c' ∧ c'.flight = [] ∧ c'.over u = c.over u ∧
        ∀ r, (u r).Perm (c'.net.udp r) := by
  obtain ⟨Y, ha, hd⟩ := Kernel.messages_accounts p hc hp
  obtain ⟨u, hs, hr⟩ := Cluster.Shows.reaches ha hd hb h
  obtain ⟨c', hc', hs', he, ho⟩ := hs.drains ha
  refine ⟨u, hr, hs.calm, hs.stuck fun r dest d k hk => ?_, c', hc', he, ho, hs'.calm he⟩
  exact network_posts (by omega) hr hk

-- The root has sent its datagram to the other rank.
theorem cluster_refines_two :
    let calls : List Call := [.bcast .ringXdpEager 1 .char 0]
    let s := network 2 (fun _ _ => 0) (fun _ _ _ => 0) calls
    ∃ c, Cluster.Reaches 2 (fun _ => false) (Kernel.Program.xdp.handle (.filled 2)) ⟨s, []⟩ c ∧ c.flight ≠ [] ∧
      ∃ u, s.Reaches (forwarding .xdp 2 fun _ => false) (c.over u) ∧
        (c.flight = [] → ∀ r, (u r).Perm (c.net.udp r)) ∧
        ((∀ c', ¬Cluster.Step 2 (fun _ => false) (Kernel.Program.xdp.handle (.filled 2)) c c') →
          ∀ s, ¬(c.over u).Steps (forwarding .xdp 2 fun _ => false) s) ∧
        ∃ c', Cluster.Reaches 2 (fun _ => false) (Kernel.Program.xdp.handle (.filled 2)) c c' ∧ c'.flight = [] ∧
          c'.over u = c.over u ∧ ∀ r, (u r).Perm (c'.net.udp r) := by
  intro calls s
  obtain ⟨s₁, h₁, hq⟩ : ∃ s₁, s.step (Cluster.alone fun _ => false) (.run 0) = some s₁ ∧
      Cluster.posts s (.run 0) = none := ⟨_, rfl, rfl⟩
  obtain ⟨dest, d, k, hk⟩ : ∃ dest d k, s₁.prog 0 = .sendto dest d k := by
    cases h₁
    exact ⟨_, _, _, rfl⟩
  obtain ⟨f, hf⟩ := (network_posts (p := .xdp) (by decide) (.single ⟨_, h₁⟩ : s.Reaches _ s₁) hk).exists_wrapped
  have hp : Cluster.posts s₁ (.run 0) = some (dest, d) := by rw [Cluster.posts, hk]
  have hr : Cluster.Reaches 2 (fun _ => false) (Kernel.Program.xdp.handle (.filled 2)) ⟨s, []⟩ ⟨_, [] ++ [f]⟩ :=
    .tail (.single (.act (l := .run 0) trivial hq h₁)) (.post hp (Net.moves_iff.mpr (.sendto hk)) hf)
  exact ⟨_, hr, List.cons_ne_nil _ _, cluster_refines .xdp (fun _ => false) (Kernel.Maps.filled_complete (by decide))
    (Kernel.Maps.filled_ports (by decide)) (by decide) hr⟩

end Mpi

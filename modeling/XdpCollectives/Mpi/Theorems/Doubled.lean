import XdpCollectives.Mpi.Theorems.Fragments
import XdpCollectives.Mpi.Theorems.Linear

-- What broadcasts of messages that take several datagrams leave behind.
namespace Mpi

open Memory Wire Process Script

variable {n root count r : Nat} {f : Forwarder} {P : Nat → ProcessInfo} {m : Nat → Mem}

variable (root) in
-- The receiver acknowledges the message in `mpi_recv`, and once more after it.
theorem recv_twice {p s : ProcessInfo} (src dest : Nat) (buf data : Mem) (collective : MPICollective)
    (hsrc : src < p.size) (hp : p.rank < p.size) (hroot : root < p.size) (hne : root ≠ p.rank) (hint : p.size < 2 ^ 31)
    (hc : maxPayload < mpiHeader + count) (hl : mpiHeader + count < 2 ^ 31)
    (peer : ProcessInfo → Nat) (hpeer : peer (p.countId src p.rank) = root)
    (k : Mem → ProcessInfo → Program (Int × Mem × ProcessInfo)) :
    ∃ buf', Performs (lossless n f) p.rank
      (do let (err, buf, p) ← mpiRecv p buf count .char src 1
          if err < 0 then return (-1, buf, p)
          _mpiSendTcpLostPacket p .ack p.rank (peer p) 1 .send
          k buf p)
      (receipt root p.rank (datagrams s data 1 count .char root dest 1 collective) buf'
        [(notice (p.countId src p.rank) .ack root 1).encode, (notice (p.countId src p.rank) .ack root 1).encode])
      (k buf' (p.countId src p.rank)) := by
  have ⟨buf', hm⟩ := mpiRecv_fragments src root dest buf data 1 1 collective (μ := lossless n f) (p := p) (s := s) rfl
    (f.same _) hc hl hsrc hp hroot hne hint
  have ha := _mpiSendTcpLostPacket_performs .ack (μ := lossless n f) (p := p.countId src p.rank) (r := root)
    hp hroot hne 1
  refine ⟨buf', ?_⟩
  have h := hm.seq (f := fun x : Int × Mem × ProcessInfo => if x.1 < 0 then pure (-1, x.2.1, x.2.2) else do
      _mpiSendTcpLostPacket x.2.2 .ack x.2.2.rank (peer x.2.2) 1 .send
      k x.2.1 x.2.2) (z := k buf' (p.countId src p.rank)) (by
      rw [if_neg (by simp)]
      simp only [hpeer]
      exact ha.seq .refl)
  have hrank : (p.countId src p.rank).rank = p.rank := rfl
  simpa [receipt, hrank] using h

-- All ranks but the root have got the message, and left something for it in their connections.
structure Doubles (n root : Nat) (f : Forwarder) (c : Call) (P : Nat → ProcessInfo) (m : Nat → Mem)
    (g : List (Nat × Process.Act Note)) (q : Queues Chan Bytes) : Prop where
  sender : ∃ v, Performs (lossless n f) root (c.perform (P root) (m root)) (proj root g) (.ret v)
  others : ∀ r < n, r ≠ root → ∃ y, Performs (lossless n f) r (c.perform (P r) (m r)) (proj r g) y
  idle   : ∀ r, n ≤ r → proj r g = []
  quiet  : ∀ r e, .note e ∈ proj r g → ∃ buf, e = .stored buf
  flow   : Flow (fun _ => []) g q
  left   : ∃ r < n, r ≠ root ∧ (q (.tcp r root)).flatten ≠ []

theorem encode_ne_nil (h : Header) : [h.encode].flatten ≠ [] := by
  intro he
  have := congrArg List.length he
  simp [Header.encode_length, mpiHeader] at this

section Ring

theorem ring_sends (hn : 2 ≤ n) (hroot : root < n) (hP : Ranked n P) (hs : Sendable 1 count) {ack : Header}
    (ha : ack.datatype.toNat ≠ MPIDatatype.nack.code) :
    ∃ v, Performs (lossless n f) root (mpiBcastRing (P root) (m root) count .char root)
      (dispatch root ((root + 1) % n) (datagrams (P root) (m root) 1 count .char root ((root + 1) % n) 1 .send)
        ack.encode)
      (.ret v) := by
  have hlt : (root + 1) % n < n := Nat.mod_lt _ (by omega)
  have hne : (root + 1) % n ≠ root := Cycle.add_mod_ne hroot Nat.one_pos hn
  have ⟨hrank, hsize⟩ := hP root hroot
  have hnext : (P root).next = (root + 1) % n := by rw [ProcessInfo.next, hrank, hsize]
  have hsend := mpiSend_dispatch .char (m root) 1 (f := f) (n := n) (p := P root) (q := (root + 1) % n) (by omega)
    (by omega) (by omega) rfl hs ha
  rw [hrank] at hsend
  refine ⟨(0, m root, (P root).countId root ((root + 1) % n)), ?_⟩
  rw [mpiBcastRing, if_pos hrank, hnext]
  exact hsend.map rfl

theorem ring_doubles (hn : 2 ≤ n) (hint : n < 2 ^ 31) (hroot : root < n) (hP : Ranked n P)
    (hc : maxPayload < mpiHeader + count) (hl : mpiHeader + count < 2 ^ 31) :
    ∃ g q, Doubles n root f (.bcast .ring count .char root) P m g q := by
  let next := (root + 1) % n
  have hlt : next < n := Nat.mod_lt _ (by omega)
  have hne : next ≠ root := Cycle.add_mod_ne hroot Nat.one_pos hn
  obtain ⟨hrank', hsize'⟩ := hP next hlt
  have hprev : (P next).prev = root := by
    rw [ProcessInfo.prev, hrank', hsize']
    exact (Cycle.add_mod_pred (show 0 < n by omega) root 0).trans (Nat.mod_eq_of_lt hroot)
  let ack := notice ((P next).countId root next) .ack root 1
  let ds := datagrams (P root) (m root) 1 count .char root next 1 .send
  have hs : Sendable 1 count := ⟨by simp only [maxPayload, mpiHeader] at hc; omega, .inr ⟨rfl, by omega⟩⟩
  obtain ⟨v, hsend⟩ := ring_sends (f := f) (m := m) hn hroot hP hs (show ack.datatype.toNat ≠ _ from ack_code _ _ _)
  obtain ⟨buf', hrecv⟩ := recv_twice root root next (m next) (m root) .send (n := n) (f := f) (p := P next)
    (s := P root) (by omega) (by omega) (by omega) (by omega) (by omega) hc hl
    ProcessInfo.prev hprev fun buf p => do
      if p.next ≠ root then
        let x ← mpiSend p buf count .char p.next 1
        return (0, buf, x.2)
      return (0, buf, p)
  refine ⟨hop root next ds buf' ack.encode [ack.encode], _, ⟨⟨v, ?_⟩, fun r hr hr' => ?_, fun r hr => ?_,
    fun r e he => ?_, hop_flow _ _ _ _ rfl rfl, ⟨next, hlt, hne, ?_⟩⟩⟩
  · rw [proj_hop_sender (Ne.symm hne)]
    exact hsend
  · by_cases he : next = r
    case pos =>
      subst he
      rw [hrank'] at hrecv
      rw [Call.perform, Bcast.perform, mpiBcastRing, if_neg (by omega), hprev, proj_hop_receiver (Ne.symm hne)]
      exact ⟨_, hrecv⟩
    case neg =>
      rw [proj_hop_other (Ne.symm hr') he]
      exact ⟨_, .refl⟩
  · exact proj_hop_other (by omega) (by omega)
  · exact ⟨_, hop_quiet he⟩
  · rw [Function.update_self]
    exact encode_ne_nil ack

end Ring

section Star

variable {body : Nat → List (Nat × Process.Act Note)} {ds : Nat → List Bytes} {buf : Nat → Mem} {ack : Nat → Bytes}

variable (root body) in
theorem star_flow (before : Queues Chan Bytes) (acks : Nat → List Bytes)
    (hb : ∀ i < n, i ≠ root → ∀ qs : Queues Chan Bytes, qs (.udp i) = before (.udp i) → qs (.tcp i root) = [] →
      Flow qs (body i) (Function.update (Function.update qs (.udp i) []) (.tcp i root) (acks i)))
    (hq : ∀ i, before (.tcp i root) = []) :
    ∃ q, Flow before (star n root body) q ∧ ∀ i < n, i ≠ root → q (.tcp i root) = acks i := by
  have ⟨q, h, ha, _⟩ := Flow.independent (l := List.range n) List.nodup_range
    (fun i c => i ≠ root ∧ (c = .udp i ∨ c = .tcp i root)) before
    (fun i c => if c = .tcp i root then acks i else [])
    (q := before) (g := fun i => if i = root then [] else body i)
    (fun i _ j _ hij c ⟨_, hi⟩ ⟨_, hj⟩ => by rcases hi with rfl | rfl <;> simp [hij] at hj)
    (fun i hi qs hqs => by
      by_cases he : i = root
      case pos => exact ⟨qs, by rw [if_pos he]; rfl, fun c hc => absurd he hc.left, fun _ _ => rfl⟩
      case neg =>
        have hu := hqs (.udp i) ⟨he, .inl rfl⟩
        have ht := (hqs (.tcp i root) ⟨he, .inr rfl⟩).trans (hq i)
        rw [if_neg he]
        refine ⟨_, hb i (List.mem_range.mp hi) he qs hu ht, ?_, ?_⟩
        · rintro c ⟨_, rfl | rfl⟩ <;> simp
        · intro c hc
          rw [Function.update_of_ne (fun h => hc ⟨he, .inr h⟩), Function.update_of_ne (fun h => hc ⟨he, .inl h⟩)])
    fun _ _ _ _ => rfl
  exact ⟨q, h, fun i hi he => by simpa using ha i (List.mem_range.mpr hi) (.tcp i root) ⟨he, .inr rfl⟩⟩

end Star

section Linear

theorem linear_doubles (hn : 2 ≤ n) (hint : n < 2 ^ 31) (hroot : root < n) (hP : Ranked n P)
    (hc : maxPayload < mpiHeader + count) (hl : mpiHeader + count < 2 ^ 31) :
    ∃ g q, Doubles n root f (.bcast .linear count .char root) P m g q := by
  have hs : Sendable 1 count := ⟨by simp only [maxPayload, mpiHeader] at hc; omega, .inr ⟨rfl, by omega⟩⟩
  have hrecv r : ∃ buf', r < n → r ≠ root → Performs (lossless n f) r
      (mpiBcastLinear (P r) (m r) count .char root)
      (receipt root r (starData root count P m r) buf' [starAck root P r, starAck root P r])
      (.ret (0, buf', (P r).countId root r)) := by
    by_cases hr : r < n ∧ r ≠ root
    case neg => exact ⟨m r, fun h₁ h₂ => absurd ⟨h₁, h₂⟩ hr⟩
    case pos =>
      obtain ⟨hrank, hsize⟩ := hP r hr.left
      obtain ⟨buf', h⟩ := recv_twice root root r (m r) (m root) .send (n := n) (f := f) (p := P r)
        (s := starRoot root P r) (by omega) (by omega) (by omega) (by omega) (by omega) hc hl
        (fun _ => root) rfl fun buf p => pure (0, buf, p)
      rw [hrank] at h
      refine ⟨buf', fun _ _ => ?_⟩
      rw [mpiBcastLinear, if_neg (by omega)]
      exact h
  choose buf' hrecv using hrecv
  let body (i : Nat) := hop root i (starData root count P m i) (buf' i) (starAck root P i) [starAck root P i]
  obtain ⟨q, hflow, hq⟩ := star_flow root body (fun _ => []) (fun i => [starAck root P i]) (n := n)
    (fun i _ _ qs hu ht => by
      have h := hop_flow (starData root count P m i) ([starAck root P i]) (buf' i) (starAck root P i) hu ht
      rwa [show Function.update qs (.udp i) [] = qs by rw [← show qs (.udp i) = [] from hu, Function.update_eq_self]])
    fun _ => rfl
  have hother {r} (hne : r ≠ root) : proj r (star n root body) = if r < n then _ else [] :=
    proj_star_other hne (proj_hop_receiver (Ne.symm hne)) fun i _ hi => proj_hop_other (Ne.symm hne) hi
  refine ⟨star n root body, q, ⟨⟨(0, m root, starRoot root P n), ?_⟩, fun r hr hne => ?_, fun r hr => ?_,
    fun r e he => ?_,
    hflow, ⟨(root + 1) % n, Nat.mod_lt _ (by omega), Cycle.add_mod_ne hroot Nat.one_pos hn, ?_⟩⟩⟩
  · obtain ⟨hrank, hsize⟩ := hP root hroot
    rw [Call.perform, Bcast.perform, mpiBcastLinear, if_pos hrank,
      proj_star_root fun i h => proj_hop_sender (Ne.symm h), hsize, List.range_eq_range']
    exact (sendLinear_performs hroot hP hs f n 0 (Nat.zero_add n)).map rfl
  · rw [hother hne, if_pos hr]
    exact ⟨_, hrecv r hr hne⟩
  · rw [hother (by omega), if_neg (by omega)]
  · rw [star, proj_flatMap, List.mem_flatMap] at he
    obtain ⟨i, _, he⟩ := he
    split at he
    · contradiction
    · exact ⟨_, hop_quiet he⟩
  · rw [hq _ (Nat.mod_lt _ (by omega)) (Cycle.add_mod_ne hroot Nat.one_pos hn)]
    exact encode_ne_nil _

end Linear

section Xdp

variable {collective : MPICollective}

def others (n root : Nat) : List Nat :=
  (List.range n).filter (· ≠ root)

theorem outs_others (hf : collective = .bcastRing ∨ collective = .bcastLinear) {d : Bytes}
    (hd : (Header.decode d).collective.toNat = collective.code) (dest : Nat) :
    (lossless n f).outs root dest d = (others n root).map fun r => (.udp r, d) := by
  simp only [Medium.outs, medium, recipients, hd, MPICollective.ofCode_code]
  rcases hf with h | h <;> simp [h, others]

variable (root count) in
theorem recvAcks_plain {μ : Medium} {p : ProcessInfo} (buf : Mem) (rest : Mem) (ack : Nat → Header)
    (hrank : p.rank = root) (hsize : p.size = n) (ha : ∀ i, (ack i).datatype.toNat ≠ MPIDatatype.nack.code)
    (l : List Nat) (hl : ∀ i ∈ l, i < n) :
    Performs μ root (recvAcks p buf count .char 1 rest l)
      (l.flatMap fun i => if i = root then [] else [.get (.tcp i root) (ack i).encode]) (.ret ()) := by
  induction l with
  | nil => exact .refl
  | cons i l hi =>
    have hlt := hl i List.mem_cons_self
    have h := hi fun j hj => hl j (List.mem_cons_of_mem _ hj)
    rw [recvAcks, List.flatMap_cons]
    by_cases he : i = root
    case pos =>
      rw [if_neg (by simp [hrank, he]), if_pos he]
      exact h
    case neg =>
      have hget := recvHeader_performs (μ := μ) (p := p) (r := i) (by omega) (by omega) (ack i) rest
      rw [hrank] at hget
      rw [if_pos (by omega), if_neg he]
      refine hget.seq ?_
      rw [if_neg (ha i)]
      exact h

theorem xdp_sends (ack : Nat → Header) (hn : 2 ≤ n) (hroot : root < n) (hP : Ranked n P) (hs : Sendable 1 count)
    (hf : collective = .bcastRing ∨ collective = .bcastLinear)
    (ha : ∀ i, (ack i).datatype.toNat ≠ MPIDatatype.nack.code) (rest : Mem) :
    ∃ v, Performs (lossless n f) root (bcastXdp collective rest (P root) (m root) count .char root)
      ((datagrams (P root) (m root) 1 count .char root ((root + 1) % n) 1 collective).map (fun d =>
          .put ((others n root).map fun r => (.udp r, d))) ++
        (List.range n).flatMap fun i => if i = root then [] else [.get (.tcp i root) (ack i).encode])
      (.ret v) := by
  have ⟨hrank, hsize⟩ := hP root hroot
  have hlt : (root + 1) % n < n := Nat.mod_lt _ (by omega)
  have hne : (root + 1) % n ≠ root := Cycle.add_mod_ne hroot Nat.one_pos hn
  have hnext : (P root).next = (root + 1) % n := by rw [ProcessInfo.next, hrank, hsize]
  have hsend := _mpiSend_performs root .char (m root) 1 collective (μ := lossless n f) (p := P root)
    (r := (root + 1) % n) (by omega) (by omega) (by omega) rfl hs
  have hm := List.map_congr_left
    (l := datagrams (P root) (m root) 1 count .char root ((root + 1) % n) 1 collective)
    (f := fun d => (.put ((lossless n f).outs root ((root + 1) % n) d) : Process.Act Note))
    (g := fun d => .put ((others n root).map fun r => (.udp r, d))) fun d hd => by
      rw [outs_others hf (datagrams_collective hd)]
  have hacks := recvAcks_plain root count (m root) rest ack (μ := lossless n f) (n := n)
    (p := (P root).countId root ((root + 1) % n)) hrank hsize ha (List.range n)
    fun i hi => List.mem_range.mp hi
  rw [hrank] at hsend
  refine ⟨(0, m root, (P root).countId root ((root + 1) % n)), ?_⟩
  rw [bcastXdp, if_pos hrank, hnext, ← hm]
  refine hsend.seq ?_
  change Performs _ _ (recvAcks ((P root).countId root ((root + 1) % n)) (m root) count .char 1 rest
    (List.range (P root).size) >>= fun _ => pure (0, m root, (P root).countId root ((root + 1) % n))) _ _
  rw [hsize]
  exact hacks.map rfl

theorem xdp_doubles (rest : Nat → Mem) (hn : 2 ≤ n) (hint : n < 2 ^ 31) (hroot : root < n) (hP : Ranked n P)
    (hc : maxPayload < mpiHeader + count) (hl : mpiHeader + count < 2 ^ 31)
    (hf : collective = .bcastRing ∨ collective = .bcastLinear) {b : Bcast}
    (hb : ∀ r, b.perform (P r) (m r) count .char root =
      bcastXdp collective (rest r) (P r) (m r) count .char root) :
    ∃ g q, Doubles n root f (.bcast b count .char root) P m g q := by
  have hs : Sendable 1 count := ⟨by simp only [maxPayload, mpiHeader] at hc; omega, .inr ⟨rfl, by omega⟩⟩
  let next := (root + 1) % n
  have hlt : next < n := Nat.mod_lt _ (by omega)
  have hne : next ≠ root := Cycle.add_mod_ne hroot Nat.one_pos hn
  let ds := datagrams (P root) (m root) 1 count .char root next 1 collective
  let ack (r : Nat) := notice ((P r).countId (P r).prev r) .ack root 1
  obtain ⟨v, hsend⟩ := xdp_sends ack (f := f) (m := m) hn hroot hP hs hf (fun i => ack_code _ _ _) (rest root)
  have hrecv r : ∃ buf', r < n → r ≠ root → Performs (lossless n f) r
      (bcastXdp collective (rest r) (P r) (m r) count .char root)
      (receipt root r ds buf' [(ack r).encode, (ack r).encode])
      (.ret (0, buf', (P r).countId (P r).prev r)) := by
    by_cases hr : r < n ∧ r ≠ root
    case neg => exact ⟨m r, fun h₁ h₂ => absurd ⟨h₁, h₂⟩ hr⟩
    case pos =>
      obtain ⟨hrank', hsize'⟩ := hP r hr.left
      obtain ⟨buf', h⟩ := recv_twice root ((P r).prev) next (m r) (m root) collective (n := n) (f := f) (p := P r)
        (s := P root) (Nat.mod_lt _ (by omega)) (by omega) (by omega) (by omega) (by omega)
        hc hl (fun _ => root) rfl fun buf p => pure (0, buf, p)
      rw [hrank'] at h
      refine ⟨buf', fun _ _ => ?_⟩
      rw [bcastXdp, if_neg (by omega)]
      exact h
  choose buf' hrecv using hrecv
  let scatter : List (Process.Act Note) := ds.map fun d => .put ((others n root).map fun r => (.udp r, d))
  let body (i : Nat) := serve root i ds (buf' i) (ack i).encode [(ack i).encode]
  have hmem {i} : Chan.udp i ∈ (others n root).map Chan.udp ↔ i < n ∧ i ≠ root := by simp [others]
  have hscatter := scatter_flow (l := others n root) (List.nodup_range.filter _) (fun _ => []) root ds
  obtain ⟨q, hflow, hq⟩ := star_flow root body (fun c => [] ++ if c ∈ (others n root).map Chan.udp then ds else [])
    (fun i => [(ack i).encode]) (n := n) (fun i hi he qs hu ht => by
      rw [if_pos (hmem.mpr ⟨hi, he⟩)] at hu
      exact serve_flow _ _ _ _ _ hu ht) fun i => by simp
  have hother {r} (hr : r ≠ root) : proj r (tag root scatter ++ star n root body) =
      if r < n then receipt root r ds (buf' r) [(ack r).encode, (ack r).encode] else [] := by
    rw [proj_append, proj_tag, if_neg (Ne.symm hr), List.nil_append]
    exact proj_star_other hr (proj_serve_receiver (Ne.symm hr)) fun i _ hi => proj_serve_other (Ne.symm hr) hi
  refine ⟨tag root scatter ++ star n root body, q, ⟨⟨v, ?_⟩, fun r hr hne => ?_,
    fun r hr => ?_, fun r e he => ?_, hscatter.append hflow, ⟨next, hlt, hne, ?_⟩⟩⟩
  · rw [Call.perform, hb, proj_append, proj_tag, if_pos rfl, proj_star_root fun i h => proj_serve_sender (Ne.symm h)]
    exact hsend
  · rw [hother hne, if_pos hr, Call.perform, hb]
    exact ⟨_, hrecv r hr hne⟩
  · rw [hother (by omega), if_neg (by omega)]
  · rw [proj_append, List.mem_append, proj_tag, star, proj_flatMap, List.mem_flatMap] at he
    rcases he with he | ⟨i, _, he⟩
    · split at he
      · simp [scatter] at he
      · contradiction
    · split at he
      · contradiction
      · have hh : .note e ∈ proj r (hop root i ds (buf' i) (ack i).encode [(ack i).encode]) := by
          rw [hop, proj_append]
          exact List.mem_append_right _ he
        exact ⟨_, hop_quiet hh⟩
  · rw [hq _ hlt hne]
    exact encode_ne_nil _

end Xdp

theorem bcast_doubles {b : Bcast} (hb : b ≠ .ringXdpEager) (hn : 2 ≤ n) (hint : n < 2 ^ 31) (hroot : root < n)
    (hP : Ranked n P) (hc : maxPayload < mpiHeader + count) (hl : mpiHeader + count < 2 ^ 31) :
    ∃ g q, Doubles n root f (.bcast b count .char root) P m g q := by
  cases b
  case ring         => exact ring_doubles hn hint hroot hP hc hl
  case linear       => exact linear_doubles hn hint hroot hP hc hl
  case ringXdp      => exact xdp_doubles (fun _ _ => 0) hn hint hroot hP hc hl (.inl rfl) fun _ => rfl
  case linearXdp    => exact xdp_doubles (fun r => (P r).garbage) hn hint hroot hP hc hl (.inr rfl) fun _ => rfl
  case ringXdpEager => contradiction

-- The root waits for an acknowledgement of rank `r`, which gives up at once.
section Abandoned

structure Abandons (n root : Nat) (f : Forwarder) (c : Call) (P : Nat → ProcessInfo) (m : Nat → Mem) (r : Nat) :
    Prop where
  lt     : r < n
  ne     : r ≠ root
  sender : ∃ t len k, Performs (lossless n f) root (c.perform (P root) (m root)) t (.recv r len k) ∧
    ∀ a ∈ t, ∃ outs : List (Chan × Bytes), a = .put outs ∧ ∀ o ∈ outs, ∃ q, o.1 = .udp q
  other  : c.perform (P r) (m r) = .ret (-1, m r, P r)

theorem waits_first {c : Call} {ack : Bytes} {t t' : List (Process.Act Note)} {v : Int × Mem × ProcessInfo}
    (hlt : r < n) (hne : r ≠ root)
    (h : Performs (lossless n f) root (c.perform (P root) (m root)) (t ++ .get (.tcp r root) ack :: t') (.ret v))
    (ht : ∀ a ∈ t, ∃ outs : List (Chan × Bytes), a = .put outs ∧ ∀ o ∈ outs, ∃ q, o.1 = .udp q)
    (ho : c.perform (P r) (m r) = .ret (-1, m r, P r)) : Abandons n root f c P m r := by
  have ⟨y, h₁, h₂⟩ := h.split
  have ⟨len, k, hy⟩ := h₂.eq_recv
  exact ⟨hlt, hne, ⟨t, len, k, hy ▸ h₁, ht⟩, ho⟩

-- The first rank that is not the root.
theorem flatMap_first (hn : 2 ≤ n) (hroot : root < n) (A : Nat → List α) :
    ∃ r < n, r ≠ root ∧ ∃ l, ((List.range n).flatMap fun i => if i = root then [] else A i) = A r ++ l := by
  obtain ⟨k, rfl⟩ : ∃ k, n = k + 2 := ⟨n - 2, by omega⟩
  rw [List.range_eq_range', List.range'_succ, List.range'_succ, List.flatMap_cons, List.flatMap_cons]
  by_cases h : root = 0
  case pos => exact ⟨1, by omega, by omega, _, by rw [if_pos h.symm, if_neg (by omega), List.nil_append]⟩
  case neg => exact ⟨0, by omega, Ne.symm h, _, by rw [if_neg (Ne.symm h)]⟩

theorem bcast_abandons (b : Bcast) (hb : b ≠ .ringXdpEager) (hn : 2 ≤ n) (hroot : root < n) (hP : Ranked n P)
    (hl : 2 ^ 31 ≤ mpiHeader + count) (hc : count < 2 ^ 31) :
    ∃ r, Abandons n root f (.bcast b count .char root) P m r := by
  have hs : Sendable 1 count := ⟨by simp only [mpiHeader] at hl; omega, .inr ⟨rfl, hc⟩⟩
  obtain ⟨hrank, hsize⟩ := hP root hroot
  have hover (p : ProcessInfo) (buf : Mem) (src : Nat) := mpiRecv_overflow buf 1 src (p := p) hl hc
  have hputs {g : Bytes → List (Chan × Bytes)} {ds : List Bytes} (hg : ∀ d, ∀ o ∈ g d, ∃ q, o.1 = Chan.udp q) :
      ∀ a ∈ ds.map fun d => (.put (g d) : Process.Act Note), ∃ outs : List (Chan × Bytes), a = .put outs ∧
        ∀ o ∈ outs, ∃ q, o.1 = .udp q := by
    intro a ha
    obtain ⟨d, _, he⟩ := List.mem_map.mp ha
    exact ⟨g d, he.symm, hg d⟩
  have hudp (q : Nat) (d : Bytes) : ∀ o ∈ [(Chan.udp q, d)], ∃ q', o.1 = .udp q' :=
    fun o ho => ⟨q, by rw [List.mem_singleton.mp ho]⟩
  have hxdp (rest : Nat → Mem) {collective : MPICollective} (hf : collective = .bcastRing ∨ collective = .bcastLinear)
      (hb : ∀ r, b.perform (P r) (m r) count .char root =
        bcastXdp collective (rest r) (P r) (m r) count .char root) :
      ∃ r, Abandons n root f (.bcast b count .char root) P m r := by
    obtain ⟨v, h⟩ := xdp_sends (fun _ => notice (P root) .ack root 1) (f := f) (m := m) hn hroot hP hs hf
      (fun _ => ack_code _ _ _) (rest root)
    obtain ⟨r, hlt, hne, l, hl⟩ := flatMap_first hn hroot fun i =>
      [(.get (.tcp i root) (notice (P root) .ack root 1).encode : Process.Act Note)]
    rw [hl, ← hb] at h
    refine ⟨r, waits_first hlt hne h (hputs fun d o ho => ?_) ?_⟩
    · obtain ⟨q, _, he⟩ := List.mem_map.mp ho
      exact ⟨q, by rw [← he]⟩
    · obtain ⟨hrank', _⟩ := hP r hlt
      rw [Call.perform, hb, bcastXdp, if_neg (by omega), hover]
      rfl
  cases b
  case ring =>
    obtain ⟨v, h⟩ := ring_sends (f := f) (m := m) hn hroot hP hs (ack_code (P root) root 1)
    have hlt : (root + 1) % n < n := Nat.mod_lt _ (by omega)
    have hne : (root + 1) % n ≠ root := Cycle.add_mod_ne hroot Nat.one_pos hn
    refine ⟨_, waits_first hlt hne h (hputs fun d => hudp _ d) ?_⟩
    obtain ⟨hrank', _⟩ := hP _ hlt
    rw [Call.perform, Bcast.perform, mpiBcastRing, if_neg (by omega), hover]
    rfl
  case linear =>
    have h := sendLinear_performs (b := m) hroot hP hs f n 0 (Nat.zero_add n)
    rw [← List.range_eq_range'] at h
    obtain ⟨r, hlt, hne, l, hl⟩ := flatMap_first hn hroot fun i =>
      dispatch root i (starData root count P m i) (starAck root P i)
    rw [hl, dispatch, List.append_assoc, List.singleton_append] at h
    have hcall : Call.perform (P root) (m root) (.bcast .linear count .char root) =
        sendLinear (m root) count .char root 1 (List.range n) (P root) >>= fun p => pure (0, m root, p) := by
      rw [Call.perform, Bcast.perform, mpiBcastLinear, if_pos hrank, hsize]
    have h := h.map (f := fun p => (pure (0, m root, p) : Program (Int × Mem × ProcessInfo))) rfl
    rw [show starRoot root P 0 = P root from rfl, ← hcall] at h
    refine ⟨r, waits_first hlt hne h (hputs fun d => hudp _ d) ?_⟩
    obtain ⟨hrank', _⟩ := hP r hlt
    rw [Call.perform, Bcast.perform, mpiBcastLinear, if_neg (by omega), hover]
    rfl
  case ringXdp      => exact hxdp (fun _ _ => 0) (.inl rfl) fun _ => rfl
  case linearXdp    => exact hxdp (fun r => (P r).garbage) (.inr rfl) fun _ => rfl
  case ringXdpEager => contradiction

end Abandoned

end Mpi

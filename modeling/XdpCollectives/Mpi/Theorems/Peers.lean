import XdpCollectives.Mesh.Theorems.Loop
import XdpCollectives.Mpi.Slots
import XdpCollectives.Mpi.Theorems.Barrier
import XdpCollectives.Mpi.Theorems.Results
import XdpCollectives.Mpi.Theorems.Stored
import XdpCollectives.Process.Contract

-- Which slots the parts of the collectives use, as long as no datagram is lost.
namespace Mpi

open Memory Wire Process

-- A slot that `mpi_init` of rank `q` has filled with a peer.
def Peer (n q : Nat) (i : Int) : Prop :=
  0 ≤ i ∧ i < n ∧ i ≠ q

theorem peer_iff_filled {ls : List Mesh.Label} {s : Mesh.State} (h : Mesh.Reaches n ls s) (hd : s.Done n) (hq : q < n)
    (i : Int) : Peer n q i ↔ 0 ≤ i ∧ ∃ e, s.table q i.toNat = some e := by
  rw [h.filled_iff hd hq, Peer]
  omega

def Seated (n q : Nat) (p : ProcessInfo) : Prop :=
  p.rank = q ∧ p.size = n

-- The length of the datagrams of a message, with their headers.
def datagramLength (count : Int) (datatype : MPIDatatype) : Int :=
  let size := datatypeSizeInBytes count datatype
  if payloadSize < u64 (i32 (mpiHeader + size)) then maxPayload else mpiHeader + size

-- A header that does not ask for the message once more.
def Ack (m : Bytes) : Prop :=
  (Header.decode m).datatype.toNat ≠ MPIDatatype.nack.code

-- What rank `q` does in a broadcast: all datagrams have the same length, and name their sender or the root
-- of the broadcast as the root. Over the connections there are only headers.
def bcastContract (n root : Nat) (length : Int) (q : Nat) : Contract Mark where
  note m        := ∀ i, m = .slot i → Peer n q i
  sendto dest d := d.length = length ∧ ∃ rt < n, (Header.decode d).root.toInt = rt ∧
    (rt = root ∨ rt = q ∧ dest ≠ q ∧ (Header.decode d).collective.toNat = MPICollective.send.code)
  took d        := d.length = length ∧ ∃ rt < n, (Header.decode d).root.toInt = rt ∧ (rt = root ∨ rt ≠ q)
  send _ m      := m.length = mpiHeader ∧ Ack m
  recv _ len    := len = mpiHeader
  got _ m       := m.length = mpiHeader ∧ Ack m

-- All that is asked of a rank in a barrier.
def barrierContract (n q : Nat) : Contract Mark where
  note m     := ∀ i, m = .slot i → Peer n q i
  sendto _ _ := True
  took _     := True
  send _ _   := True
  recv _ _   := True
  got _ _    := True

namespace Slots

variable {n q root : Nat} {p : ProcessInfo} {C : Contract Mark}

section Parts

variable {dest source : Int} (buf : Mem) (count : Int) (datatype : MPIDatatype) (rt tag : Int)
  (collective : MPICollective)

theorem send_obeys (hi : C.note (.slot dest)) {m : Bytes} (hm : C.send dest.toNat m) :
    (p.send dest m).Obeys C fun _ => True :=
  ⟨hi, .ite (fun _ => trivial) fun _ => .ite (fun _ => trivial) fun _ => ⟨hm, trivial⟩⟩

theorem sendto_obeys (hi : C.note (.slot dest)) {d : Bytes} (hd : C.sendto dest.toNat d) :
    (p.sendto dest d).Obeys C fun _ => True :=
  ⟨hi, .ite (fun _ => trivial) fun _ => ⟨hd, trivial⟩⟩

theorem recv_obeys (hi : C.note (.slot source)) {len : Nat} (hl : C.recv source.toNat len) :
    (p.recv source len).Obeys C (C.got source.toNat) :=
  ⟨hi, .ite (fun _ => trivial) fun _ => .ite (fun _ => trivial) fun _ => ⟨hl, fun _ hm => hm⟩⟩

theorem _mpiSendTcp_obeys (hi : C.note (.slot dest)) (hm : ∀ m, C.send dest.toNat m) :
    (_mpiSendTcp p buf count datatype rt dest tag collective).Obeys C fun _ => True :=
  .ite (fun _ => trivial) fun _ => .ite (fun _ => trivial) fun _ => ⟨hi, .ite (fun _ => trivial) fun _ =>
    (send_obeys hi (hm _)).bind fun _ _ => trivial⟩

theorem _mpiRecvTcpLoop_obeys (hi : C.note (.slot source)) (hr : ∀ len, C.recv source.toNat len) (fuel left : Nat) :
    (_mpiRecvTcpLoop p source fuel left).Obeys C fun _ => True := by
  induction fuel generalizing left
  case zero => trivial
  case succ fuel hf =>
    exact .ite (fun _ => trivial) fun _ => (recv_obeys hi (hr left)).bind fun _ _ => (hf _).bind fun _ _ => trivial

theorem _mpiRecvTcp_obeys (hi : C.note (.slot source)) (hr : ∀ len, C.recv source.toNat len) :
    (_mpiRecvTcp p buf count datatype source).Obeys C fun _ => True :=
  .ite (fun _ => trivial) fun _ => .ite (fun _ => trivial) fun _ =>
    (_mpiRecvTcpLoop_obeys hi hr _ _).bind fun _ _ => .ite (fun _ => trivial) fun _ => trivial

end Parts

theorem peer_next (hn : 2 ≤ n) (hq : q < n) (hp : Seated n q p) : Peer n q p.next := by
  obtain ⟨rfl, rfl⟩ := hp
  have hlt := p.next_lt hn
  have hne := p.next_ne hq hn
  exact ⟨by omega, by omega, by omega⟩

theorem peer_prev (hn : 2 ≤ n) (hq : q < n) (hp : Seated n q p) : Peer n q p.prev := by
  obtain ⟨rfl, rfl⟩ := hp
  have hlt := p.prev_lt hn
  have hne := p.prev_ne hq hn
  exact ⟨by omega, by omega, by omega⟩

theorem slot_note {i : Int} (hi : Peer n q i) : ∀ j, Mark.slot i = .slot j → Peer n q j := by
  rintro j ⟨⟩
  exact hi

theorem mpiBarrierRing_obeys (hn : 2 ≤ n) (hq : q < n) (hp : Seated n q p) :
    (mpiBarrierRing p).Obeys (barrierContract n q) fun _ => True := by
  have hnext := slot_note (peer_next hn hq hp)
  have hprev := slot_note (peer_prev hn hq hp)
  have hsend (buf : Mem) (rt tag : Int) :=
    _mpiSendTcp_obeys (p := p) (C := barrierContract n q) buf 1 .int rt tag .send hnext fun _ => trivial
  have hrecv (buf : Mem) := _mpiRecvTcp_obeys (p := p) (C := barrierContract n q) buf 1 .int hprev fun _ => trivial
  refine .ite (fun _ => ?_) fun _ => ?_
  · exact (hsend ..).bind fun _ _ => (hrecv _).bind fun _ _ => trivial
  · exact (hrecv _).bind fun _ _ => (hsend ..).bind fun _ _ => trivial

-- What is converted before a message is sent fills all of it.
theorem elements_eq {es : Nat} (count : Int) {datatype : MPIDatatype} (hs : datatype.sizeof? = some es)
    (h : es * u64 count ≤ (datatypeSizeInBytes count datatype).toNat) (h1 : 1 ≤ datatypeSizeInBytes count datatype) :
    (es * u64 count : Nat) = datatypeSizeInBytes count datatype := by
  have hlt := datatypeSizeInBytes_lt count datatype
  have hmod : datatypeSizeInBytes count datatype = i32 ((es * u64 count : Nat) : Int) := by
    have hc : count * es = (es * u64 count : Nat) + 2 ^ 32 * (2 ^ 32 * (count / 2 ^ 64) * es) := by
      have hd := Int.mul_ediv_add_emod count (2 ^ 64)
      have hu : (u64 count : Int) = count % 2 ^ 64 := Int.toNat_of_nonneg (Int.emod_nonneg _ (by decide))
      rw [Nat.cast_mul, hu]
      nth_rewrite 1 [← hd]
      ring
    rw [datatypeSizeInBytes, hs]
    simp only [i32, hc]
    exact Int.add_mul_bmod_self_left ..
  rw [hmod, i32_natCast (by omega)]

section Datagrams

variable {rt dest : Nat} {length : Int} {collective : MPICollective} {datatype : MPIDatatype} {tag : Int}
  (hint : n < 2 ^ 31) (hrt : rt < n) (hroot : rt = root ∨ rt = q ∧ dest ≠ q ∧ collective = .send)
  (hp : Seated n q p) (hd : dest < n) (hne : dest ≠ q) (buf : Mem)

include hint hrt hroot in
theorem header_sendto (len : Int) (seq : Nat) (id : BitVec 64) {data : Bytes} (hl : mpiHeader + data.length = length) :
    (bcastContract n root length q).sendto dest
      ((header p rt dest collective datatype len tag seq id).encode ++ data) := by
  refine ⟨by simpa [Header.encode_length] using hl, rt, hrt, ?_, ?_⟩
  · rw [Header.decode_encode, header, BitVec.toInt_ofInt]
    exact Int.bmod_eq_of_le (by omega) (by omega)
  · rw [Header.decode_encode, header_collective_toNat]
    exact hroot.imp_right fun ⟨hq, hne, hc⟩ => ⟨hq, hne, hc ▸ rfl⟩

include hd hne in
theorem slot_natCast : ∀ i, Mark.slot (dest : Nat) = .slot i → Peer n q i :=
  slot_note ⟨by omega, by omega, by omega⟩

include hint hrt hroot hd hne in
theorem _mpiSendFragments_obeys (hl : length = maxPayload) {es : Nat} (hs : ElementSize es) (size N fuel seq : Nat) :
    (_mpiSendFragments p buf size N es datatype rt dest tag collective fuel seq).Obeys
      (bcastContract n root length q) fun _ => True := by
  induction fuel generalizing seq
  case zero => trivial
  case succ fuel hi =>
    refine .ite (fun _ => trivial) fun _ => .ite (fun _ => trivial) fun hle => ?_
    refine .bind (sendto_obeys (slot_natCast hd hne) ?_) fun _ _ => .ite (fun _ => trivial) fun _ => hi (seq + 1)
    rw [List.append_assoc]
    refine header_sendto hint hrt hroot _ _ _ ?_
    have hmax : maxPayload = mpiHeader + payloadSize := rfl
    simp only [List.length_append, Header.encode_length, Mem.read_length]
    rw [genericHton_length hs (by rw [Mem.read_length])]
    omega

include hint hrt hroot hp hd hne in
theorem _mpiSend_obeys (count : Int) : (_mpiSend p buf count datatype rt dest tag collective).Obeys
    (bcastContract n root (datagramLength count datatype) q) fun x => Seated n q x.2 := by
  refine .ite (fun _ => hp) fun h1 => ⟨slot_natCast hd hne, .ite (fun _ => trivial) fun _ => ?_⟩
  obtain ⟨es, hs⟩ : ∃ es, datatype.sizeof? = some es := by
    cases hs : datatype.sizeof? with
    | none    => simp [datatypeSizeInBytes, hs] at h1
    | some es => exact ⟨es, rfl⟩
  rw [hs, Option.getD_some]
  refine .ite (fun hl => ?_) fun hl => .ite (fun _ => trivial) fun hle => ?_
  · have hlen : datagramLength count datatype = maxPayload := if_pos hl
    exact (_mpiSendFragments_obeys hint hrt hroot hd hne buf hlen (MPIDatatype.sizeof?_elementSize hs) ..).bind
      fun _ _ => .ite (fun _ => hp) fun _ => hp
  · have hlen : datagramLength count datatype = mpiHeader + datatypeSizeInBytes count datatype := if_neg hl
    have he := elements_eq count hs (by omega) (by omega)
    refine .bind (sendto_obeys (slot_natCast hd hne) (header_sendto hint hrt hroot _ _ _ ?_)) fun _ _ =>
      .ite (fun _ => hp) fun _ => hp
    rw [genericHton_length (MPIDatatype.sizeof?_elementSize hs) (by rw [Mem.read_length])]
    omega

end Datagrams

section Headers

variable {source dest : Nat} {length : Int} {datatype : MPIDatatype} {tag : Int} (hp : Seated n q p)

theorem _mpiSendTcpLostPacket_obeys {dest : Int} (hi : Peer n q dest) (rt : Int) :
    (_mpiSendTcpLostPacket p .ack rt dest tag .send).Obeys (bcastContract n root length q) fun _ => True := by
  refine ⟨slot_note hi, .ite (fun _ => trivial) fun _ => send_obeys (slot_note hi) ⟨Header.encode_length _, ?_⟩⟩
  rw [Ack, ← List.append_nil (Header.encode _), Header.decode_encode]
  exact show (BitVec.ofNat 32 MPIDatatype.ack.code).toNat ≠ MPIDatatype.nack.code by decide

theorem recvHeader_obeys (hd : source < n) (hne : source ≠ q) (rest : Mem) :
    (recvHeader p source rest).Obeys (bcastContract n root length q) fun h =>
      h.datatype.toNat ≠ MPIDatatype.nack.code := by
  refine .bind (recv_obeys (slot_natCast hd hne) rfl) fun m ⟨hl, hm⟩ => ?_
  rw [hl, Nat.sub_self, Mem.read, List.append_nil]
  exact hm

include hp in
theorem mpiSend_obeys (hint : n < 2 ^ 31) (hq : q < n) (hd : dest < n) (hne : dest ≠ q) (buf : Mem) (count : Int) :
    (mpiSend p buf count datatype dest tag).Obeys (bcastContract n root (datagramLength count datatype) q) fun x =>
      Seated n q x.2 := by
  refine .bind (_mpiSend_obeys hint (hp.left ▸ hq) (.inr ⟨hp.left, hne, rfl⟩) hp hd hne buf count) fun ⟨_, p'⟩ hp' => ?_
  refine (recvHeader_obeys hd hne p'.garbage).bind fun h hh => ?_
  exact .ite (fun hn => absurd hn hh) fun _ => hp'

end Headers

section Receive

variable {length : Int} {datatype : MPIDatatype} {count : Int}

theorem recvFragment_all {size N es : Nat} {l : Fragments} {d : Bytes} (hd : d.length = maxPayload)
    (h : recvFragment size N es datatype l (some (d.take maxPayload)) = .inr o) :
    o ≠ .lost ∧ ∀ l', o = .all l' → l'.root = (Header.decode d).root := by
  rw [recvFragment_expected (.inl hd.ge)] at h
  dsimp only at h
  split_ifs at h <;> cases h
  · exact ⟨nofun, nofun⟩
  · exact ⟨nofun, nofun⟩
  · exact ⟨nofun, nofun⟩
  · refine ⟨nofun, fun _ he => ?_⟩
    cases he
    rfl

-- The fragments are never taken for lost, and name a peer as the root.
theorem recvFragments_obeys (hne : q ≠ root) (hl : length = maxPayload) (size N es : Nat) :
    (recvFragments size N es datatype).Obeys (bcastContract n root length q) fun r =>
      r ≠ .lost ∧ ∀ l, r = .all l → Peer n q l.root.toInt := by
  refine ⟨fun _ => True, trivial, fun l d _ ⟨hd, rt, hrt, hdec, hor⟩ => ⟨fun _ _ => trivial, fun o ho => ?_⟩⟩
  have hlen : d.length = maxPayload := by omega
  have ⟨hlost, hroot⟩ := recvFragment_all hlen ho
  refine ⟨hlost, fun l' he => ?_⟩
  have hr : rt ≠ q := hor.elim (fun h => h ▸ hne.symm) id
  rw [hroot l' he, hdec]
  exact ⟨by omega, by omega, by omega⟩

-- The datagram has the length that the receiver expects.
theorem recvDatagram_obeys {len : Nat} (size : Int) (hl : min (len : Int) length = mpiHeader + size) :
    (Prog.recvDatagram len).Obeys (bcastContract n root length q) fun d =>
      ∃ m : Bytes, d = some m ∧ (m.length : Int) - mpiHeader = size := by
  refine ⟨fun _ => True, trivial, fun _ d _ ⟨hd, _⟩ => ⟨nofun, fun o ho => ?_⟩⟩
  cases ho
  refine ⟨_, rfl, ?_⟩
  rw [List.length_take]
  omega

theorem countReceived_obeys (hp : Seated n q p) (source : Int) :
    (countReceived p source).Obeys C (Seated n q) :=
  .ite (fun _ => hp) fun _ => .ite (fun _ => hp) fun _ => trivial

theorem mpiRecv_obeys (hne : q ≠ root) (hp : Seated n q p) (buf : Mem) (count source tag : Int) :
    (mpiRecv p buf count datatype source tag).Obeys (bcastContract n root (datagramLength count datatype) q) fun x =>
      Seated n q x.2.2 := by
  refine .ite (fun _ => hp) fun h1 => .ite (fun hl => ?_) fun hl => .ite (fun _ => hp) fun h0 => ?_
  · have hlen : datagramLength count datatype = maxPayload := by
      have hlt : i32 (mpiHeader + datatypeSizeInBytes count datatype) < 2 ^ 31 := Int.bmod_lt (by decide)
      have hpm : payloadSize < maxPayload := by decide
      refine if_pos ?_
      rw [u64]
      omega
    refine (recvFragments_obeys hne hlen ..).bind fun r hr => ?_
    cases r with
    | fault => trivial
    | exit  => trivial
    | lost  => exact absurd rfl hr.left
    | all l =>
      exact .ite (fun _ => trivial) fun _ =>
        ⟨by rintro _ ⟨⟩, (countReceived_obeys hp source).bind fun _ hp' =>
          (_mpiSendTcpLostPacket_obeys (hr.right l rfl) _).bind fun _ _ => hp'⟩
  · have ht := total_eq (show 1 ≤ datatypeSizeInBytes count datatype by omega) (by omega)
    refine (recvDatagram_obeys (datatypeSizeInBytes count datatype) ?_).bind fun d hd => ?_
    · rw [datagramLength]
      split
      case isTrue  => omega
      case isFalse => omega
    · obtain ⟨m, rfl, hm⟩ := hd
      have hlost : storeMessage buf count (datatypeSizeInBytes count datatype) datatype (some m) ≠ .lost := by
        simp only [storeMessage]
        rw [if_neg (by omega)]
        split_ifs <;> simp
      cases hs : storeMessage buf count (datatypeSizeInBytes count datatype) datatype (some m) with
      | fault => trivial
      | lost  => exact absurd hs hlost
      | all b => exact ⟨by rintro _ ⟨⟩, (countReceived_obeys hp source).bind fun _ hp' => hp'⟩

-- Of a receive without an acknowledgement, nothing can be seen but what it takes.
theorem mpiRecvNoAck_obeys (hp : Seated n q p) (buf : Mem) (count : Int) (datatype : MPIDatatype) (source : Int) :
    (mpiRecvNoAck p buf count datatype source).Obeys (bcastContract n root length q) fun x => Seated n q x.2.2 := by
  have hstored (b : Mem) : (do
      takeNote (.stored b)
      let p ← countReceived p source
      return (count, b, p) : Marked (Int × Mem × ProcessInfo)).Obeys (bcastContract n root length q)
        fun x => Seated n q x.2.2 :=
    ⟨by rintro _ ⟨⟩, (countReceived_obeys hp source).bind fun _ hp' => hp'⟩
  refine .ite (fun _ => hp) fun _ => .ite (fun _ => ?_) fun _ => .ite (fun _ => hp) fun _ => ?_
  · refine .bind (Q := fun _ => True) ⟨fun _ => True, trivial, fun _ _ _ _ => ⟨fun _ _ => trivial, fun _ _ => trivial⟩⟩
      fun r _ => ?_
    cases r with
    | fault => trivial
    | exit  => trivial
    | lost  => exact hp
    | all l => exact .ite (fun _ => trivial) fun _ => hstored _
  · refine .bind (Q := fun _ => True) ⟨fun _ => True, trivial, fun _ _ _ _ => ⟨fun _ _ => trivial, fun _ _ => trivial⟩⟩
      fun d _ => ?_
    cases storeMessage buf count (datatypeSizeInBytes count datatype) datatype d with
    | fault => trivial
    | lost  => exact hp
    | all b => exact hstored b

end Receive

section Collectives

variable {datatype : MPIDatatype} (hint : n < 2 ^ 31) (hr : root < n) (hq : q < n) (hp : Seated n q p) (buf : Mem)
  (count : Int)

include hint hq hp

theorem mpiSend_next (hn : 2 ≤ n) : (mpiSend p buf count datatype p.next 1).Obeys
    (bcastContract n root (datagramLength count datatype) q) fun x => Seated n q x.2 := by
  have ⟨_, hd, hne⟩ := peer_next hn hq hp
  exact mpiSend_obeys hp hint hq (by omega) (by omega) buf count

theorem mpiBcastRing_obeys (hn : 2 ≤ n) : (mpiBcastRing p buf count datatype root).Obeys
    (bcastContract n root (datagramLength count datatype) q) fun _ => True := by
  refine .ite (fun _ => (mpiSend_next hint hq hp buf count hn).bind fun _ _ => trivial) fun hne => ?_
  refine (mpiRecv_obeys (hp.left ▸ hne) hp buf count _ _).bind fun ⟨_, buf', p'⟩ hp' => ?_
  refine .ite (fun _ => trivial) fun _ => ?_
  refine (_mpiSendTcpLostPacket_obeys (peer_prev hn hq hp') _).bind fun _ _ => ?_
  exact .ite (fun _ => (mpiSend_next hint hq hp' buf' count hn).bind fun _ _ => trivial) fun _ => trivial

include hr

omit hq in
theorem _mpiSend_root {dest : Nat} (hd : dest < n) (hne : dest ≠ q) (collective : MPICollective) :
    (_mpiSend p buf count datatype root dest 1 collective).Obeys
      (bcastContract n root (datagramLength count datatype) q) fun x => Seated n q x.2 :=
  _mpiSend_obeys hint hr (.inl rfl) hp hd hne buf count

theorem _mpiSend_next (hn : 2 ≤ n) (collective : MPICollective) :
    (_mpiSend p buf count datatype root p.next 1 collective).Obeys
      (bcastContract n root (datagramLength count datatype) q) fun x => Seated n q x.2 := by
  have ⟨_, hd, hne⟩ := peer_next hn hq hp
  exact _mpiSend_root hint hr hp buf count (by omega) (by omega) collective

theorem mpiBcastRingXdpEager_obeys (hn : 2 ≤ n) : (mpiBcastRingXdpEager p buf count datatype root).Obeys
    (bcastContract n root (datagramLength count datatype) q) fun _ => True := by
  refine .ite (fun _ => (_mpiSend_next hint hr hq hp buf count hn _).bind fun _ _ => trivial) fun _ => ?_
  exact (mpiRecvNoAck_obeys hp buf count datatype _).bind fun _ _ => .ite (fun _ => trivial) fun _ => trivial

omit hint hq hr in
theorem recvAcks_obeys {is : List Nat} (his : ∀ i ∈ is, i < n) (tag : Int) (rest : Mem) :
    (recvAcks p buf count datatype tag rest is).Obeys (bcastContract n root (datagramLength count datatype) q)
      fun _ => True := by
  induction is
  case nil => trivial
  case cons i is hi =>
    have hrest := hi fun j hj => his j (List.mem_cons_of_mem i hj)
    refine .ite (fun hne => ?_) fun _ => hrest
    exact (recvHeader_obeys (his i List.mem_cons_self) (hp.left ▸ Ne.symm hne) rest).bind fun h hh =>
      .ite (fun hn => absurd hn hh) fun _ => hrest

theorem bcastXdp_obeys (hn : 2 ≤ n) (collective : MPICollective) (rest : Mem) :
    (bcastXdp collective rest p buf count datatype root).Obeys
      (bcastContract n root (datagramLength count datatype) q) fun _ => True := by
  refine .ite (fun _ => ?_) fun hne => ?_
  · refine (_mpiSend_next hint hr hq hp buf count hn _).bind fun ⟨_, p'⟩ hp' => ?_
    refine (recvAcks_obeys hp' buf count (fun i hi => ?_) 1 rest).bind fun _ _ => trivial
    exact hp'.right ▸ List.mem_range.mp hi
  · have hroot : Peer n q root := ⟨by omega, by omega, by have := hp.left; omega⟩
    refine (mpiRecv_obeys (hp.left ▸ hne) hp buf count _ _).bind fun _ _ => .ite (fun _ => trivial) fun _ => ?_
    exact (_mpiSendTcpLostPacket_obeys hroot _).bind fun _ _ => trivial

omit hp hr in
theorem sendLinear_obeys (he : q = root) {is : List Nat} (his : ∀ i ∈ is, i < n) (hp : Seated n q p) :
    (sendLinear buf count datatype root 1 is p).Obeys (bcastContract n root (datagramLength count datatype) q)
      fun _ => True := by
  induction is generalizing p
  case nil => trivial
  case cons i is hi =>
    have hrest {p : ProcessInfo} (hp : Seated n q p) := hi (fun j hj => his j (List.mem_cons_of_mem i hj)) hp
    refine .ite (fun hne => ?_) fun _ => hrest hp
    exact (mpiSend_obeys hp hint hq (his i List.mem_cons_self) (he ▸ hne) buf count).bind fun _ hp' => hrest hp'

theorem mpiBcastLinear_obeys : (mpiBcastLinear p buf count datatype root).Obeys
    (bcastContract n root (datagramLength count datatype) q) fun _ => True := by
  refine .ite (fun he => ?_) fun hne => ?_
  · have his : ∀ i ∈ List.range p.size, i < n := fun i hi => hp.right ▸ List.mem_range.mp hi
    exact (sendLinear_obeys hint hq buf count (hp.left ▸ he) his hp).bind fun _ _ => trivial
  · have hroot : Peer n q root := ⟨by omega, by omega, by have := hp.left; omega⟩
    refine (mpiRecv_obeys (hp.left ▸ hne) hp buf count _ _).bind fun _ _ => .ite (fun _ => trivial) fun _ => ?_
    exact (_mpiSendTcpLostPacket_obeys hroot _).bind fun _ _ => trivial

omit hp in
-- A rank that sends or receives in a round is not as far from the root as the one at the other end.
theorem bcastRounds_obeys (fuel step : Nat) (h0 : 0 < step) (hp : Seated n q p) :
    (bcastRounds count datatype root (Cycle.distance n root q) n fuel step buf p).Obeys
      (bcastContract n root (datagramLength count datatype) q) fun _ => True := by
  induction fuel generalizing step buf p
  case zero => trivial
  case succ fuel hi =>
    have hnext {p : ProcessInfo} (hp : Seated n q p) (buf : Mem) := hi buf (step * 2) (by omega) hp
    refine .ite (fun _ => trivial) fun hstep => ?_
    refine .ite (fun hrel => ?_) fun hrel => .ite (fun _ => ?_) fun _ => hnext hp buf
    · refine .ite (fun _ => ?_) fun _ => hnext hp buf
      have hd : (Cycle.distance n root q + step + root) % n = (q + step) % n := by
        rw [show Cycle.distance n root q + step + root = root + Cycle.distance n root q + step by omega, Nat.add_mod,
          Cycle.add_distance hr hq, Nat.add_mod_mod]
      have hne := Cycle.add_mod_ne hq h0 (Nat.lt_of_not_ge hstep)
      rw [← hd] at hne
      exact (mpiSend_obeys hp hint hq (Nat.mod_lt _ (by omega)) hne buf count).bind fun _ hp' => hnext hp' buf
    · have hne : q ≠ root := by
        rintro rfl
        rw [Cycle.distance_self] at hrel
        omega
      exact (mpiRecv_obeys hne hp buf count _ _).bind fun _ hp' => .ite (fun _ => trivial) fun _ => hnext hp' _

theorem mpiBcast_obeys : (mpiBcast p buf count datatype root).Obeys
    (bcastContract n root (datagramLength count datatype) q) fun _ => True := by
  rw [mpiBcast, hp.left, hp.right, ← Cycle.distance]
  exact bcastRounds_obeys hint hr hq buf count n 1 Nat.one_pos hp

omit hq in
theorem sendChildren_obeys (hn : 3 ≤ n) (h0 : q = 0) : (sendChildren p buf count datatype root 1).Obeys
    (bcastContract n root (datagramLength count datatype) q) (Seated n q) := by
  have hone : (2 * q + 1) % n = 1 := by rw [h0]; exact Nat.mod_eq_of_lt (by omega)
  have htwo : (2 * q + 2) % n = 2 := by rw [h0]; exact Nat.mod_eq_of_lt (by omega)
  rw [sendChildren, hp.left, hp.right, hone, htwo]
  refine (_mpiSend_root hint hr hp buf count (by omega) (by omega) _).bind fun ⟨_, p'⟩ hp' => ?_
  exact (_mpiSend_root hint hr hp' buf count (by omega) (by omega) _).bind fun _ hp'' => hp''

omit hint hr hq in
-- A rank other than the root and 0 gets its copy from its parent.
theorem bcastXdp_last_obeys (source : Int) : (if p.rank ≠ root ∧ p.rank ≠ 0 then do
    let (err, buf, p) ← mpiRecv p buf count datatype source 1
    if err < 0 then return (-1, buf, p)
    return (0, buf, p)
    else return (0, buf, p) : Marked _).Obeys (bcastContract n root (datagramLength count datatype) q)
    fun _ => True := by
  refine .ite (fun hne => ?_) fun _ => trivial
  exact (mpiRecv_obeys (hp.left ▸ hne.left) hp buf count _ _).bind fun _ _ => .ite (fun _ => trivial) fun _ => trivial

omit hq in
-- Rank 0 passes on what it gets from the root, and `last` is what the other ranks do.
theorem bcastXdp_pass_obeys (hn : 3 ≤ n) (h0 : root ≠ 0) (source : Int)
    {last : Marked (Int × Mem × ProcessInfo)}
    (hlast : last.Obeys (bcastContract n root (datagramLength count datatype) q) fun _ => True) :
    (if p.rank = 0 then do
      let (err, buf, p) ← mpiRecv p buf count datatype source 1
      if err < 0 then return (-1, buf, p)
      let p ← sendChildren p buf count datatype root 1
      return (0, buf, p)
    else last : Marked _).Obeys (bcastContract n root (datagramLength count datatype) q) fun _ => True := by
  refine .ite (fun hz => ?_) fun _ => hlast
  have hq0 : q = 0 := hp.left ▸ hz
  refine (mpiRecv_obeys (by omega) hp buf count _ _).bind fun x hp' => .ite (fun _ => trivial) fun _ => ?_
  exact (sendChildren_obeys hint hr hp' x.2.1 count hn hq0).bind fun _ _ => trivial

omit hq in
theorem mpiBcastXdp_obeys (hn : 3 ≤ n) : (mpiBcastXdp p buf count datatype root).Obeys
    (bcastContract n root (datagramLength count datatype) q) fun _ => True := by
  refine .ite (fun h0 => .ite (fun he => ?_) fun _ => bcastXdp_last_obeys hp buf count _) fun h0 =>
    .ite (fun he => ?_) fun _ => ?_
  · exact (sendChildren_obeys hint hr hp buf count hn (hp.left ▸ he ▸ h0)).bind fun _ _ => trivial
  · have hne : (0 : Nat) ≠ q := by have := hp.left; omega
    refine (_mpiSend_root hint hr hp buf count (by omega) hne .bcast).bind fun _ hp' => ?_
    exact bcastXdp_pass_obeys hint hr hp' buf count hn h0 _ (bcastXdp_last_obeys hp buf count _)
  · exact bcastXdp_pass_obeys hint hr hp buf count hn h0 _ (bcastXdp_last_obeys hp buf count _)

end Collectives

end Slots
end Mpi

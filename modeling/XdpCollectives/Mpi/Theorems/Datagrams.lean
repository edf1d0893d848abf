import XdpCollectives.Mpi.Theorems.Parts

-- What sending and receiving a message by datagrams does, as a script.
namespace Mpi

open Memory Wire Process

-- The datagram with the number `seq` of a message that takes several.
def fragment (p : ProcessInfo) (buf : Mem) (size N es : Nat) (datatype : MPIDatatype) (root dest : Nat)
    (tag : Int) (collective : MPICollective) (seq : Nat) : Bytes :=
  let offset := seq * payloadSize
  let len := if payloadSize < size - offset then payloadSize else size - (N - 1) * payloadSize
  let bufptr := if datatype = .unsignedLongLong then 0 else es * offset
  let message := (header p root dest collective datatype len tag seq (p.ids root dest)).encode ++
    genericHton es len (buf.read bufptr (es * len))
  message ++ p.garbage.read message.length (maxPayload - message.length)

def fragments (size : Nat) : Nat :=
  (size + payloadSize - 1) / payloadSize

def datagrams (p : ProcessInfo) (buf : Mem) (es count : Nat) (datatype : MPIDatatype) (root dest : Nat)
    (tag : Int) (collective : MPICollective) : List Bytes :=
  if payloadSize < mpiHeader + es * count then
    (List.range' 0 (fragments (es * count))).map
      (fragment p buf (es * count) (fragments (es * count)) es datatype root dest tag collective)
  else [(header p root dest collective datatype count tag 0 (p.ids root dest)).encode ++ payload es count buf]

-- A datagram begins with a header and the data.
def Carries (d : Bytes) (h : Header) (data : Bytes) : Prop :=
  ∃ rest, d = h.encode ++ (data ++ rest)

namespace Carries

variable {d d' data : Bytes} {h : Header}

theorem drop (hd : Carries d h data) : (d.drop mpiHeader).take data.length = data := by
  obtain ⟨rest, rfl⟩ := hd
  rw [List.drop_left' h.encode_length, List.take_left]

theorem length_le (hd : Carries d h data) : mpiHeader + data.length ≤ d.length := by
  obtain ⟨rest, rfl⟩ := hd
  simp only [List.length_append, h.encode_length]
  omega

end Carries

variable {μ : Medium} {p : ProcessInfo} {r root es count : Nat} {datatype : MPIDatatype} {buf : Mem}
  {tag : Int} {collective : MPICollective}

-- The messages that need one datagram only, or that can be put into several.
def Sendable (es count : Nat) : Prop :=
  0 < count ∧ (mpiHeader + es * count ≤ payloadSize ∨ es = 1 ∧ count < 2 ^ 31)

theorem fragments_spec (h : 0 < size) :
    0 < fragments size ∧ (fragments size - 1) * payloadSize < size ∧ size ≤ fragments size * payloadSize := by
  simp only [fragments, payloadSize, maxPayload, mpiHeader]
  omega

theorem header_collective_toNat (rt dest len : Int) (seq : Nat) (id : BitVec 64) :
    (header p rt dest collective datatype len tag seq id).collective.toNat = collective.code := by
  cases collective <;> rfl

-- A size that does not fit into an `int` becomes a large number too.
theorem lt_u64_i32 (h : n < 2 ^ 32) (hk : k < 2 ^ 31) : k < u64 (i32 (n : Nat)) ↔ k < n := by
  simp only [u64, i32, Int.bmod_def]
  split <;> omega

theorem sendto_performs (hne : r ≠ p.rank) (d : Bytes) :
    Performs μ p.rank (p.sendto r d) [.put (μ.outs p.rank r d)] (.ret true) := by
  rw [ProcessInfo.sendto_eq hne]
  exact .sendto .refl

theorem _mpiSendFragments_performs (hne : r ≠ p.rank) (hN : fragments size = N) (h0 : 0 < size)
    (hf : seq + fuel = N) :
    Performs μ p.rank (_mpiSendFragments p buf size N 1 datatype root r tag collective fuel seq)
      ((List.range' seq fuel).map fun i =>
        .put (μ.outs p.rank r (fragment p buf size N 1 datatype root r tag collective i)))
      (.ret true) := by
  have ⟨_, hlt, hle⟩ := fragments_spec h0
  rw [hN] at hlt hle
  induction fuel generalizing seq
  case zero => exact .refl
  case succ fuel hi =>
    have hs : ¬size ≤ seq * payloadSize := by
      have : seq * payloadSize ≤ (N - 1) * payloadSize := Nat.mul_le_mul_right _ (by omega)
      omega
    have hl : ¬payloadSize < 1 * (if payloadSize < size - seq * payloadSize then payloadSize
        else size - (N - 1) * payloadSize) := by
      have : N * payloadSize = (N - 1) * payloadSize + payloadSize := by
        rw [← Nat.succ_mul]
        congr 1
        omega
      split <;> omega
    rw [_mpiSendFragments, if_neg hs, if_neg hl]
    exact (sendto_performs hne _).seq <| hi (by omega)

variable (root datatype buf tag collective) in
theorem _mpiSend_performs (hroot : root < p.size) (hr : r < p.size) (hne : r ≠ p.rank)
    (hs : datatype.sizeof? = some es) (hc : Sendable es count) :
    Performs μ p.rank (_mpiSend p buf count datatype root r tag collective)
      ((datagrams p buf es count datatype root r tag collective).map fun d => .put (μ.outs p.rank r d))
      (.ret (count, p.countId root r)) := by
  have he := (MPIDatatype.sizeof?_elementSize hs).pos
  have ⟨h0, hc⟩ := hc
  have hpos : 0 < es * count := Nat.mul_pos he h0
  have hle : count ≤ es * count := Nat.le_mul_of_pos_left count he
  have hlt : es * count < 2 ^ 31 := by
    simp only [payloadSize, maxPayload, mpiHeader] at hc
    rcases hc with hc | ⟨rfl, hc⟩ <;> omega
  have hu : u64 count = count := u64_natCast (by omega)
  have hb : payloadSize < u64 (i32 (mpiHeader + (es * count : Nat))) ↔ payloadSize < mpiHeader + es * count :=
    lt_u64_i32 (n := mpiHeader + es * count) (by simp only [mpiHeader]; omega) (by decide)
  rw [_mpiSend, datatypeSizeInBytes_eq _ hs hlt]
  simp only [hs, hu, hb, Option.getD_some, Int.toNat_natCast]
  rw [if_neg (by omega), if_neg (by simp [ProcessInfo.inRange_natCast, hroot, hr]), datagrams]
  split
  case isTrue hf =>
    obtain rfl : es = 1 := hc.elim (fun hc => absurd hf (by omega)) And.left
    rw [List.map_map]
    exact (_mpiSendFragments_performs hne rfl hpos (Nat.zero_add _)).map rfl
  case isFalse hf =>
    rw [if_neg (by omega)]
    exact (sendto_performs hne _).map rfl

theorem mpiSend_performs (hp : p.rank < p.size) (hr : r < p.size) (hne : r ≠ p.rank)
    (hs : datatype.sizeof? = some es) (hc : Sendable es count) {h : Header}
    (hh : h.datatype.toNat ≠ MPIDatatype.nack.code) :
    Performs μ p.rank (mpiSend p buf count datatype r tag)
      ((datagrams p buf es count datatype p.rank r tag .send).map (fun d => .put (μ.outs p.rank r d)) ++
        [.get (.tcp r p.rank) h.encode])
      (.ret (0, p.countId p.rank r)) :=
  (_mpiSend_performs _ _ _ _ _ hp hr hne hs hc).seq <|
    (recvHeader_performs (p := p.countId p.rank r) hr hne h _).map <| if_neg hh

-- The messages that come as one datagram.
def Single (es count : Nat) : Prop :=
  0 < count ∧ mpiHeader + es * count ≤ maxPayload

-- The size of the buffer for a fragment is a number of bytes, and so is the one of the message, but it
-- is taken for a number of elements.
theorem _mpiSend_fault {p : ProcessInfo} (buf : Mem) {es count root r : Nat} {datatype : MPIDatatype} (tag : Int)
    (collective : MPICollective) (hroot : root < p.size) (hr : r < p.size) (hs : datatype.sizeof? = some es)
    (hc : Single es count) (h1 : es ≠ 1) (hl : payloadSize < mpiHeader + es * count) :
    _mpiSend p buf count datatype root r tag collective = .fault := by
  have he := (MPIDatatype.sizeof?_elementSize hs).pos
  have ⟨h0, hc⟩ := hc
  have hpos : 0 < es * count := Nat.mul_pos he h0
  have h2 : 2 * (es * count) ≤ es * (es * count) := Nat.mul_le_mul_right _ (by omega)
  simp only [maxPayload, mpiHeader, payloadSize] at hc hl
  have hb : payloadSize < u64 (i32 (mpiHeader + (es * count : Nat))) ↔ payloadSize < mpiHeader + es * count :=
    lt_u64_i32 (n := mpiHeader + es * count) (by simp only [mpiHeader]; omega) (by decide)
  have hN : (es * count + payloadSize - 1) / payloadSize = 1 := by
    simp only [payloadSize, maxPayload, mpiHeader]
    omega
  rw [_mpiSend, datatypeSizeInBytes_eq _ hs (by omega)]
  simp only [hs, hb, Option.getD_some, Int.toNat_natCast, hN]
  rw [if_neg (by omega), if_neg (by simp [ProcessInfo.inRange_natCast, hroot, hr]),
    if_pos (by simp only [payloadSize, maxPayload, mpiHeader]; omega), _mpiSendFragments]
  simp only [Nat.zero_mul, Nat.sub_zero, Nat.sub_self]
  rw [if_neg (by omega), if_neg (show ¬payloadSize < es * count by
      simp only [payloadSize, maxPayload, mpiHeader]
      omega),
    if_pos (by simp only [payloadSize, maxPayload, mpiHeader]; omega)]
  rfl

theorem datagrams_collective (hd : d ∈ datagrams p buf es count datatype root r tag collective) :
    (Header.decode d).collective.toNat = collective.code := by
  rw [datagrams] at hd
  split at hd
  · have ⟨i, _, he⟩ := List.mem_map.mp hd
    rw [← he, fragment, List.append_assoc, Header.decode_encode]
    exact header_collective_toNat ..
  · rw [List.mem_singleton.mp hd, Header.decode_encode]
    exact header_collective_toNat ..

variable (root datatype buf tag collective) in
theorem datagrams_single (hs : datatype.sizeof? = some es) (hc : Sendable es count) (h1 : Single es count) :
    ∃ d h, datagrams p buf es count datatype root r tag collective = [d] ∧
      Carries d h (payload es count buf) ∧ h.collective.toNat = collective.code := by
  rw [datagrams]
  split
  case isTrue hf =>
    have hle := h1.right
    obtain rfl : es = 1 := hc.right.elim (fun hc => absurd hf (by omega)) And.left
    simp only [payloadSize, maxPayload, mpiHeader] at hf hle
    have hN : fragments (1 * count) = 1 := by
      simp only [fragments, payloadSize, maxPayload, mpiHeader]
      omega
    have hu : datatype ≠ .unsignedLongLong := by
      rintro rfl
      simp [MPIDatatype.sizeof?] at hs
    have hlen : (if payloadSize < 1 * count - 0 * payloadSize then payloadSize
        else 1 * count - (1 - 1) * payloadSize) = count := by
      rw [if_neg (by simp only [payloadSize, maxPayload, mpiHeader]; omega), Nat.sub_self, Nat.zero_mul]
      omega
    rw [hN]
    refine ⟨_, header p root r collective datatype count tag 0 (p.ids root r), rfl, ?_,
      header_collective_toNat ..⟩
    rw [fragment, hlen, if_neg hu, Nat.zero_mul, Nat.mul_zero, List.append_assoc]
    exact ⟨_, rfl⟩
  case isFalse =>
    exact ⟨_, _, rfl, ⟨[], by rw [List.append_nil]⟩, header_collective_toNat ..⟩

-- What a receiver of a single datagram has in its buffer.
def stored (es count : Nat) (datatype : MPIDatatype) (data : Bytes) (buf : Mem) : Mem :=
  terminate datatype es (count - 1) (buf.write 0 (genericNtoh es count data))

theorem recvDatagram_performs (hm : μ.mayTimeout r = false) (len : Nat) (d : Bytes) :
    Performs μ r (Prog.recvDatagram len : Program _) [.get (.udp r) d] (.ret ((μ.copy r d).take len)) :=
  .take hm .refl

theorem recvDatagram_timeout (hm : μ.mayTimeout r = true) (len : Nat) :
    Performs μ r (Prog.recvDatagram len : Program _) [.timeout] (.ret none) :=
  .timeout hm .refl

theorem SameMessage.drop_header (h : SameMessage d d') : d.drop mpiHeader = d'.drop mpiHeader := by
  have := congrArg (List.drop 32) h.right.right
  simpa [List.drop_drop, mpiHeader] using this

theorem SameMessage.data {h : Header} {data : Bytes} (hd : SameMessage d' d) (hc : Carries d h data)
    (hl : data.length = n) :
    (d'.take (mpiHeader + n)).drop mpiHeader = data ∧ (d'.take (mpiHeader + n)).length = mpiHeader + n := by
  have hle := hc.length_le
  have hlen := hd.left
  refine ⟨?_, by simp only [List.length_take]; omega⟩
  rw [List.drop_take, hd.drop_header, Nat.add_sub_cancel_left, ← hl, hc.drop]

variable (buf) in
theorem storeMessage_eq (hs : datatype.sizeof? = some es) (hl : es * count < 2 ^ 31) (he : count ≤ es * count)
    {message : Bytes} (hm : message.length = mpiHeader + es * count) :
    storeMessage buf count (es * count : Nat) datatype (some message) =
      .all (stored es count datatype (message.drop mpiHeader) buf) := by
  have hu : u64 count = count := u64_natCast (by omega)
  rw [storeMessage]
  simp only [hs, hu, Option.getD_some, Int.toNat_natCast]
  rw [if_neg (by omega), if_neg (by omega)]
  rfl

theorem Single.bounds (hc : Single es count) (hs : datatype.sizeof? = some es) :
    0 < es * count ∧ count ≤ es * count ∧ mpiHeader + es * count < 2 ^ 31 := by
  have he := (MPIDatatype.sizeof?_elementSize hs).pos
  have ⟨h0, hc⟩ := hc
  refine ⟨Nat.mul_pos he h0, Nat.le_mul_of_pos_left count he, ?_⟩
  simp only [maxPayload] at hc
  omega

theorem countReceived_natCast (hr : r < p.size) : countReceived p r = (pure (p.countId r p.rank) : Program _) := by
  rw [countReceived, if_neg (by omega), if_pos (ProcessInfo.inRange_natCast hr), Int.toNat_natCast]

section Receives

variable {source : Int} (hs : datatype.sizeof? = some es)
include hs

-- What the receives do once the tests on the size of the message have been passed.
theorem mpiRecv_single (hc : Single es count) : mpiRecv p buf count datatype source tag = (do
    match storeMessage buf count (es * count : Nat) datatype (← Prog.recvDatagram (mpiHeader + es * count)) with
    | .fault => .fault
    | .lost  => recvLost p buf count datatype source tag
    | .all buf =>
      takeNote (.stored buf)
      let p ← countReceived p source
      return (count, buf, p)) := by
  have ⟨hpos, _, hlt⟩ := hc.bounds hs
  have ⟨hsize, ht, _⟩ := sizes_eq hs hlt
  have hle := hc.2
  simp only [mpiRecv, hsize, ht, Int.toNat_natCast]
  refine (if_neg (by omega)).trans ?_
  refine (if_neg (by omega)).trans ?_
  exact if_neg (by omega)

theorem mpiRecvNoAck_single (hc : Single es count) : mpiRecvNoAck p buf count datatype source = (do
    match storeMessage buf count (es * count : Nat) datatype (← Prog.recvDatagram (mpiHeader + es * count)) with
    | .fault => .fault
    | .lost  => return (-1, buf, p)
    | .all buf =>
      takeNote (.stored buf)
      let p ← countReceived p source
      return (count, buf, p)) := by
  have ⟨hpos, _, hlt⟩ := hc.bounds hs
  have ⟨hsize, ht, _⟩ := sizes_eq hs hlt
  have hle := hc.2
  simp only [mpiRecvNoAck, hsize, ht, Int.toNat_natCast]
  refine (if_neg (by omega)).trans ?_
  refine (if_neg (by omega)).trans ?_
  exact if_neg (by omega)

variable (hp : maxPayload < mpiHeader + es * count) (hl : mpiHeader + es * count < 2 ^ 31)
include hp hl

theorem mpiRecv_multiple : mpiRecv p buf count datatype source tag = (do
    match ← recvFragments (es * count) (fragments (es * count)) es datatype with
    | .fault => .fault
    | .exit  => .exit
    | .lost  => recvLost p buf count datatype source tag
    | .all l =>
      if datatype.isChar ∧ (count : Int) < 1 then .fault else
      let buf := assemble buf count (fragments (es * count)) es datatype l.table
      takeNote (.stored buf)
      let p ← countReceived p source
      _mpiSendTcpLostPacket p .ack p.rank l.root.toInt tag .send
      return (count, buf, p)) := by
  have ⟨hsize, ht, _⟩ := sizes_eq hs hl
  simp only [maxPayload, mpiHeader] at hp
  simp only [mpiRecv, hsize, ht, Int.toNat_natCast, hs, Option.getD_some]
  rw [if_neg (by omega), if_pos (by simp only [maxPayload, mpiHeader]; omega)]
  rfl

theorem mpiRecvNoAck_multiple : mpiRecvNoAck p buf count datatype source = (do
    match ← recvFragments (es * count) (fragments (es * count)) es datatype with
    | .fault => .fault
    | .exit  => .exit
    | .lost  => return (-1, buf, p)
    | .all l =>
      if datatype.isChar ∧ (count : Int) < 1 then .fault else
      let buf := assemble buf count (fragments (es * count)) es datatype l.table
      takeNote (.stored buf)
      let p ← countReceived p source
      return (count, buf, p)) := by
  have ⟨hsize, ht, _⟩ := sizes_eq hs hl
  simp only [maxPayload, mpiHeader] at hp
  simp only [mpiRecvNoAck, hsize, ht, Int.toNat_natCast, hs, Option.getD_some]
  rw [if_neg (by omega), if_pos (by simp only [maxPayload, mpiHeader]; omega)]
  rfl

end Receives

variable (datatype buf tag) in
theorem mpiRecv_performs (hr : r < p.size) (hm : μ.mayTimeout p.rank = false) (hs : datatype.sizeof? = some es)
    (hc : Single es count) (hd : SameMessage (μ.copy p.rank d) d) {h : Header} {data : Bytes}
    (hca : Carries d h data) (hl : data.length = es * count) :
    Performs μ p.rank (mpiRecv p buf count datatype r tag)
      [.get (.udp p.rank) d, .note (.stored (stored es count datatype data buf))]
      (.ret (count, stored es count datatype data buf, p.countId r p.rank)) := by
  have ⟨_, hle, hlt⟩ := hc.bounds hs
  have ⟨hdata, hlen⟩ := hd.data hca hl
  have hsm := storeMessage_eq buf hs (by omega) hle hlen
  rw [mpiRecv_single hs hc]
  refine (recvDatagram_performs hm _ d).seq ?_
  rw [hsm, hdata, countReceived_natCast hr]
  exact .note .refl

variable (datatype buf) in
theorem mpiRecvNoAck_performs (hr : r < p.size) (hm : μ.mayTimeout p.rank = false) (hs : datatype.sizeof? = some es)
    (hc : Single es count) (hd : SameMessage (μ.copy p.rank d) d) {h : Header} {data : Bytes}
    (hca : Carries d h data) (hl : data.length = es * count) :
    Performs μ p.rank (mpiRecvNoAck p buf count datatype r)
      [.get (.udp p.rank) d, .note (.stored (stored es count datatype data buf))]
      (.ret (count, stored es count datatype data buf, p.countId r p.rank)) := by
  have ⟨_, hle, hlt⟩ := hc.bounds hs
  have ⟨hdata, hlen⟩ := hd.data hca hl
  have hsm := storeMessage_eq buf hs (by omega) hle hlen
  rw [mpiRecvNoAck_single hs hc]
  refine (recvDatagram_performs hm _ d).seq ?_
  rw [hsm, hdata, countReceived_natCast hr]
  exact .note .refl

theorem recvLost_performs (hp : p.rank < p.size) (hr : r < p.size) (hne : r ≠ p.rank)
    (hs : datatype.sizeof? = some es) (hc : 0 < count) (hl : mpiHeader + es * count < 2 ^ 31)
    {h : Header} {data : Bytes} (hd : data.length = es * count) :
    Performs μ p.rank (recvLost p buf count datatype r tag)
      [.put [(.tcp p.rank r, (notice p .nack r tag).encode)],
        .get (.tcp r p.rank) (h.encode ++ data),
        .note (.stored (restored es count datatype data buf))]
      (.ret (count, restored es count datatype data buf, p.countId r p.rank)) := by
  refine (_mpiSendTcpLostPacket_performs _ hp hr hne tag).seq ?_
  refine (_mpiRecvTcp_performs hr hne hs hc hl hd).seq ?_
  rw [countReceived_natCast hr]
  exact .note .refl

variable (datatype buf tag) in
theorem mpiRecv_timeout (hm : μ.mayTimeout p.rank = true) (hp : p.rank < p.size) (hr : r < p.size)
    (hne : r ≠ p.rank) (hs : datatype.sizeof? = some es) (hc : Single es count)
    {h : Header} {data : Bytes} (hd : data.length = es * count) :
    Performs μ p.rank (mpiRecv p buf count datatype r tag)
      [.timeout, .put [(.tcp p.rank r, (notice p .nack r tag).encode)],
        .get (.tcp r p.rank) (h.encode ++ data),
        .note (.stored (restored es count datatype data buf))]
      (.ret (count, restored es count datatype data buf, p.countId r p.rank)) := by
  have ⟨_, _, hlt⟩ := hc.bounds hs
  rw [mpiRecv_single hs hc]
  exact (recvDatagram_timeout hm _).seq (recvLost_performs hp hr hne hs hc.1 hlt hd)

section Contents

variable {b m : Mem}

-- The elements after they have been converted for the message and back.
def converted (es count : Nat) (m : Mem) : Bytes :=
  genericNtoh es count (payload es count m)

theorem converted_length (hs : ElementSize es) : (converted es count m).length = es * count :=
  genericHton_length hs (by rw [payload_length hs])

theorem converted_eq (hs : ElementSize es) (hn : es ≠ 16) : converted es count m = m.read 0 (es * count) :=
  genericHton_twice hs hn (by simp)

theorem read_write_take (hl : data.length = n) (hk : k ≤ n) : ((b.write 0 data).read 0 k) = data.take k := by
  rw [← Mem.read_take _ _ hk, ← hl, Mem.read_write_same]

theorem restored_read (hs : ElementSize es) :
    (restored es count datatype (payload es count m) b).read 0 (es * count) = converted es count m := by
  have hw : (b.write 0 (converted es count m)).read 0 (es * count) = converted es count m := by
    rw [← converted_length hs (m := m), Mem.read_write_same]
  rw [restored, terminate]
  split
  · rw [Mem.read_write_disjoint (by omega)]
    exact hw
  · exact hw

variable (datatype) in
theorem stored_read (hs : ElementSize es) (h0 : 0 < count) :
    (stored es count datatype (payload es count m) b).read 0 (es * count) =
      if datatype.isChar then (converted es count m).take (es * (count - 1)) ++ List.replicate es 0
      else converted es count m := by
  have hl : (converted es count m).length = es * count := converted_length hs
  rw [stored, terminate]
  split
  case isTrue =>
    have he : es * count = es * (count - 1) + es := by
      rw [← Nat.mul_succ]
      congr 1
      omega
    have hr := Mem.read_write_same (b.write 0 (converted es count m)) (es * (count - 1)) (List.replicate es 0)
    rw [List.length_replicate] at hr
    rw [he, Mem.read_append, Mem.read_write_disjoint (by omega), Nat.zero_add]
    exact congr (congrArg _ (read_write_take hl (by omega))) hr
  case isFalse =>
    have hw := read_write_take (b := b) hl (Nat.le_refl _)
    rwa [List.take_of_length_le (by omega)] at hw

theorem stored_read_char (h0 : 0 < count) {data : List Byte} (hd : m.read 0 count = data)
    (hl : data.drop (count - 1) = [0]) :
    (stored 1 count .char (payload 1 count m) b).read 0 count = data := by
  have h := stored_read .char (b := b) (m := m) (show ElementSize 1 by simp [ElementSize]) h0
  rw [converted_eq (by simp [ElementSize]) (by decide)] at h
  simp only [Nat.one_mul] at h
  rw [h, hd, if_pos (show MPIDatatype.char.isChar = true by decide)]
  conv_rhs => rw [← List.take_append_drop (count - 1) data, hl]
  rfl

end Contents

end Mpi

import XdpCollectives.Mpi.Medium
import XdpCollectives.Process.Performs
import Mathlib.Tactic.Linarith

-- What the parts of the collectives do, as scripts.
namespace Mpi

open Memory Wire Process

section Numbers

variable {n count es : Nat} {datatype : MPIDatatype}

theorem u64_natCast (h : n < 2 ^ 64) : u64 (n : Int) = n := by
  simp only [u64]
  omega

theorem i32_natCast (h : n < 2 ^ 31) : i32 (n : Int) = n :=
  Int.bmod_eq_of_le (by omega) (by omega)

variable (es) in
theorem datatypeSizeInBytes_eq (hs : datatype.sizeof? = some es) (hl : es * count < 2 ^ 31) :
    datatypeSizeInBytes count datatype = (es * count : Nat) := by
  simp only [datatypeSizeInBytes, hs]
  rw [← Nat.cast_mul, Nat.mul_comm, i32_natCast hl]

theorem datatypeSizeInBytes_lt (count : Int) (datatype : MPIDatatype) :
    datatypeSizeInBytes count datatype < 2 ^ 31 := by
  rw [datatypeSizeInBytes]
  split
  case h_1 => exact Int.bmod_lt (by decide)
  case h_2 => decide

theorem sizes_eq (hs : datatype.sizeof? = some es) (hl : mpiHeader + es * count < 2 ^ 31) :
    datatypeSizeInBytes count datatype = (es * count : Nat) ∧
      i32 (mpiHeader + (es * count : Nat)) = (mpiHeader + es * count : Nat) ∧ u64 count = count := by
  have hle : count ≤ es * count := Nat.le_mul_of_pos_left count (MPIDatatype.sizeof?_elementSize hs).pos
  exact ⟨datatypeSizeInBytes_eq es hs (by omega), i32_natCast hl, u64_natCast (by omega)⟩

-- The length of a message with its header is an `int`, or a negative number.
theorem total_eq {count : Int} (h : 1 ≤ datatypeSizeInBytes count datatype)
    (ht : 0 ≤ i32 (mpiHeader + datatypeSizeInBytes count datatype)) :
    i32 (mpiHeader + datatypeSizeInBytes count datatype) = mpiHeader + datatypeSizeInBytes count datatype := by
  have hlt := datatypeSizeInBytes_lt count datatype
  simp only [i32, mpiHeader, Int.bmod_def] at ht ⊢
  omega

end Numbers

-- Nobody writes down the slots.
theorem useSlot_bind (i : Int) (f : Unit → Program α) : (useSlot i >>= f) = f () := rfl

theorem takeNote_bind (m : Note) (f : Unit → Program α) : (takeNote m >>= f) = .note m (f ()) := rfl

namespace ProcessInfo

variable {p : ProcessInfo} {r : Nat}

theorem inRange_natCast (h : r < p.size) : p.InRange r := by
  simp only [InRange]
  omega

theorem send_eq (hr : r < p.size) (hne : r ≠ p.rank) (m : Bytes) : p.send r m = (.sendBytes r m : Program Unit) := by
  have he : ¬(r : Int) = p.rank := by omega
  simp only [send, useSlot_bind, inRange_natCast hr, he, not_true, if_false, Int.toNat_natCast]

theorem sendto_eq (hne : r ≠ p.rank) (d : Bytes) :
    p.sendto r d = (do Prog.sendDatagram r d; return true : Program Bool) := by
  have he : ¬(r : Int) = p.rank := by omega
  simp only [sendto, useSlot_bind, he, if_false, Int.toNat_natCast]

theorem recv_eq (hr : r < p.size) (hne : r ≠ p.rank) (len : Nat) :
    p.recv r len = (.recvBytes r len : Program Bytes) := by
  have he : ¬(r : Int) = p.rank := by omega
  simp only [recv, useSlot_bind, inRange_natCast hr, he, not_true, if_false, Int.toNat_natCast]

end ProcessInfo

-- A message that consists of a header only.
def notice (p : ProcessInfo) (datatype : MPIDatatype) (dest tag : Int) : Header :=
  header p p.rank dest .send datatype 0 tag 0 (p.ids dest.toNat p.rank)

-- The elements as they are in a message.
def payload (es count : Nat) (buf : Mem) : Bytes :=
  genericHton es count (buf.read 0 (es * count))

theorem payload_length (hs : ElementSize es) : (payload es count buf).length = es * count :=
  genericHton_length hs (by simp)

-- A message over a connection.
def parcel (p : ProcessInfo) (es count : Nat) (datatype : MPIDatatype) (buf : Mem) (dest tag : Int) : Bytes :=
  (notice p datatype dest tag).encode ++ payload es count buf

-- What a receiver of a message over a connection has in its buffer.
def restored (es count : Nat) (datatype : MPIDatatype) (data : Bytes) (buf : Mem) : Mem :=
  terminate datatype es count (buf.write 0 (genericNtoh es count data))

variable {μ : Medium} {p : ProcessInfo} {r es count : Nat} {datatype : MPIDatatype} {buf : Mem}

theorem recvHeader_performs (hr : r < p.size) (hne : r ≠ p.rank) (h : Header) (rest : Mem) :
    Performs μ p.rank (recvHeader p r rest) [.get (.tcp r p.rank) h.encode] (.ret h) := by
  have hd (bs : Bytes) : Header.decode (h.encode ++ bs) = h := h.decode_encode bs
  rw [recvHeader, ProcessInfo.recv_eq hr hne]
  refine .recv h.encode_length (by decide) ?_
  show Performs μ p.rank (.ret (Header.decode _)) [] _
  rw [hd]
  exact .refl

variable (datatype) in
theorem _mpiSendTcpLostPacket_performs (hp : p.rank < p.size) (hr : r < p.size) (hne : r ≠ p.rank)
    (tag : Int) :
    Performs μ p.rank (_mpiSendTcpLostPacket p datatype p.rank r tag .send)
      [.put [(.tcp p.rank r, (notice p datatype r tag).encode)]] (.ret ()) := by
  rw [_mpiSendTcpLostPacket, useSlot_bind, if_neg (by simp [ProcessInfo.inRange_natCast, hp, hr]),
    ProcessInfo.send_eq hr hne]
  exact .send .refl

variable (buf) in
theorem _mpiSendTcp_performs (hp : p.rank < p.size) (hr : r < p.size) (hne : r ≠ p.rank)
    (hs : datatype.sizeof? = some es) (hc : 0 < count) (hl : mpiHeader + es * count < 2 ^ 31) (tag : Int) :
    Performs μ p.rank (_mpiSendTcp p buf count datatype p.rank r tag .send)
      [.put [(.tcp p.rank r, parcel p es count datatype buf r tag)]] (.ret count) := by
  have hpos : 0 < es * count := Nat.mul_pos (MPIDatatype.sizeof?_elementSize hs).pos hc
  have ⟨hsize, ht, hu⟩ := sizes_eq hs hl
  rw [_mpiSendTcp]
  simp only [useSlot_bind, hsize, ht, hs, hu, Option.getD_some, ProcessInfo.inRange_natCast, hp, hr,
    ProcessInfo.send_eq hr hne]
  rw [if_neg (by omega), if_neg (by omega), if_neg (by simp only [not_true, false_or]; omega)]
  exact .send .refl

-- One receive gets a whole message.
theorem _mpiRecvTcpLoop_performs (hr : r < p.size) (hne : r ≠ p.rank) {m : Bytes} (hm : 0 < m.length) :
    Performs μ p.rank (_mpiRecvTcpLoop p r m.length m.length) [.get (.tcp r p.rank) m] (.ret m) := by
  obtain ⟨k, hk⟩ := Nat.exists_eq_add_of_lt hm
  have hn : _mpiRecvTcpLoop p r (0 + k) 0 = .ret [] := by
    cases 0 + k <;> rfl
  rw [hk, _mpiRecvTcpLoop, if_neg (by omega), ProcessInfo.recv_eq hr hne]
  refine .recv hk (by omega) ?_
  show Performs μ p.rank (_mpiRecvTcpLoop p r (0 + k) (0 + k + 1 - m.length) >>= _) [] _
  rw [show 0 + k + 1 - m.length = 0 by omega, hn]
  show Performs μ p.rank (.ret (m ++ [])) [] _
  rw [List.append_nil]
  exact .refl

variable (p buf) in
theorem _mpiRecvTcp_eq (hs : datatype.sizeof? = some es) (hc : 0 < count) (hl : mpiHeader + es * count < 2 ^ 31)
    (source : Int) : _mpiRecvTcp p buf count datatype source =
      (do
        let message ← _mpiRecvTcpLoop p source (mpiHeader + es * count) (mpiHeader + es * count)
        return (count, restored es count datatype (message.drop mpiHeader) buf)) := by
  have hpos : 0 < es * count := Nat.mul_pos (MPIDatatype.sizeof?_elementSize hs).pos hc
  have ⟨hsize, ht, hu⟩ := sizes_eq hs hl
  rw [_mpiRecvTcp]
  simp only [hsize, ht, hs, hu, Option.getD_some, Int.toNat_natCast]
  rw [if_neg (by omega), if_neg (by omega)]
  simp only [Nat.lt_irrefl, if_false]
  rfl

theorem _mpiRecvTcp_performs (hr : r < p.size) (hne : r ≠ p.rank)
    (hs : datatype.sizeof? = some es) (hc : 0 < count) (hl : mpiHeader + es * count < 2 ^ 31)
    {h : Header} {data : Bytes} (hd : data.length = es * count) :
    Performs μ p.rank (_mpiRecvTcp p buf count datatype r)
      [.get (.tcp r p.rank) (h.encode ++ data)] (.ret (count, restored es count datatype data buf)) := by
  have hm : (h.encode ++ data).length = mpiHeader + es * count := by
    rw [List.length_append, h.encode_length, hd]
  have hpos : 0 < (h.encode ++ data).length := by
    rw [hm]
    exact Nat.add_pos_left (by decide) _
  rw [_mpiRecvTcp_eq p buf hs hc hl, ← hm]
  refine (_mpiRecvTcpLoop_performs hr hne hpos).seq ?_
  rw [List.drop_left' h.encode_length]
  exact .refl

end Mpi

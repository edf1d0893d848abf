import XdpCollectives.Mpi.Reduce
import XdpCollectives.Mpi.Theorems.Datagrams
import XdpCollectives.Process.Stream
import XdpCollectives.Wire.Theorems.Order

-- Messages on one connection, of which every `recv` returns as much as has come.
namespace Mpi

open Memory Wire Process

-- Where a process receives from one of its peers.
inductive Site
  | mpiSend
  | mpiBcastRingXdp
  | mpiBcastLinearXdp
  | mpiRecvTcp (count : Nat) (datatype : MPIDatatype)
  | mpiReduceLinearSum (count : Nat)
  | mpiReduceLinearMax (count : Nat)

-- What a receive gives to the function that it is part of.
inductive Reading
  | header (h : Header)
  | elements (ret : Int) (buf : Mem)
  | doubles (buf : Mem)

namespace Site

def receive (p : ProcessInfo) (source : Nat) (buf : Mem) : Site → Program Reading
  | mpiSend                                          => return .header (← recvHeader p source p.garbage)
  | mpiBcastRingXdp                                  => return .header (← recvHeader p source fun _ => 0)
  | mpiBcastLinearXdp                                => return .header (← recvHeader p source p.garbage)
  | mpiRecvTcp count datatype                        => do
    let (ret, buf) ← _mpiRecvTcp p buf count datatype source
    return .elements ret buf
  | mpiReduceLinearSum count | mpiReduceLinearMax count =>
    return .doubles (← recvContribution p source count p.garbage)

-- What the sites that call `recv` once make of what it returns.
def decode (p : ProcessInfo) : Site → Bytes → Reading
  | mpiSend, message | mpiBcastLinearXdp, message   =>
    .header (Header.decode (message ++ p.garbage.read message.length (mpiHeader - message.length)))
  | mpiBcastRingXdp, message                        =>
    .header (Header.decode (message ++ Mem.read (fun _ => 0) message.length (mpiHeader - message.length)))
  | _, message                                      => .doubles (p.garbage.write 0 message)

-- The number of bytes that a receive asks for.
def length : Site → Nat
  | mpiRecvTcp count datatype                           => mpiHeader + datatype.sizeof?.getD 0 * count
  | mpiReduceLinearSum count | mpiReduceLinearMax count => 8 * count
  | _                                                   => mpiHeader

-- A message for the site can be written.
def Fits : Site → Prop
  | mpiRecvTcp count datatype                           =>
    0 < count ∧ datatype.sizeof?.isSome ∧ mpiHeader + datatype.sizeof?.getD 0 * count < 2 ^ 31
  | mpiReduceLinearSum count | mpiReduceLinearMax count => 0 < count ∧ count < 2 ^ 31
  | _                                                   => True

-- `__mpi_recv_tcp` calls `recv` until it has all that it asks for.
def Loops : Site → Prop
  | mpiRecvTcp _ _ => True
  | _              => False

end Site

-- What the peer writes for a site: a header, or elements of its buffer, or both.
structure Message where
  site   : Site
  fits   : site.Fits
  header : Header
  buf    : Mem

namespace Message

def bytes (m : Message) : Bytes :=
  match m.site with
  | .mpiRecvTcp count datatype                            =>
    m.header.encode ++ payload (datatype.sizeof?.getD 0) count m.buf
  | .mpiReduceLinearSum count | .mpiReduceLinearMax count => m.buf.read 0 (8 * count)
  | _                                                     => m.header.encode

-- The message as it was written is what the receive gives.
def Delivers (m : Message) (d : Reading) : Prop :=
  match m.site, d with
  | .mpiRecvTcp count datatype, .elements ret buf                                         =>
    ret = count ∧ buf.read 0 (datatype.sizeof?.getD 0 * count) = m.buf.read 0 (datatype.sizeof?.getD 0 * count)
  | .mpiReduceLinearSum count, .doubles buf | .mpiReduceLinearMax count, .doubles buf     =>
    buf.read 0 (8 * count) = m.buf.read 0 (8 * count)
  | .mpiSend, .header h | .mpiBcastRingXdp, .header h | .mpiBcastLinearXdp, .header h     => h = m.header
  | _, _                                                                                  => False

-- The elements survive the two conversions.
def Survives (m : Message) : Prop :=
  match m.site with
  | .mpiRecvTcp count datatype =>
    datatype.sizeof?.getD 0 ≠ 16 ∨
      ∀ e ∈ elements (datatype.sizeof?.getD 0) count (m.buf.read 0 (datatype.sizeof?.getD 0 * count)), e.reverse = e
  | _                          => True

end Message

-- The receives at some sites, one after the other, with the bytes that each of them has read. The `j`-th `recv` of the
-- `k`-th receive finds `cut k j` bytes.
def receives (p : ProcessInfo) (source : Nat) (bufs : Nat → Mem) (cut : Nat → Nat → Nat) :
    (k : Nat) → List Site → Bytes → List (Bytes × Reading)
  | _, [],            _ => []
  | k, site :: sites, s =>
    match (site.receive p source (bufs k)).read source (cut k) 0 s with
    | (.ret d, _, s') => (s.take (s.length - s'.length), d) :: receives p source bufs cut (k + 1) sites s'
    | _               => []

-- Every receive reads its own message, and gives it as it was written.
def Framed (p : ProcessInfo) (source : Nat) (bufs : Nat → Mem) (cut : Nat → Nat → Nat) (k : Nat) (ms : List Message)
    (later : Bytes) : Prop :=
  List.Forall₂ (fun m x => x.1 = m.bytes ∧ m.Delivers x.2) ms
    (receives p source bufs cut k (ms.map Message.site) (ms.flatMap Message.bytes ++ later))

variable {p : ProcessInfo} {r : Nat} {cut : Nat → Nat} {j : Nat} {s : Bytes} {buf : Mem}

namespace Message

theorem bytes_length (m : Message) : m.bytes.length = m.site.length := by
  obtain ⟨site, hf, h, buf⟩ := m
  cases site
  case mpiRecvTcp count datatype =>
    have ⟨es, hs⟩ := Option.isSome_iff_exists.mp hf.right.left
    have he : ElementSize (datatype.sizeof?.getD 0) := by
      rw [hs]
      exact MPIDatatype.sizeof?_elementSize hs
    rw [bytes, List.length_append, h.encode_length, payload_length he]
    rfl
  case mpiReduceLinearSum | mpiReduceLinearMax => exact Mem.read_length
  all_goals exact h.encode_length

theorem length_pos (m : Message) : 0 < m.site.length := by
  obtain ⟨site, hf, h, buf⟩ := m
  cases site
  case mpiReduceLinearSum | mpiReduceLinearMax => exact Nat.mul_pos (by decide) hf.left
  case mpiRecvTcp => exact Nat.add_pos_left (by decide) _
  all_goals exact (by decide : 0 < mpiHeader)

theorem bytes_ne_nil (m : Message) (s : Bytes) : m.bytes ++ s ≠ [] := by
  intro h
  have hl := m.bytes_length
  rw [(List.append_eq_nil_iff.mp h).left, List.length_nil] at hl
  exact absurd m.length_pos (by omega)

end Message

section Reads

variable {m : Message} (hr : r < p.size) (hne : r ≠ p.rank)
include hr hne

theorem recv_read (len : Nat) (f : Bytes → Program α) (h : s ≠ []) : (p.recv r len >>= f).read r cut j s =
    (f (s.take (min len (cut j)))).read r cut (j + 1) (s.drop (min len (cut j))) := by
  rw [ProcessInfo.recv_eq hr hne]
  exact Prog.read_recv len f h

theorem _mpiRecvTcpLoop_read (hcut : ∀ j, 0 < cut j) (fuel : Nat) (hf : left ≤ fuel) (hl : left ≤ s.length) :
    ∃ j', (_mpiRecvTcpLoop p r fuel left).read r cut j s = (.ret (s.take left), j', s.drop left) := by
  induction fuel generalizing left j s
  case zero =>
    obtain rfl := Nat.le_zero.mp hf
    exact ⟨j, rfl⟩
  case succ fuel hi =>
    rw [_mpiRecvTcpLoop]
    split
    case isTrue h =>
      subst h
      exact ⟨j, rfl⟩
    case isFalse h =>
      have hs : s ≠ [] := fun hs => by simp [hs] at hl; omega
      have hc := hcut j
      rw [recv_read hr hne _ _ hs]
      -- What has come by now is of use, since the loop ends only when the message is there.
      generalize hn : min left (cut j) = n
      have hlen : (s.take n).length = n := List.length_take_of_le (by omega)
      have ⟨j', hj⟩ : ∃ j', (_mpiRecvTcpLoop p r fuel (left - n)).read r cut (j + 1) (s.drop n) =
          (.ret ((s.drop n).take (left - n)), j', (s.drop n).drop (left - n)) :=
        hi (by omega) (by rw [List.length_drop]; omega)
      refine ⟨j', ?_⟩
      rw [hlen, Prog.read_bind_ret hj, List.drop_drop, Nat.add_sub_of_le (by omega)]
      rw [← Nat.add_sub_of_le (show n ≤ left by omega), List.take_add, Nat.add_sub_cancel_left]
      rfl

theorem _mpiRecvTcp_read (hcut : ∀ j, 0 < cut j) (hs : datatype.sizeof? = some es) (hc : 0 < count)
    (hl : mpiHeader + es * count < 2 ^ 31) {h : Header} {data : Bytes} (hd : data.length = es * count) :
    ∃ j', (_mpiRecvTcp p buf count datatype r).read r cut j (h.encode ++ data ++ s) =
      (.ret (count, restored es count datatype data buf), j', s) := by
  have hm : (h.encode ++ data).length = mpiHeader + es * count := by
    rw [List.length_append, h.encode_length, hd]
  have ⟨j', hj⟩ := _mpiRecvTcpLoop_read hr hne (j := j) (s := h.encode ++ data ++ s) hcut (mpiHeader + es * count)
    (Nat.le_refl _) (by rw [List.length_append, hm]; exact Nat.le_add_right ..)
  rw [List.take_left' hm, List.drop_left' hm] at hj
  refine ⟨j', ?_⟩
  rw [_mpiRecvTcp_eq p buf hs hc hl, Prog.read_bind_ret hj, List.drop_left' h.encode_length]
  rfl

-- The sites that call `recv` once take what comes for the message.
theorem receive_once {site : Site} (hf : site.Fits) (h : ¬site.Loops) (hs : s ≠ []) (cut : Nat → Nat) (buf : Mem) :
    (site.receive p r buf).read r cut 0 s = (.ret (site.decode p (s.take (min site.length (cut 0)))), 1,
      s.drop (min site.length (cut 0))) := by
  cases site
  case mpiRecvTcp => exact absurd trivial h
  case mpiReduceLinearSum count | mpiReduceLinearMax count =>
    have hu : u64 (u64 (count : Nat) * 8 : Nat) = 8 * count := by
      have hc := hf.right
      rw [u64_natCast (n := count) (by omega), u64_natCast (by omega), Nat.mul_comm]
    rw [Site.receive, recvContribution, hu]
    exact Prog.read_bind_ret (recv_read hr hne (8 * count) _ hs) _
  all_goals
    rw [Site.receive, recvHeader]
    exact Prog.read_bind_ret (recv_read hr hne mpiHeader _ hs) _

-- A message that comes as a whole, or is waited for.
theorem receive_whole (hcut : ∀ j, 0 < cut j) (buf : Mem) (m : Message)
    (hl : m.site.Loops ∨ m.site.length ≤ cut 0) (s : Bytes) :
    ∃ d j', (m.site.receive p r buf).read r cut 0 (m.bytes ++ s) = (.ret d, j', s) ∧
      (m.Delivers d ↔ m.Survives) := by
  by_cases hloop : m.site.Loops
  case pos =>
    obtain ⟨site, hf, h, b⟩ := m
    cases site
    case mpiRecvTcp count datatype =>
      have ⟨hc, hs, hlt⟩ := hf
      have ⟨es, hs⟩ := Option.isSome_iff_exists.mp hs
      have he := MPIDatatype.sizeof?_elementSize hs
      rw [hs, Option.getD_some] at hlt
      have hd : (payload es count b).length = es * count := payload_length he
      have ⟨j', hj⟩ : ∃ j', (_mpiRecvTcp p buf count datatype r).read r cut 0 (h.encode ++ payload es count b ++ s) =
          (.ret (count, restored es count datatype (payload es count b) buf), j', s) :=
        _mpiRecvTcp_read hr hne hcut hs hc hlt hd
      refine ⟨.elements count (restored es count datatype (payload es count b) buf), j', ?_, ?_⟩
      · simp only [Site.receive, Message.bytes, hs, Option.getD_some]
        exact Prog.read_bind_ret hj _
      · simp only [Message.Delivers, Message.Survives, hs, Option.getD_some, true_and]
        rw [restored_read he]
        exact genericHton_restores_iff he (Mem.read_length)
    all_goals contradiction
  case neg =>
    have hn : min m.site.length (cut 0) = m.bytes.length := by
      rw [m.bytes_length, Nat.min_eq_left (hl.resolve_left hloop)]
    have hread := receive_once hr hne m.fits hloop (m.bytes_ne_nil s) cut buf
    rw [hn, List.take_left, List.drop_left] at hread
    refine ⟨_, _, hread, ?_⟩
    obtain ⟨site, hf, h, b⟩ := m
    cases site
    case mpiRecvTcp => exact absurd trivial hloop
    case mpiReduceLinearSum count | mpiReduceLinearMax count =>
      refine iff_of_true ?_ trivial
      have hw := Mem.read_write_same p.garbage 0 (b.read 0 (8 * count))
      rwa [Mem.read_length] at hw
    all_goals exact iff_of_true (h.decode_encode _) trivial

-- The rest of a message that has not come yet stays on the connection.
theorem receive_short (buf : Mem) (m : Message) (hl : ¬m.site.Loops) (hc : cut 0 < m.site.length) (s : Bytes) :
    ∃ d j', (m.site.receive p r buf).read r cut 0 (m.bytes ++ s) = (.ret d, j', (m.bytes ++ s).drop (cut 0)) := by
  have h := receive_once hr hne m.fits hl (m.bytes_ne_nil s) cut buf
  rw [Nat.min_eq_right (Nat.le_of_lt hc)] at h
  exact ⟨_, _, h⟩

variable {cut : Nat → Nat → Nat} (hcut : ∀ k j, 0 < cut k j) (bufs : Nat → Mem) (later : Bytes)
include hcut

-- The receive at one site decides about its own message, and leaves the others to the receives behind it if it has read
-- no less than that.
theorem framed_cons (m : Message) (ms : List Message) (k : Nat) : Framed p r bufs cut k (m :: ms) later ↔
    ((m.site.Loops ∨ m.site.length ≤ cut k 0) ∧ m.Survives) ∧ Framed p r bufs cut (k + 1) ms later := by
  rw [Framed, List.map_cons, List.flatMap_cons, List.append_assoc, receives]
  generalize hs : ms.flatMap Message.bytes ++ later = s
  by_cases hl : m.site.Loops ∨ m.site.length ≤ cut k 0
  case pos =>
    have ⟨d, j', hread, hd⟩ := receive_whole hr hne (hcut k) (bufs k) m hl s
    simp only [hread, List.forall₂_cons, List.length_append, Nat.add_sub_cancel, List.take_left, true_and, hd, hl]
    rw [Framed, hs]
  case neg =>
    have ⟨hloop, hlen⟩ := not_or.mp hl
    have hc := Nat.not_le.mp hlen
    have ⟨d, j', hread⟩ := receive_short hr hne (bufs k) m hloop hc s
    simp only [hread, List.forall₂_cons, hl, false_and, iff_false]
    intro ⟨⟨hb, _⟩, _⟩
    -- It has read fewer bytes than the message has.
    have := congrArg List.length hb
    rw [m.bytes_length] at this
    simp at this
    omega

theorem framed_from (ms : List Message) (k : Nat) : Framed p r bufs cut k ms later ↔
    ∀ i m, ms[i]? = some m → (m.site.Loops ∨ m.site.length ≤ cut (k + i) 0) ∧ m.Survives := by
  induction ms generalizing k
  case nil => exact iff_of_true .nil nofun
  case cons m ms hi =>
    rw [framed_cons hr hne hcut, hi]
    constructor
    case mp =>
      intro ⟨hm, hms⟩ i m' hm'
      cases i with
      | zero   => exact Option.some.inj hm' ▸ hm
      | succ i =>
        rw [← Nat.add_assoc, Nat.add_right_comm]
        exact hms i m' hm'
    case mpr =>
      intro h
      refine ⟨h 0 m rfl, fun i m' hm' => ?_⟩
      rw [Nat.add_right_comm, Nat.add_assoc]
      exact h (i + 1) m' hm'

end Reads

theorem messages_framed_iff (bufs : Nat → Mem) (later : Bytes) (ms : List Message) (hr : r < p.size) (hne : r ≠ p.rank)
    {cut : Nat → Nat → Nat} (hcut : ∀ k j, 0 < cut k j) : Framed p r bufs cut 0 ms later ↔
      ∀ k m, ms[k]? = some m → (m.site.Loops ∨ m.site.length ≤ cut k 0) ∧ m.Survives := by
  rw [framed_from hr hne hcut]
  simp only [Nat.zero_add]

-- The acknowledgement of a peer, which `mpi_send` waits for.
def ackMessage : Message where
  site   := .mpiSend
  fits   := trivial
  header := notice (.init 2 1 fun _ => 0) .ack 0 1
  buf    := fun _ => 0

def threeInts : Message where
  site   := .mpiRecvTcp 3 .int
  fits   := by simp [Site.Fits, MPIDatatype.sizeof?, mpiHeader]
  header := notice (.init 2 1 fun _ => 0) .int 0 1
  buf    := Mem.ofList [1, 2, 3]

theorem messages_framed_iff_two : Framed (.init 2 0 fun _ => 0) 1 (fun _ _ => 0) (fun k _ => if k = 0 then 7 else 48) 0
    [threeInts, ackMessage] [] := by
  refine (messages_framed_iff _ _ _ (by decide) (by decide) fun k _ => by split <;> decide).mpr ?_
  intro k m hm
  match k with
  | 0     => exact Option.some.inj hm ▸ ⟨.inl trivial, .inl (by decide)⟩
  | 1     => exact Option.some.inj hm ▸ ⟨.inr (by decide), trivial⟩
  | _ + 2 => contradiction

-- The first acknowledgement comes in two parts.
theorem not_framed_two :
    ¬Framed (.init 2 0 fun _ => 0) 1 (fun _ _ => 0) (fun _ _ => 40) 0 [ackMessage, ackMessage] [] := by
  rw [framed_from (by decide) (by decide) fun _ _ => by decide]
  intro h
  exact (h 0 ackMessage rfl).left.elim id (by decide)

end Mpi

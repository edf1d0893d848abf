import XdpCollectives.Mpi.Forwarding
import XdpCollectives.Mpi.Theorems.Agreement
import XdpCollectives.Mpi.Theorems.Course
import XdpCollectives.Mpi.Theorems.Doubled

-- Broadcasts whose copies pile up in the sockets.
namespace Mpi

open Memory Wire Process Script

-- A queue to which something is added `c` times in every round, and from which one thing is taken in every round.
section Queue

variable {α : Type} {c k : Nat} {x : Nat → α}

def added (c : Nat) (x : Nat → α) (k : Nat) : List α :=
  (List.range (k * c)).map fun i => x (i / c)

def backlog (c : Nat) (x : Nat → α) (k : Nat) : List α :=
  (added c x k).drop k

theorem added_succ (hc : 0 < c) : added c x (k + 1) = added c x k ++ List.replicate c (x k) := by
  have hk : (List.range c).map (fun i => x ((k * c + i) / c)) = (List.range c).map fun _ => x k := by
    refine List.map_congr_left fun i hi => ?_
    rw [Nat.mul_comm, Nat.mul_add_div hc, Nat.div_eq_of_lt (List.mem_range.mp hi), Nat.add_zero]
  rw [added, Nat.succ_mul, List.range_add, List.map_append, List.map_map]
  refine congrArg _ (hk.trans ?_)
  rw [List.map_const', List.length_range]

theorem backlog_zero : backlog c x 0 = [] := by
  rw [backlog, added, Nat.zero_mul]
  rfl

-- What is taken is older and older, unless it comes once.
theorem backlog_succ (hc : 0 < c) : backlog c x k ++ List.replicate c (x k) = x (k / c) :: backlog c x (k + 1) := by
  have hk : k ≤ (added c x k).length := by
    rw [added, List.length_map, List.length_range]
    exact Nat.le_mul_of_pos_right k hc
  have hlt : k < (k + 1) * c := Nat.lt_of_lt_of_le (Nat.lt_succ_self k) (Nat.le_mul_of_pos_right _ hc)
  have hl : k < (added c x (k + 1)).length := by rwa [added, List.length_map, List.length_range]
  rw [backlog, ← List.drop_append_of_le_length hk, ← added_succ hc, List.drop_eq_getElem_cons hl, backlog]
  congr 1
  simp only [added, List.getElem_map, List.getElem_range]

end Queue

theorem datagrams_root {p : ProcessInfo} {root r es count : Nat} {datatype : MPIDatatype} {tag : Int}
    (hd : d ∈ datagrams p buf es count datatype root r tag collective) :
    (Header.decode d).root = BitVec.ofInt 32 root := by
  rw [datagrams] at hd
  split at hd
  · obtain ⟨i, _, he⟩ := List.mem_map.mp hd
    rw [← he, fragment, List.append_assoc, Header.decode_encode]
    rfl
  · rw [List.mem_singleton.mp hd, Header.decode_encode]
    rfl

-- The opcode of a broadcast that the programs in the kernel forward.
def Bcast.opcode : Bcast → Option MPICollective
  | ringXdp | ringXdpEager => some .bcastRing
  | linearXdp              => some .bcastLinear
  | ring | linear          => none

-- The broadcasts of a root, of `count` bytes in one datagram.
structure Series where
  p       : Kernel.Program
  n       : Nat
  root    : Nat
  count   : Nat
  b       : Bcast
  op      : MPICollective
  two     : 2 ≤ n
  root_lt : root < n
  int     : n ≤ 2 ^ 31
  opcode  : b.opcode = some op
  single  : Single 1 count

namespace Series

variable (x : Series)

def medium : Medium :=
  forwarding x.p x.n fun _ => false

def next : Nat := (x.root + 1) % x.n

def prev (r : Nat) : Nat := (r + x.n - 1) % x.n

def copies (r : Nat) : Nat := x.p.copies x.op x.n x.root r

-- The sockets with these datagrams, and nothing in the connections.
def queues (left : Nat → List Bytes) : Queues Chan Bytes
  | .udp r   => if r < x.n ∧ r ≠ x.root then left r else []
  | .tcp _ _ => []

end Series

-- A call of the ranks `P`, with the buffers `bufs`, where rank `r` has `left r` in its socket. It finds the datagram
-- `found r`, which holds what was in `data r`.
structure StaleCall extends Series where
  P        : Nat → ProcessInfo
  bufs     : Nat → Mem
  ranked   : Ranked n P
  sent     : Bytes
  emits    : datagrams (P root) (bufs root) 1 count .char root toSeries.next 1 op = [sent]
  found    : Nat → Bytes
  data     : Nat → Mem
  left     : Nat → List Bytes
  left'    : Nat → List Bytes
  carries  : ∀ r, ∃ h, Carries (found r) h (payload 1 count (data r))
  received : ∀ r < n, r ≠ root → left r ++ List.replicate (toSeries.copies r) sent = found r :: left' r

namespace StaleCall

variable (x : StaleCall)

def rootProc : ProcessInfo :=
  (x.P x.root).countId x.root x.next

def proc (r : Nat) : ProcessInfo :=
  (x.P r).countId (x.prev r) r

def mem (r : Nat) : Mem :=
  stored 1 x.count .char (payload 1 x.count (x.data r)) (x.bufs r)

def ack (r : Nat) : Header :=
  notice (x.proc r) .ack x.root 1

def acks (r : Nat) : List Bytes :=
  if x.b = .ringXdpEager then [] else [(x.ack r).encode]

def collects (r : Nat) : List (Process.Act Note) :=
  (x.acks r).map fun a => .get (.tcp r x.root) a

def part (r : Nat) : List (Nat × Process.Act Note) :=
  tag r (receipt x.root r [x.found r] (x.mem r) (x.acks r)) ++ tag x.root (x.collects r)

def scatter : Process.Act Note :=
  .put (x.medium.outs x.root x.next x.sent)

def outcome : Outcome where
  flow   := tag x.root [x.scatter] ++ star x.n x.root x.part
  buf r  := if r = x.root then x.bufs x.root else x.mem r
  proc r := if r = x.root then x.rootProc else x.proc r

variable {x} {r : Nat}

theorem proj_part_self (hne : r ≠ x.root) :
    proj r (x.part r) = receipt x.root r [x.found r] (x.mem r) (x.acks r) := by
  rw [part, proj_append, proj_tag, proj_tag, if_pos rfl, if_neg (Ne.symm hne), List.append_nil]

theorem proj_part_root (hne : r ≠ x.root) : proj x.root (x.part r) = x.collects r := by
  rw [part, proj_append, proj_tag, proj_tag, if_neg hne, if_pos rfl, List.nil_append]

theorem proj_part_other (hne : i ≠ x.root) (hr : r ≠ i) : proj i (x.part r) = [] := by
  rw [part, proj_append, proj_tag, proj_tag, if_neg hr, if_neg (Ne.symm hne), List.nil_append]

theorem proj_root : proj x.root x.outcome.flow =
    x.scatter :: (List.range x.n).flatMap fun r => if r = x.root then [] else x.collects r := by
  rw [outcome, proj_append, proj_tag, if_pos rfl, proj_star_root fun i h => proj_part_root h, List.singleton_append]

theorem proj_other (hne : r ≠ x.root) : proj r x.outcome.flow =
    if r < x.n then receipt x.root r [x.found r] (x.mem r) (x.acks r) else [] := by
  rw [outcome, proj_append, proj_tag, if_neg (Ne.symm hne), List.nil_append,
    proj_star_other hne (proj_part_self hne) fun i _ hi => proj_part_other hne hi]

theorem payload_len (m : Mem) : (payload 1 x.count m).length = 1 * x.count :=
  payload_length (.inl rfl)

theorem next_lt : x.next < x.n :=
  Nat.mod_lt _ (Nat.zero_lt_of_lt x.root_lt)

theorem next_ne : x.next ≠ x.root :=
  Cycle.add_mod_ne x.root_lt Nat.one_pos x.two

theorem rootProc_rank : x.rootProc.rank = x.root := (x.ranked x.root x.root_lt).left

theorem rootProc_size : x.rootProc.size = x.n := (x.ranked x.root x.root_lt).right

theorem procs_ranked : Ranked x.n x.outcome.proc := by
  intro r hr
  simp only [outcome]
  split
  case isTrue h => exact h ▸ ⟨x.rootProc_rank, x.rootProc_size⟩
  case isFalse  => exact x.ranked r hr

theorem forwarded : (x.b = .ringXdp ∨ x.b = .ringXdpEager) ∧ x.op = .bcastRing ∨
    x.b = .linearXdp ∧ x.op = .bcastLinear := by
  have h := x.opcode
  cases hb : x.b <;> simp only [hb, Bcast.opcode, Option.some.injEq, reduceCtorEq] at h
  case ringXdp      => exact .inl ⟨.inl rfl, h.symm⟩
  case linearXdp    => exact .inr ⟨rfl, h.symm⟩
  case ringXdpEager => exact .inl ⟨.inr rfl, h.symm⟩

theorem sent_header : Kernel.forwardedAs (Header.decode x.sent) = some x.op ∧
    (Header.decode x.sent).root.toNat = x.root := by
  have hm : x.sent ∈ datagrams (x.P x.root) (x.bufs x.root) 1 x.count .char x.root x.next 1 x.op := by
    rw [x.emits]
    exact List.mem_singleton_self _
  have hlt := Nat.lt_of_lt_of_le x.root_lt x.int
  constructor
  case left =>
    rw [Kernel.forwardedAs, datagrams_collective hm, MPICollective.ofCode_code]
    rcases x.forwarded with ⟨_, h⟩ | ⟨_, h⟩ <;> rw [h]
  case right =>
    rw [datagrams_root hm, BitVec.ofInt_natCast, BitVec.toNat_ofNat, Nat.mod_eq_of_lt (by omega)]

-- What is added to the sockets.
theorem outs_udp (r : Nat) : outsOn (.udp r) (x.medium.outs x.root x.next x.sent) =
    if r < x.n then List.replicate (x.copies r) x.sent else [] := by
  obtain ⟨hop, hroot⟩ := x.sent_header
  have hr : x.medium.reach x.root x.next x.sent =
      (List.range x.n).flatMap fun r => List.replicate (x.copies r) r := by
    simp only [Series.medium, forwarding, hop, hroot]
    rfl
  rw [Sim.outsOn_udp, hr, List.filter_flatMap, flatMap_only (i := r)
    (A := List.replicate (x.copies r) r) List.nodup_range fun j _ => ?_]
  · simp only [List.mem_range]
    split
    case isTrue  => rw [List.map_replicate]
    case isFalse => rfl
  · rw [List.filter_replicate]
    by_cases hj : j = r
    case pos => simp [hj]
    case neg => simp [hj]

section Performs

theorem sends : Performs x.medium x.root
    (_mpiSend (x.P x.root) (x.bufs x.root) x.count .char x.root (x.P x.root).next 1 x.op) [x.scatter]
    (.ret (x.count, x.rootProc)) := by
  obtain ⟨hrank, hsize⟩ := x.ranked x.root x.root_lt
  have hroot := x.root_lt
  have hlt := x.next_lt
  have hne := x.next_ne
  have hnext : (x.P x.root).next = x.next := by rw [ProcessInfo.next, hrank, hsize, Series.next]
  have h := _mpiSend_performs x.root .char (x.bufs x.root) 1 x.op (μ := x.medium) (p := x.P x.root) (r := x.next)
    (by omega) (by omega) (by omega) rfl x.single.sendable
  rw [x.emits, hrank, List.map_singleton] at h
  rw [hnext]
  exact h

theorem performs_root : Performs x.medium x.root
    ((Call.bcast x.b x.count .char x.root).perform (x.P x.root) (x.bufs x.root)) (proj x.root x.outcome.flow)
    (.ret (0, x.bufs x.root, x.rootProc)) := by
  obtain ⟨hrank, _⟩ := x.ranked x.root x.root_lt
  have hsend := x.sends
  have hxdp (rest : Mem) (hb : x.b ≠ .ringXdpEager) : Performs x.medium x.root
      (bcastXdp x.op rest (x.P x.root) (x.bufs x.root) x.count .char x.root) (proj x.root x.outcome.flow)
      (.ret (0, x.bufs x.root, x.rootProc)) := by
    have hacks := recvAcks_plain x.root x.count (x.bufs x.root) rest x.ack (μ := x.medium) (n := x.n)
      (p := x.rootProc) x.rootProc_rank x.rootProc_size (fun _ => ack_code _ _ _) (List.range x.n)
      fun i hi => List.mem_range.mp hi
    have hc (r : Nat) : x.collects r = [.get (.tcp r x.root) (x.ack r).encode] := by
      rw [collects, acks, if_neg hb, List.map_singleton]
    rw [proj_root, bcastXdp, if_pos hrank]
    simp only [hc]
    refine hsend.seq ?_
    change Performs _ _ (recvAcks x.rootProc _ _ _ _ _ (List.range x.rootProc.size) >>= fun _ =>
      pure (0, x.bufs x.root, x.rootProc)) _ _
    rw [x.rootProc_size]
    exact hacks.map rfl
  rw [Call.perform]
  rcases x.forwarded with ⟨hb | hb, hop⟩ | ⟨hb, hop⟩
  · rw [hop] at hxdp
    rw [hb]
    exact hxdp _ (by simp [hb])
  · have hc (r : Nat) : x.collects r = [] := by rw [collects, acks, if_pos hb, List.map_nil]
    have he : (List.range x.n).flatMap (fun r => if r = x.root then [] else x.collects r) = [] := by
      simp only [hc, ite_self, List.flatMap_eq_nil_iff, implies_true]
    rw [hop] at hsend
    rw [proj_root, he, hb, Bcast.perform, mpiBcastRingXdpEager, if_pos hrank]
    exact hsend.map rfl
  · rw [hop] at hxdp
    rw [hb]
    exact hxdp _ (by simp [hb])

theorem performs_other (hr : r < x.n) (hne : r ≠ x.root) : Performs x.medium r
    ((Call.bcast x.b x.count .char x.root).perform (x.P r) (x.bufs r)) (proj r x.outcome.flow)
    (.ret (0, x.mem r, x.proc r)) := by
  obtain ⟨hrank, hsize⟩ := x.ranked r hr
  obtain ⟨h, hca⟩ := x.carries r
  have hprev : (x.P r).prev = x.prev r := by rw [ProcessInfo.prev, hrank, hsize, Series.prev]
  have hsame : SameMessage (x.medium.copy (x.P r).rank (x.found r)) (x.found r) := (forwarder x.p x.n).same ..
  have hroot := x.root_lt
  have hlt : x.prev r < (x.P r).size := by
    rw [hsize]
    exact Nat.mod_lt _ (by omega)
  have hpos : ¬(x.count : Int) < 0 := by omega
  have hxdp (rest : Mem) (hb : x.b ≠ .ringXdpEager) : Performs x.medium r
      (bcastXdp x.op rest (x.P r) (x.bufs r) x.count .char x.root) (proj r x.outcome.flow)
      (.ret (0, x.mem r, x.proc r)) := by
    have hm := mpiRecv_performs .char (x.bufs r) 1 (μ := x.medium) (p := x.P r) (r := x.prev r) hlt rfl rfl
      x.single hsame hca (payload_len _)
    have ha := _mpiSendTcpLostPacket_performs .ack (μ := x.medium) (p := x.proc r) (r := x.root)
      (show (x.P r).rank < (x.P r).size by omega) (show x.root < (x.P r).size by omega)
      (show x.root ≠ (x.P r).rank by omega) 1
    have hrank' : (x.proc r).rank = r := hrank
    have hacks : x.acks r = [(x.ack r).encode] := by rw [acks, if_neg hb]
    rw [hrank] at hm
    rw [hrank'] at ha
    rw [proj_other hne, if_pos hr, hacks, bcastXdp, if_neg (by omega), hprev]
    refine hm.seq ?_
    change Performs _ _ (if (x.count : Int) < 0 then _ else _) _ _
    rw [if_neg hpos]
    change Performs _ _ (_mpiSendTcpLostPacket (x.proc r) .ack (x.P r).rank x.root 1 .send >>= fun _ =>
      pure (0, x.mem r, x.proc r)) _ _
    rw [hrank]
    exact ha.map rfl
  rw [Call.perform]
  rcases x.forwarded with ⟨hb | hb, hop⟩ | ⟨hb, hop⟩
  · rw [hop] at hxdp
    rw [hb]
    exact hxdp _ (by simp [hb])
  · have hm := mpiRecvNoAck_performs .char (x.bufs r) (μ := x.medium) (p := x.P r) (r := x.prev r) hlt rfl rfl
      x.single hsame hca (payload_len _)
    have hacks : x.acks r = [] := by rw [acks, if_pos hb]
    rw [hrank] at hm
    rw [proj_other hne, if_pos hr, hacks, hb, Bcast.perform, mpiBcastRingXdpEager, if_neg (by omega), hprev]
    exact hm.map (if_neg hpos)
  · rw [hop] at hxdp
    rw [hb]
    exact hxdp _ (by simp [hb])

end Performs

section Leads

theorem part_flow {qs : Queues Chan Bytes} {rest : List Bytes} (hu : qs (.udp r) = x.found r :: rest)
    (ht : qs (.tcp r x.root) = []) : Flow qs (x.part r) (Function.update qs (.udp r) rest) := by
  have h₁ := Flow.gets [x.found r] rest (E := Note) r (by simpa using hu)
  have h₂ := Flow.note (Function.update qs (.udp r) rest) r (Note.stored (x.mem r))
  have h₃ := Flow.puts (E := Note) (Function.update qs (.udp r) rest) r (.tcp r x.root) (x.acks r)
  have ht' : Function.update qs (.udp r) rest (.tcp r x.root) = [] := by simp [ht]
  rw [ht', List.nil_append] at h₃
  have h₄ := Flow.gets (x.acks r) [] (E := Note) (c := .tcp r x.root)
    (q := Function.update (Function.update qs (.udp r) rest) (.tcp r x.root) (x.acks r)) x.root (by simp)
  have hq : Function.update (Function.update qs (.udp r) rest) (.tcp r x.root) [] =
      Function.update qs (.udp r) rest := by rw [← ht', Function.update_eq_self]
  rw [Function.update_idem, hq] at h₄
  have h := h₁.append (h₂.append (h₃.append h₄))
  simpa only [part, collects, receipt, tag, List.map_append, List.map_cons, List.map_nil, List.append_assoc,
    List.cons_append, List.nil_append] using h

theorem flow : Flow (x.queues x.left) x.outcome.flow (x.queues x.left') := by
  let q₁ : Queues Chan Bytes := x.scatter.effect (x.queues x.left)
  have hq₁ c : q₁ c = x.queues x.left c ++ outsOn c (x.medium.outs x.root x.next x.sent) := rfl
  have hu r (hr : r < x.n) (hne : r ≠ x.root) : q₁ (.udp r) = x.found r :: x.left' r := by
    rw [hq₁, Series.queues, if_pos ⟨hr, hne⟩, x.outs_udp, if_pos hr, x.received r hr hne]
  have ht p q : q₁ (.tcp p q) = [] := by
    rw [hq₁, Sim.outsOn_tcp, List.append_nil, Series.queues]
  obtain ⟨q₂, h₂, own, others⟩ := Flow.independent (l := List.range x.n) List.nodup_range
    (fun r c => r ≠ x.root ∧ (c = .udp r ∨ c = .tcp r x.root)) q₁ (fun r c => if c = .udp r then x.left' r else [])
    (q := q₁) (g := fun r => if r = x.root then [] else x.part r)
    (fun r _ r' _ hne c hr hr' => by rcases hr.right with rfl | rfl <;> simp [hne] at hr')
    (fun r hr qs hqs => by
      by_cases he : r = x.root
      case pos => exact ⟨qs, by rw [if_pos he]; rfl, fun c hc => absurd he hc.left, fun _ _ => rfl⟩
      case neg =>
        have hlt := List.mem_range.mp hr
        have hu' := (hqs (.udp r) ⟨he, .inl rfl⟩).trans (hu r hlt he)
        have ht' := (hqs (.tcp r x.root) ⟨he, .inr rfl⟩).trans (ht _ _)
        rw [if_neg he]
        refine ⟨_, part_flow hu' ht', ?_, fun c hc => ?_⟩
        · rintro c ⟨_, rfl | rfl⟩
          · simp
          · simp [ht']
        · rw [Function.update_of_ne fun h => hc ⟨he, .inl h⟩])
    fun _ _ _ _ => rfl
  have hq₂ : q₂ = x.queues x.left' := by
    funext c
    cases c with
    | udp r =>
      by_cases hr : r < x.n ∧ r ≠ x.root
      case pos =>
        rw [own r (List.mem_range.mpr hr.left) (.udp r) ⟨hr.right, .inl rfl⟩, if_pos rfl, Series.queues, if_pos hr]
      case neg =>
        rw [others (.udp r) fun i hi ho => hr ?_, hq₁, Series.queues, if_neg hr, Series.queues, if_neg hr,
          x.outs_udp, List.nil_append]
        · split
          case isTrue hlt =>
            obtain rfl : r = x.root := by
              by_contra hne
              exact hr ⟨hlt, hne⟩
            rw [Series.copies, Kernel.Program.copies_root]
            rfl
          case isFalse => rfl
        · obtain ⟨hne, he | he⟩ := ho
          · cases he
            exact ⟨List.mem_range.mp hi, hne⟩
          · contradiction
    | tcp p q =>
      by_cases hp : p < x.n ∧ p ≠ x.root ∧ q = x.root
      case pos =>
        obtain ⟨hp, hne, rfl⟩ := hp
        rw [own p (List.mem_range.mpr hp) (.tcp p x.root) ⟨hne, .inr rfl⟩]
        simp [Series.queues]
      case neg =>
        rw [others (.tcp p q) fun i hi ho => hp ?_, ht, Series.queues]
        obtain ⟨hne, he | he⟩ := ho
        · contradiction
        · cases he
          exact ⟨List.mem_range.mp hi, hne, rfl⟩
  rw [← hq₂]
  have h₁ : Flow (x.queues x.left) (tag x.root [x.scatter]) q₁ := ⟨trivial, rfl⟩
  exact h₁.append h₂

theorem mem_part {i : Nat} {a : Process.Act Note} (h : a ∈ proj r (x.part i)) :
    a.OwnedBy (wiring fun _ => x.root) r ∧ ∀ e, a = .note e → ∃ buf, e = .stored buf := by
  rw [part, proj_append, proj_tag, proj_tag, List.mem_append] at h
  rcases h with h | h
  · split at h
    case isFalse => contradiction
    case isTrue hi =>
      subst hi
      simp only [receipt, List.map_cons, List.map_nil, List.mem_append, List.mem_cons, List.mem_map, List.not_mem_nil,
        or_false] at h
      rcases h with rfl | rfl | ⟨a, _, rfl⟩
      · exact ⟨rfl, by simp⟩
      · exact ⟨trivial, fun e he => ⟨_, by cases he; rfl⟩⟩
      · exact ⟨by simp [Act.OwnedBy, wiring], by simp⟩
  · split at h
    case isFalse => contradiction
    case isTrue hr =>
      subst hr
      obtain ⟨a, _, rfl⟩ := List.mem_map.mp h
      exact ⟨rfl, by simp⟩

theorem mem_flow {a : Process.Act Note} (h : a ∈ proj r x.outcome.flow) :
    a.OwnedBy (wiring fun _ => x.root) r ∧ ∀ e, a = .note e → ∃ buf, e = .stored buf := by
  rw [outcome, proj_append, proj_tag, List.mem_append, star, proj_flatMap, List.mem_flatMap] at h
  rcases h with h | ⟨i, _, h⟩
  · split at h
    case isFalse => contradiction
    case isTrue hr =>
      obtain rfl := List.mem_singleton.mp h
      refine ⟨fun o ho => ?_, by simp [scatter]⟩
      obtain ⟨q, _, rfl⟩ := List.mem_map.mp ho
      exact hr
  · split at h
    case isTrue  => contradiction
    case isFalse => exact mem_part h

theorem leads : Leads x.medium x.n (fun _ => x.root) (.bcast x.b x.count .char x.root) x.P x.bufs (x.queues x.left)
    x.outcome (x.queues x.left') where
  performs := by
    intro r hr
    simp only [outcome]
    split
    case isTrue h    =>
      subst h
      exact x.performs_root
    case isFalse hne => exact performs_other hr hne
  idle := by
    intro r hr
    have := x.root_lt
    rw [proj_other (by omega), if_neg (by omega)]
  quiet := fun r e he => (mem_flow he).right e rfl
  owned := fun r a ha => (mem_flow ha).left
  flow  := x.flow

end Leads

end StaleCall

namespace Series

variable (x : Series) (garbage : Nat → Mem) (bufs : Nat → Nat → Mem)

-- The ranks after `k` broadcasts.
def procs : Nat → Nat → ProcessInfo
  | 0,     r => Plan.ranks x.n garbage r
  | k + 1, r => if r = x.root then (procs k r).countId r x.next else (procs k r).countId (x.prev r) r

-- The datagram of the broadcast with the number `k`.
def datagram (k : Nat) : Bytes :=
  (datagrams (x.procs garbage k x.root) (bufs x.root (2 * k)) 1 x.count .char x.root x.next 1 x.op).headD []

theorem procs_ranked (k : Nat) : Ranked x.n (x.procs garbage k) := by
  induction k with
  | zero      => exact Plan.ranks_ranked x.n garbage
  | succ k hi =>
    intro r hr
    rw [procs]
    split <;> exact hi r hr

theorem datagram_spec (k : Nat) :
    datagrams (x.procs garbage k x.root) (bufs x.root (2 * k)) 1 x.count .char x.root x.next 1 x.op =
      [x.datagram garbage bufs k] ∧
    ∃ h, Carries (x.datagram garbage bufs k) h (payload 1 x.count (bufs x.root (2 * k))) := by
  obtain ⟨d, h, hd, hc, _⟩ := datagrams_single x.root .char (bufs x.root (2 * k)) 1 x.op
    (p := x.procs garbage k x.root) (r := x.next) rfl x.single.sendable x.single
  rw [datagram, hd]
  exact ⟨rfl, h, hc⟩

-- The broadcast with the number `k`, where the sockets hold what has not been taken of the ones before.
def call (k : Nat) : StaleCall where
  toSeries := x
  P        := x.procs garbage k
  bufs r   := bufs r (2 * k)
  ranked   := x.procs_ranked garbage k
  sent     := x.datagram garbage bufs k
  emits    := (x.datagram_spec garbage bufs k).left
  found r  := x.datagram garbage bufs (k / x.copies r)
  data r   := bufs x.root (2 * (k / x.copies r))
  left r   := backlog (x.copies r) (x.datagram garbage bufs) k
  left' r  := backlog (x.copies r) (x.datagram garbage bufs) (k + 1)
  carries r := (x.datagram_spec garbage bufs (k / x.copies r)).right
  received _ _ hne := backlog_succ (x.p.copies_pos x.op x.n hne)

-- What waits in the sockets when a rank calls the broadcast with the number `k`.
def waiting (k : Nat) : Queues Chan Bytes :=
  x.queues fun r => backlog (x.copies r) (x.datagram garbage bufs) k

variable {garbage bufs}

theorem call_proc (k : Nat) : (x.call garbage bufs k).outcome.proc = x.procs garbage (k + 1) := by
  funext r
  by_cases h : r = x.root
  case pos =>
    subst h
    rw [procs, if_pos rfl]
    exact if_pos rfl
  case neg =>
    rw [procs, if_neg h]
    exact if_neg h

theorem barrier_leads (left : Nat → List Bytes) {P : Nat → ProcessInfo} (hP : Ranked x.n P) (b : Nat → Mem) :
    Leads x.medium x.n (fun _ => x.root) .barrier P b (x.queues left) (barrierOutcome x.n P b) (x.queues left) := by
  refine (barrier_plays x.medium (fun _ => x.root) x.two hP b).leads fun e he c hc => ?_
  rcases mem_barrierFlow (mem_proj.mpr he) with ⟨q, hq⟩ | ⟨q, hq⟩
  · rw [hq] at hc
    exact absurd rfl hc
  · rw [hq] at hc
    cases c with
    | tcp => rfl
    | udp => simp [Act.gets] at hc

variable (garbage bufs) in
theorem course (K k : Nat) : ∃ os, Course x.medium x.n (fun _ => x.root) bufs (2 * k)
    (broadcasts x.b x.root (List.replicate K x.count)) (x.procs garbage k) (x.waiting garbage bufs k) os
    (x.waiting garbage bufs (k + K)) ∧ ∀ j < K, os[2 * j]? = some (x.call garbage bufs (k + j)).outcome := by
  induction K generalizing k with
  | zero      => exact ⟨[], .nil, by simp⟩
  | succ K hi =>
    obtain ⟨os, hs, ho⟩ := hi (k + 1)
    have h₁ := (x.call garbage bufs k).leads
    have h₂ := x.barrier_leads (fun r => backlog (x.copies r) (x.datagram garbage bufs) (k + 1))
      (x.procs_ranked garbage (k + 1)) fun r => bufs r (2 * k + 1)
    rw [← x.call_proc] at h₂
    rw [← x.call_proc, Nat.add_right_comm k 1 K] at hs
    refine ⟨_, .cons h₁ (.cons h₂ hs), fun j hj => ?_⟩
    cases j with
    | zero   => rfl
    | succ j =>
      rw [show k + (j + 1) = k + 1 + j by omega]
      exact ho j (by omega)

theorem start_waiting : x.waiting garbage bufs 0 = fun _ => [] := by
  funext c
  cases c with
  | udp r =>
    rw [waiting, queues, backlog_zero]
    split <;> rfl
  | tcp => rfl

theorem broadcasts_length (b : Bcast) (root count K : Nat) :
    (broadcasts b root (List.replicate K count)).length = 2 * K := by
  induction K with
  | zero      => rfl
  | succ K hi =>
    change (broadcasts b root (List.replicate K count)).length + 2 = _
    omega

-- What a rank has in its buffer after the broadcast with the number `k`.
theorem call_read (hz : bufs x.root (2 * (k / x.copies r)) (x.count - 1) = 0) :
    (((x.call garbage bufs k).outcome).buf r).read 0 x.count =
      (bufs x.root (2 * if r = x.root then k else k / x.copies r)).read 0 x.count := by
  by_cases h : r = x.root
  case pos =>
    rw [if_pos h]
    exact congrArg (Mem.read · 0 x.count) (if_pos h)
  case neg =>
    rw [if_neg h]
    refine (congrArg (Mem.read · 0 x.count) (if_neg h)).trans ?_
    exact stored_read_char x.single.left rfl (read_drop_last x.single.left hz)

end Series

-- The copies of a broadcast get into the sockets at once, and are taken in order. A rank that gets several of them
-- falls behind the root more and more.
theorem broadcasts_lag (p : Kernel.Program) (b : Bcast) (n root count K : Nat) (garbage : Nat → Mem)
    (bufs : Nat → Nat → Mem) {op : MPICollective} (hb : b.opcode = some op) (hn : 2 ≤ n) (hint : n ≤ 2 ^ 31)
    (hroot : root < n) (hc : 0 < count) (hl : mpiHeader + count ≤ maxPayload)
    (hz : ∀ k < K, bufs root (2 * k) (count - 1) = 0) {calls : List Call}
    (hs : calls = broadcasts b root (List.replicate K count)) :
    (∀ s, Net.ReachesInOrder (forwarding p n fun _ => false) (network n garbage bufs calls) s →
      ¬s.StuckInOrder (forwarding p n fun _ => false) n ∧
        ∀ r < n, ∀ k ret buf, .note (.leave (2 * k) ret buf) ∈ s.events r → ret = 0 ∧
          buf.read 0 count =
            (bufs root (2 * if r = root then k else k / p.copies op n root r)).read 0 count) ∧
      ∃ s, Net.ReachesInOrder (forwarding p n fun _ => false) (network n garbage bufs calls) s ∧
        ∀ r < n, ∀ k < K, ∃ buf, .note (.leave (2 * k) 0 buf) ∈ s.events r := by
  subst hs
  let x : Series :=
    { p, n, root, count, b, op, two := hn, root_lt := hroot, int := hint, opcode := hb, single := ⟨hc, by omega⟩ }
  obtain ⟨os, hs, ho⟩ := x.course garbage bufs K 0
  simp only [Nat.zero_add] at ho
  rw [x.start_waiting] at hs
  constructor
  case left =>
    refine fun s hr => ⟨hs.not_stuck (fun _ => rfl) rfl hr, fun r _ k ret buf hm => ?_⟩
    obtain ⟨o, hk, rfl, rfl⟩ := hs.leave (fun _ => rfl) rfl hr hm
    have hlt : k < K := by
      have hk := (List.getElem?_eq_some_iff.mp hk).fst
      have hl := hs.length_eq.trans (Series.broadcasts_length ..)
      omega
    cases (ho k hlt).symm.trans hk
    exact ⟨rfl, x.call_read (hz _ (Nat.lt_of_le_of_lt (Nat.div_le_self ..) hlt))⟩
  case right =>
    obtain ⟨s, hr, hm⟩ := hs.exists_left
    exact ⟨s, hr, fun r hr k hk => ⟨_, hm r hr (2 * k) _ (ho k hk)⟩⟩

-- In the second broadcast, the other rank stores what it has got in the first one.
theorem broadcasts_lag_two :
    let bufs (_ i : Nat) : Mem := fun j => if j = 0 then BitVec.ofNat 8 i else 0
    ∃ s, Net.ReachesInOrder (forwarding .xdp 2 fun _ => false)
        (network 2 (fun _ _ => 0) bufs (broadcasts .linearXdp 0 [2, 2])) s ∧
      ∃ buf, .note (.leave 2 0 buf) ∈ s.events 1 ∧ buf.read 0 2 = (bufs 0 0).read 0 2 ∧
        buf.read 0 2 ≠ (bufs 0 2).read 0 2 := by
  intro bufs
  obtain ⟨hall, s, hr, hm⟩ := broadcasts_lag .xdp .linearXdp 2 0 2 2 (fun _ _ => 0) bufs rfl (by decide) (by decide)
    (by decide) (by decide) (by decide) (fun _ _ => rfl) rfl
  obtain ⟨buf, hbuf⟩ := hm 1 (by decide) 1 (by decide)
  obtain ⟨_, hread⟩ := (hall s hr).right 1 (by decide) 1 0 buf hbuf
  refine ⟨s, hr, buf, hbuf, hread, ?_⟩
  rw [hread]
  decide

end Mpi

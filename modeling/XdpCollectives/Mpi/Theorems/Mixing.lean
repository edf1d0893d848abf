import XdpCollectives.Mpi.Theorems.Stored
import XdpCollectives.Cycle.Basic
import Mathlib.Data.List.TakeWhile

-- Broadcasts that follow each other over a network that may do anything but make up or double datagrams.
namespace Mpi

open Memory Wire Process Script

-- Datagrams get lost, and arrive at any time or too late.
def lossy (size : Nat) (f : Forwarder) : Medium where
  reach src dest d := recipients size src dest d
  copy             := f.copy
  mayTimeout _     := true
  mayDrop          := true

-- What the root does in a broadcast: its datagrams carry the number of the broadcast.
structure Stamped (id : BitVec 64) (count : Nat) (e : Event Note) : Prop where
  opens : opens e = none
  sent  : ∀ dest d, e = .sendto dest d →
    0 < count ∧ (Header.decode d).id = id ∧ (maxPayload < mpiHeader + count → d.length = maxPayload)

-- What the other ranks do in a broadcast: they send no datagrams.
structure Receives (e : Event Note) : Prop where
  opens  : opens e = none
  silent : ∀ dest d, e ≠ .sendto dest d

theorem Receives.stamped {id : BitVec 64} {e : Event Note} (h : Receives e) : Stamped id count e :=
  ⟨h.opens, fun dest d he => absurd he (h.silent dest d)⟩

section Root

variable {p : ProcessInfo} {buf : Mem} {count n : Nat} {d : Bytes} {root dest : Nat} {tag : Int}
  {collective : MPICollective} {k : Nat}

theorem datagrams_stamped (h0 : 0 < count) (hd : d ∈ datagrams p buf 1 count .char root dest tag collective) :
    (Header.decode d).id = p.ids root dest ∧ (maxPayload < mpiHeader + count → d.length = maxPayload) := by
  rw [datagrams] at hd
  split at hd
  case isTrue =>
    obtain ⟨i, _, he⟩ := List.mem_map.mp hd
    rw [Nat.one_mul] at he
    subst he
    refine ⟨?_, fun _ => fragment_length h0 rfl⟩
    rw [fragment]
    simp only [List.append_assoc, Header.decode_encode]
    rfl
  case isFalse hc =>
    rw [List.mem_singleton.mp hd, Header.decode_encode]
    refine ⟨rfl, fun hl => absurd hl ?_⟩
    simp only [payloadSize] at hc
    omega

theorem _mpiSend_stamped (hroot : root < p.size) (hdest : dest < p.size) (hne : dest ≠ p.rank) (h0 : 0 < count)
    (hc : count < 2 ^ 31) :
    Keeps (Stamped (p.ids root dest) count) (_mpiSend p buf count .char root dest tag collective)
      (· = (↑count, p.countId root dest)) := by
  -- Where a datagram goes to does not matter here.
  let μ : Medium := ⟨fun _ dest _ => [dest], fun _ d => d, fun _ => false, false⟩
  have h := _mpiSend_performs root .char buf tag collective (μ := μ) hroot hdest hne rfl ⟨h0, .inr ⟨rfl, hc⟩⟩
  refine .of_performs h (fun act ha e he => ?_) fun act ha => ?_
  · have ⟨d, hd, hact⟩ := List.mem_map.mp ha
    have ⟨hid, hl⟩ := datagrams_stamped h0 hd
    subst hact
    generalize hm : (.put (μ.outs p.rank dest d) : Process.Act Note) = a at he
    cases he with
    | sendto =>
      refine ⟨rfl, fun dest' d' he => ?_⟩
      cases he
      simp only [μ, Medium.outs, List.map_singleton, Act.put.injEq, List.cons.injEq, Prod.mk.injEq] at hm
      obtain ⟨⟨_, rfl⟩, _⟩ := hm
      exact ⟨h0, hid, hl⟩
    | send   => simp [μ, Medium.outs] at hm
    | _      => cases hm
  · have ⟨d, _, hact⟩ := List.mem_map.mp ha
    subst hact
    exact ⟨rfl, nofun⟩

variable {φ : Event Note → Prop} (p) in
theorem recvHeader_keeps (hrecv : ∀ src m, φ (.recv src m)) (src : Int) (rest : Mem) :
    Keeps φ (recvHeader p src rest) fun _ => True :=
  (recv_keeps p hrecv src _).bind fun _ _ => .done _

variable {φ : Event Note → Prop} (p) in
theorem _mpiSendTcp_keeps (hsend : ∀ dest m, φ (.send dest m)) (buf : Mem) (count : Int) (datatype : MPIDatatype)
    (root dest tag : Int) (collective : MPICollective) :
    Keeps φ (_mpiSendTcp p buf count datatype root dest tag collective) fun _ => True :=
  .ite (fun _ => .done _) fun _ => .ite (fun _ => .done _) fun _ => .ite (fun _ => .fault) fun _ =>
    (send_keeps p hsend _ _).bind fun _ _ => .done _

variable {φ : Event Note → Prop} (p) in
theorem recvAcks_keeps (hsend : ∀ dest m, φ (.send dest m)) (hrecv : ∀ src m, φ (.recv src m)) (buf : Mem) (count : Int)
    (datatype : MPIDatatype) (tag : Int) (rest : Mem) (is : List Nat) :
    Keeps φ (recvAcks p buf count datatype tag rest is) fun _ => True := by
  induction is
  case nil => exact .done ()
  case cons i is hi =>
    rw [recvAcks]
    refine .ite (fun _ => ?_) fun _ => hi
    refine (recvHeader_keeps p hrecv i rest).bind fun h _ => .ite (fun _ => ?_) fun _ => hi
    exact (_mpiSendTcp_keeps p hsend buf count datatype _ _ tag _).bind fun _ _ => hi

end Root

-- The broadcasts of a run.
abbrev Broadcast := Bcast × Nat

def casts (root : Nat) (bs : List Broadcast) : List Call :=
  bs.map fun c => .bcast c.1 c.2 .char root

-- The number that the datagrams of broadcast `k` carry: broadcasts of nothing are not counted.
def number (bs : List Broadcast) (k : Nat) : Nat :=
  (bs.take k).countP (0 < ·.2)

def ident (bs : List Broadcast) (k : Nat) : BitVec 64 :=
  BitVec.ofNat 64 (number bs k)

section Numbers

variable {bs : List Broadcast} {c c' : Broadcast} {j k : Nat}

theorem number_succ (h : bs[k]? = some c) : number bs (k + 1) = number bs k + if 0 < c.2 then 1 else 0 := by
  rw [number, List.take_add_one, h, List.countP_append]
  simp [number, List.countP_cons]

theorem ident_succ (h : bs[k]? = some c) : ident bs (k + 1) = ident bs k + if 0 < c.2 then 1 else 0 := by
  rw [ident, number_succ h, BitVec.ofNat_add]
  split <;> rfl

theorem number_lt (h : bs[j]? = some c) (h0 : 0 < c.2) (hk : j < k) : number bs j < number bs k := by
  have hs := number_succ h
  rw [if_pos h0] at hs
  have hle : number bs (j + 1) ≤ number bs k := (List.take_sublist_take_left hk).countP_le
  omega

-- Broadcasts have different numbers as long as these do not run out.
theorem ident_inj (hlen : bs.length ≤ 2 ^ 64) (hj : bs[j]? = some c) (h0 : 0 < c.2) (hk : bs[k]? = some c')
    (h0' : 0 < c'.2) (h : ident bs j = ident bs k) : j = k := by
  have hlt {i : Nat} {c : Broadcast} (hi : bs[i]? = some c) (h0 : 0 < c.2) : number bs i < 2 ^ 64 := by
    have := number_lt hi h0 (Nat.lt_add_one i)
    have hle : number bs (i + 1) ≤ bs.length := List.countP_le_length.trans (List.length_take_le' _ _)
    omega
  have he : number bs j = number bs k := by
    have := congrArg BitVec.toNat h
    rwa [ident, ident, BitVec.toNat_ofNat, BitVec.toNat_ofNat, Nat.mod_eq_of_lt (hlt hj h0),
      Nat.mod_eq_of_lt (hlt hk h0')] at this
  rcases Nat.lt_trichotomy j k with hjk | hjk | hjk
  · have := number_lt hj h0 hjk
    omega
  · exact hjk
  · have := number_lt hk h0' hjk
    omega

end Numbers

def Forwarded (b : Bcast) : Prop :=
  b = .ringXdp ∨ b = .ringXdpEager

section Performs

variable {b : Bcast} {p : ProcessInfo} {buf : Mem} {count n root : Nat} (hb : Forwarded b)
include hb

theorem root_perform (hp : p.rank = root ∧ p.size = n) (hn : 2 ≤ n) (hroot : root < n) (hc : count < 2 ^ 31) :
    Keeps (Stamped (p.ids root ((root + 1) % n)) count) (b.perform p buf count .char root) fun x =>
      x.2.2.rank = root ∧ x.2.2.size = n ∧
        x.2.2.ids root ((root + 1) % n) = p.ids root ((root + 1) % n) + if 0 < count then 1 else 0 := by
  have ⟨hrank, hsize⟩ := hp
  have hnext : p.next = (root + 1) % n := by rw [ProcessInfo.next, hrank, hsize]
  have hsend (collective : MPICollective) : Keeps (Stamped (p.ids root ((root + 1) % n)) count)
      (_mpiSend p buf count .char root p.next 1 collective)
      fun x => x.2.rank = root ∧ x.2.size = n ∧
        x.2.ids root ((root + 1) % n) = p.ids root ((root + 1) % n) + if 0 < count then 1 else 0 := by
    rw [hnext]
    by_cases h0 : 0 < count
    case pos =>
      refine (_mpiSend_stamped (by omega) ?_ ?_ h0 hc).mono fun x hx => ?_
      · exact hsize ▸ Nat.mod_lt _ (by omega)
      · rw [hrank]
        exact Cycle.add_mod_ne hroot Nat.one_pos hn
      · subst hx
        exact ⟨hrank, hsize, by simp [ProcessInfo.countId, h0]⟩
    case neg =>
      obtain rfl : count = 0 := by omega
      exact .ret ⟨hrank, hsize, by simp⟩
  have hquiet {m : Event Note} (h : Receives m) : Stamped (p.ids root ((root + 1) % n)) count m := h.stamped
  rcases hb with rfl | rfl
  · refine .ite (fun _ => ?_) fun hr => absurd hrank hr
    refine (hsend .bcastRing).bind fun x hx => ?_
    exact (recvAcks_keeps x.2 (fun _ _ => hquiet ⟨rfl, nofun⟩) (fun _ _ => hquiet ⟨rfl, nofun⟩) buf _ _ _ _ _).bind
      fun _ _ => .ret hx
  · refine .ite (fun _ => ?_) fun hr => absurd hrank hr
    exact (hsend .bcastRing).bind fun x hx => .ret hx

theorem other_perform (hne : p.rank ≠ root) :
    Keeps Receives (b.perform p buf count .char root) fun x => x.2.2.rank = p.rank ∧ x.2.2.size = p.size := by
  have hsend (dest : Nat) (m : Bytes) : Receives (.send dest m) := ⟨rfl, nofun⟩
  rcases hb with rfl | rfl
  · refine .ite (fun hr => absurd hr hne) fun _ => ?_
    refine (mpiRecv_keeps p hsend (fun _ _ => ⟨rfl, nofun⟩) (fun _ => ⟨rfl, nofun⟩) (fun _ => ⟨rfl, nofun⟩)
      ⟨rfl, nofun⟩ buf count .char p.prev 1).bind fun x hx => .ite (fun _ => .ret hx) fun _ => ?_
    exact (_mpiSendTcpLostPacket_keeps _ hsend _ _ _ _ _).bind fun _ _ => .ret hx
  · refine .ite (fun hr => absurd hr hne) fun _ => ?_
    refine (mpiRecvNoAck_keeps p (fun _ => ⟨rfl, nofun⟩) (fun _ => ⟨rfl, nofun⟩) ⟨rfl, nofun⟩
      buf count .char p.prev ⟨rfl, rfl⟩ fun _ _ _ hq => hq.same).bind fun x hx =>
        .ite (fun _ => .ret hx) fun _ => .ret hx

theorem other_idle (hne : p.rank ≠ root) (h : Does (b.perform p buf (0 : Nat) .char root) t y) : t = [] := by
  have he : b.perform p buf (0 : Nat) .char root = .ret (-1, buf, p) := by
    rcases hb with rfl | rfl
    · rw [Bcast.perform, mpiBcastRingXdp, bcastXdp, if_neg (by omega)]
      rfl
    · rw [Bcast.perform, mpiBcastRingXdpEager, if_neg (by omega)]
      rfl
  rw [he] at h
  exact h.of_ret.left

theorem other_stores (hne : p.rank ≠ root) (hc : count < 2 ^ 31) :
    Stores count buf (b.perform p buf count .char root) := by
  by_cases h0 : 0 < count
  case neg =>
    obtain rfl : count = 0 := by omega
    intro t y m h hs
    rw [other_idle hb hne h] at hs
    contradiction
  case pos =>
    rcases hb with rfl | rfl
    · rw [Bcast.perform, mpiBcastRingXdp, bcastXdp, if_neg (by omega)]
      exact (mpiRecv_stores buf p p.prev 1 hc h0).bind (Q := fun _ => True) fun x => .ite (fun _ => .done _) fun _ =>
        (_mpiSendTcpLostPacket_keeps _ (fun _ _ => nofun) _ _ _ _ _).bind fun _ _ => .done _
    · rw [Bcast.perform, mpiBcastRingXdpEager, if_neg (by omega)]
      exact (mpiRecvNoAck_stores buf p p.prev hc h0).bind (Q := fun _ => True) fun x => .ite (fun _ => .done _) fun _ =>
        .done _

end Performs

-- What a rank has done, call by call. `I` is what holds of it when it enters a call.
inductive Chronicle (bufs : Nat → Mem) (I : Nat → ProcessInfo → Prop) : Nat → List Call → List (Event Note) → Prop
  | start : Chronicle bufs I i cs []
  | inside {i : Nat} {c : Call} {cs : List Call} {p : ProcessInfo} {u : List (Event Note)}
      {y : Program (Int × Mem × ProcessInfo)} (hp : I i p) (hu : Does (c.perform p (bufs i)) u y)
      (ho : ∀ e ∈ u, opens e = none) : Chronicle bufs I i (c :: cs) (.note (.enter i) :: u)
  | after {i : Nat} {c : Call} {cs : List Call} {p : ProcessInfo} {u t : List (Event Note)}
      {y : Program (Int × Mem × ProcessInfo)} {ret : Int} {buf : Mem} (hp : I i p)
      (hu : Does (c.perform p (bufs i)) u y) (ho : ∀ e ∈ u, opens e = none) (ht : Chronicle bufs I (i + 1) cs t) :
      Chronicle bufs I i (c :: cs) (.note (.enter i) :: (u ++ .note (.leave i ret buf) :: t))

section Chronicles

variable {bufs : Nat → Mem} {I : Nat → ProcessInfo → Prop} {φ : Nat → Event Note → Prop} {i k : Nat} {cs : List Call}
  {p : ProcessInfo} {t : List (Event Note)} {e : Event Note}

theorem performCalls_chronicle (hφ : ∀ k e, φ k e → opens e = none)
    (hcs : ∀ j c, cs[j]? = some c → ∀ p, I (i + j) p →
      Keeps (φ (i + j)) (c.perform p (bufs (i + j))) fun x => I (i + j + 1) x.2.2)
    (hp : I i p) (h : Does (performCalls bufs i cs p) t y) : Chronicle bufs I i cs t := by
  induction cs generalizing i p t
  case nil =>
    obtain ⟨rfl, _⟩ := h.of_ret
    exact .start
  case cons c cs hi =>
    have hc := hcs 0 c rfl p hp
    cases h with
    | refl => exact .start
    | step h ht =>
      cases h
      have ht : Does (c.perform p (bufs i) >>= fun x =>
          .note (.leave i x.1 x.2.1) (performCalls bufs (i + 1) cs x.2.2)) _ y := ht
      rcases ht.of_bind with ⟨z, hz, _⟩ | ⟨u, v, ⟨ret, buf, p'⟩, rfl, hu, hv⟩
      · exact .inside hp hz fun e he => hφ _ e ((hc _ z hz).left e he)
      · have ⟨hall, hret⟩ := hc u _ hu
        have ho e he := hφ _ e (hall e he)
        cases hv with
        | refl =>
          rw [List.append_nil]
          exact .inside hp hu ho
        | step h ht =>
          cases h
          refine .after hp hu ho (hi (fun j c hj p hp => ?_) (hret _ rfl) ht)
          have := hcs (j + 1) c hj p (by rwa [show i + (j + 1) = i + 1 + j by omega])
          rwa [show i + (j + 1) = i + 1 + j by omega] at this

theorem opens_enter (i : Nat) : opens (.note (.enter i)) = some i := rfl

theorem during_enter_of_ne (h : k ≠ i) (t : List (Event Note)) :
    Script.during opens k (.note (.enter i) :: t) = Script.during opens k t :=
  during_cons_of_ne (fun he => h (Option.some.inj (opens_enter i ▸ he)).symm) t

theorem during_leave (k i : Nat) (ret : Int) (buf : Mem) (t : List (Event Note)) :
    Script.during opens k (.note (.leave i ret buf) :: t) = Script.during opens k t :=
  during_cons_of_ne (show opens (.note (.leave i ret buf)) ≠ some k from nofun) t

theorem Chronicle.opens_head (h : Chronicle bufs I i cs t) : t.takeWhile (opens · = none) = [] := by
  cases h <;> rfl

section Calls

variable {u : List (Event Note)} (ho : ∀ e ∈ u, opens e = none)
include ho

theorem during_inside (i : Nat) : Script.during opens i (.note (.enter i) :: u) = u := by
  rw [during_cons_self (opens_enter i), List.takeWhile_eq_self_iff]
  exact fun e he => decide_eq_true (ho e he)

theorem during_after (ret : Int) (buf : Mem) (ht : Chronicle bufs I (i + 1) cs t) :
    Script.during opens i (.note (.enter i) :: (u ++ .note (.leave i ret buf) :: t)) =
      u ++ [.note (.leave i ret buf)] := by
  rw [during_cons_self (opens_enter i), List.takeWhile_append_of_pos fun e he => decide_eq_true (ho e he)]
  rw [List.takeWhile_cons_of_pos rfl, ht.opens_head]

theorem during_after_of_ne (hk : k ≠ i) (ret : Int) (buf : Mem) (t : List (Event Note)) :
    Script.during opens k (.note (.enter i) :: (u ++ .note (.leave i ret buf) :: t)) = Script.during opens k t := by
  rw [during_enter_of_ne hk, during_append_of_none ho, during_leave]

end Calls

-- What is seen of call `k` is what the call has done, and that it has been left.
theorem Chronicle.during (h : Chronicle bufs I i cs t) (k : Nat) :
    during opens k t = [] ∨ ∃ j c p u v y, k = i + j ∧ cs[j]? = some c ∧ I k p ∧ Does (c.perform p (bufs k)) u y ∧
      during opens k t = u ++ v ∧ ∀ e ∈ v, ∃ ret buf, e = .note (.leave k ret buf) := by
  induction h
  case start => exact .inl rfl
  case inside i c cs p u y hp hu ho =>
    by_cases hk : k = i
    case pos =>
      subst hk
      exact .inr ⟨0, c, p, u, [], y, rfl, rfl, hp, hu, by rw [during_inside ho, List.append_nil],
        fun _ he => absurd he List.not_mem_nil⟩
    case neg =>
      left
      rw [during_enter_of_ne hk]
      have := during_append_of_none ho k []
      rwa [List.append_nil] at this
  case after i c cs p u t y ret buf hp hu ho ht hi =>
    by_cases hk : k = i
    case pos =>
      subst hk
      exact .inr ⟨0, c, p, u, [.note (.leave k ret buf)], y, rfl, rfl, hp, hu, during_after ho ret buf ht,
        fun e he => ⟨ret, buf, List.mem_singleton.mp he⟩⟩
    case neg =>
      rw [during_after_of_ne ho hk]
      rcases hi with hi | ⟨j, c, p, u, v, y, hj, hc, hrest⟩
      · exact .inl hi
      · exact .inr ⟨j + 1, c, p, u, v, y, by omega, hc, hrest⟩

theorem Chronicle.of_during (h : Chronicle bufs I i cs t) (he : e ∈ Script.during opens k t)
    (hn : ∀ ret buf, e ≠ .note (.leave k ret buf)) :
    ∃ j c p u v y, k = i + j ∧ cs[j]? = some c ∧ I k p ∧ Does (c.perform p (bufs k)) u y ∧ e ∈ u ∧
      Script.during opens k t = u ++ v ∧ ∀ e ∈ v, ∃ ret buf, e = .note (.leave k ret buf) := by
  rcases h.during k with hd | ⟨j, c, p, u, v, y, hj, hc, hp, hu, hd, hv⟩
  · exact absurd (hd ▸ he) List.not_mem_nil
  · rw [hd, List.mem_append] at he
    refine ⟨j, c, p, u, v, y, hj, hc, hp, hu, he.resolve_right fun he => ?_, hd, hv⟩
    have ⟨ret, buf, he⟩ := hv e he
    exact hn ret buf he

-- Whatever a rank does belongs to a call.
theorem Chronicle.exists_during (h : Chronicle bufs I i cs t) (he : e ∈ t) (hn : opens e = none) :
    ∃ k, e ∈ Script.during opens k t := by
  induction h
  case start => contradiction
  case inside i c cs p u y hp hu ho =>
    rcases List.mem_cons.mp he with rfl | he
    · contradiction
    · exact ⟨i, by rwa [during_inside ho]⟩
  case after i c cs p u t y ret buf hp hu ho ht hi =>
    rcases List.mem_cons.mp he with rfl | he
    · contradiction
    rw [List.append_cons, List.mem_append] at he
    rcases he with he | he
    · exact ⟨i, by rwa [during_after ho ret buf ht]⟩
    · have ⟨k, hk⟩ := hi he
      have hne : k ≠ i := by
        rcases ht.during k with hd | ⟨j, _, _, _, _, _, hj, _⟩
        · exact absurd (hd ▸ hk) List.not_mem_nil
        · omega
      exact ⟨k, by rwa [during_after_of_ne ho hne]⟩

end Chronicles

-- Every byte that a rank stores from datagrams in its call `k` is one of a datagram that the root has sent in
-- broadcast `k`, but for the terminator.
def Unmixed (f : Forwarder) (n root : Nat) (bs : List Broadcast) (bufs : Nat → Nat → Mem) (s : Net Note) : Prop :=
  ∀ r < n, r ≠ root → ∀ k b count, bs[k]? = some (b, count) → ∀ buf, .note (.stored buf) ∈ during opens k (s.events r) →
    (∀ q m, .recv q m ∉ during opens k (s.events r)) →
    ∀ j, buf j = bufs r k j ∨ (j + 1 = count ∧ buf j = 0) ∨ ∃ d ∈ emitted (during opens k (s.events root)),
      f.copy r d ∈ taken (during opens k (s.events r)) ∧ ∃ i, (f.copy r d)[mpiHeader + i]? = some (buf j)

section Runs

variable {n root : Nat} {f : Forwarder} {garbage : Nat → Mem} {bufs : Nat → Nat → Mem} {bs : List Broadcast}
  {s : Net Note} {r k : Nat} {e : Event Note} {d : Bytes}

theorem casts_getElem? {c : Call} (h : (casts root bs)[k]? = some c) :
    ∃ b count, bs[k]? = some (b, count) ∧ c = .bcast b count .char root := by
  rw [casts, List.getElem?_map, Option.map_eq_some_iff] at h
  have ⟨(b, count), hb, he⟩ := h
  exact ⟨b, count, hb, he.symm⟩

variable (hbs : ∀ c ∈ bs, Forwarded c.1 ∧ c.2 < 2 ^ 31) (hroot : root < n)
  (hr : Net.Reaches (lossy n f) (network n garbage bufs (casts root bs)) s)
include hbs hr

include hroot in
-- The root counts its broadcasts in the numbers of its datagrams.
theorem root_chronicle (hn : 2 ≤ n) : Chronicle (bufs root) (fun k p => (p.rank = root ∧ p.size = n) ∧
    p.ids root ((root + 1) % n) = ident bs k) 0 (casts root bs) (s.events root) := by
  have h := Net.does hr root
  rw [if_pos hroot] at h
  refine performCalls_chronicle (φ := fun k e => ∃ c, bs[k]? = some c ∧ Stamped (ident bs k) c.2 e)
    (fun _ _ h => h.choose_spec.right.opens) (fun k c hc p hp => ?_) ⟨⟨rfl, rfl⟩, rfl⟩ h
  rw [Nat.zero_add] at hp ⊢
  have ⟨b, count, hb, he⟩ := casts_getElem? hc
  subst he
  have ⟨hfor, hlt⟩ := hbs _ (List.mem_of_getElem? hb)
  have hk : Keeps _ (b.perform p (bufs root k) count .char root) _ := root_perform hfor hp.left hn hroot hlt
  rw [hp.right] at hk
  refine (hk.imp fun e he => ⟨_, hb, he⟩).mono fun x hx => ?_
  rw [ident_succ hb]
  exact ⟨⟨hx.left, hx.right.left⟩, hx.right.right⟩

theorem other_chronicle (hlt : r < n) (hne : r ≠ root) :
    Chronicle (bufs r) (fun _ p => p.rank = r ∧ p.size = n) 0 (casts root bs) (s.events r) := by
  have h := Net.does hr r
  rw [if_pos hlt] at h
  refine performCalls_chronicle (φ := fun _ => Receives) (fun _ _ h => h.opens) (fun k c hc p hp => ?_) ⟨rfl, rfl⟩ h
  have ⟨b, count, hb, he⟩ := casts_getElem? hc
  subst he
  have ⟨hfor, _⟩ := hbs _ (List.mem_of_getElem? hb)
  exact (other_perform hfor (hp.left ▸ hne)).mono fun x hx => ⟨hx.left.trans hp.left, hx.right.trans hp.right⟩

include hroot in
-- Only the root sends datagrams, and they belong to a broadcast.
theorem sendto_stamped (hn : 2 ≤ n) (h : .sendto dest d ∈ s.events r) : r = root ∧ ∃ k c, bs[k]? = some c ∧
    d ∈ emitted (during opens k (s.events root)) ∧ 0 < c.2 ∧ (Header.decode d).id = ident bs k ∧
      (maxPayload < mpiHeader + c.2 → d.length = maxPayload) := by
  by_cases hlt : r < n
  case neg =>
    have hd := Net.does hr r
    rw [if_neg hlt] at hd
    rw [hd.of_ret.left] at h
    contradiction
  by_cases hne : r = root
  case neg =>
    have hch := other_chronicle hbs hr hlt hne
    have ⟨k, hk⟩ := hch.exists_during h rfl
    have ⟨j, c, p, u, v, y, _, hc, hp, hu, he, _⟩ := hch.of_during hk nofun
    have ⟨b, count, hb, hcall⟩ := casts_getElem? hc
    subst hcall
    have ⟨hfor, _⟩ := hbs _ (List.mem_of_getElem? hb)
    have hrec := (other_perform hfor (hp.left ▸ hne) u y hu).left _ he
    exact absurd rfl (hrec.silent dest d)
  case pos =>
    subst hne
    have hch := root_chronicle hbs hroot hr hn
    have ⟨k, hk⟩ := hch.exists_during h rfl
    have ⟨j, c, p, u, v, y, hj, hc, hp, hu, he, _⟩ := hch.of_during hk nofun
    obtain rfl : k = j := by omega
    have ⟨b, count, hb, hcall⟩ := casts_getElem? hc
    subst hcall
    have ⟨hfor, hlt⟩ := hbs _ (List.mem_of_getElem? hb)
    have hst := (root_perform hfor hp.left hn hroot hlt u y hu).left _ he
    have ⟨h0, hid, hl⟩ := hst.sent dest d rfl
    exact ⟨rfl, k, _, hb, List.mem_filterMap.mpr ⟨_, hk, rfl⟩, h0, hp.right ▸ hid, hl⟩

include hroot in
-- Where every datagram is taken for the broadcast whose number it carries, but for those that the receive turns away,
-- and the numbers do not run out, nothing gets mixed.
theorem unmixed_of_numbers (hlen : bs.length ≤ 2 ^ 64)
    (hnum : ∀ r k d b count, bs[k]? = some (b, count) → .took d ∈ during opens k (s.events r) → Admitted count d →
      (Header.decode d).id = ident bs k) :
    Unmixed f n root bs bufs s := by
  intro r hlt hne k b count hb buf hs hrecv
  have hn : 2 ≤ n := by omega
  obtain ⟨hfor, hcount⟩ := hbs _ (List.mem_of_getElem? hb)
  have hch := other_chronicle hbs hr hlt hne
  obtain ⟨j, c, p, u, v, y, hj, hc, hp, hu, he, hd, hv⟩ := hch.of_during hs (by simp)
  obtain rfl : k = j := by omega
  obtain ⟨b', count', hb', hcall⟩ := casts_getElem? hc
  subst hcall
  obtain ⟨rfl, rfl⟩ := Prod.mk.inj (Option.some.inj (hb.symm.trans hb'))
  -- The datagrams that the call does not turn away are those of the broadcast.
  have hfrom : ∀ d ∈ admitted count u, .took d ∈ during opens k (s.events r) ∧
      ∃ d' ∈ emitted (during opens k (s.events root)), d = f.copy r d' ∧
        (maxPayload < mpiHeader + count → d.length = maxPayload) := by
    intro d hmem
    have ⟨htook, hadm⟩ := mem_admitted.mp hmem
    have hduring : .took d ∈ during opens k (s.events r) := hd ▸ List.mem_append_left _ htook
    obtain ⟨q, dest, d', hsent, hcopy⟩ := (Net.sent hr r).right d (during_subset _ _ _ hduring)
    obtain ⟨hq, k', c, hc', hemit, h0, hid, hl⟩ := sendto_stamped hbs hroot hr hn hsent
    have hsame : SameMessage d d' := hcopy ▸ f.same r d'
    have hpos : 0 < count := by
      by_contra h0
      obtain rfl : count = 0 := by omega
      rw [other_idle hfor (hp.left ▸ hne) hu] at htook
      contradiction
    have hk := ident_inj hlen hc' h0 hb hpos <| by
      rw [← hid, ← hsame.decode_id, hnum r k d b count hb hduring hadm]
    subst hk
    obtain rfl := Option.some.inj (hb.symm.trans hc')
    exact ⟨hduring, d', hemit, hcopy, fun hlong => hsame.left.trans (hl hlong)⟩
  have hfill := other_stores hfor (hp.left ▸ hne) hcount u y buf hu he
    (fun q m hm => hrecv q m (hd ▸ List.mem_append_left _ hm)) fun hl d hmem => by
      have ⟨_, _, _, _, hlong⟩ := hfrom d hmem
      exact hlong hl
  intro j
  rcases hfill j with h | h | ⟨d, hmem, i, hi⟩
  · exact .inl h
  · exact .inr (.inl h)
  · obtain ⟨htook, d', hd', he, _⟩ := hfrom d hmem
    subst he
    exact .inr (.inr ⟨d', hd', mem_taken.mpr htook, i, hi⟩)

end Runs

-- Broadcasts of a few characters each by rank 0 of two.
def letters (r k : Nat) : Mem :=
  fun _ => if r = 0 then BitVec.ofNat 8 (65 + k) else 0

def letter (bs : List Broadcast) (k count : Nat) : Bytes :=
  (header (.init 2 0 fun _ => 0) 0 1 .bcastRing .char count 1 0 (ident bs k)).encode ++
    genericHton 1 count ((letters 0 k).read 0 count)

theorem letter_id (bs : List Broadcast) (k count : Nat) : (Header.decode (letter bs k count)).id = ident bs k :=
  congrArg Header.id (Header.decode_encode _ _)

-- Rank 1 gives up the second broadcast, and turns its datagram away in the third, where it is too short.
def quartet : List Broadcast :=
  [(.ringXdpEager, 2), (.ringXdpEager, 2), (.ringXdpEager, 3), (.ringXdpEager, 2)]

def quartetRuns : List Net.Label :=
  List.replicate 12 (.run 0) ++ [.run 1, .take 1 0, .run 1, .run 1, .run 1, .timeout 1, .run 1, .run 1, .take 1 0,
    .run 1, .run 1, .take 1 1, .run 1, .run 1]

def quartetEvents : Nat → List (Event Note)
  | 0 => quartet.zipIdx.flatMap fun ((_, count), k) =>
    [.note (.enter k), .sendto 1 (letter quartet k count), .note (.leave k 0 (letters 0 k))]
  | 1 =>
    let first  := terminate .char 1 1 ((letters 1 0).write 0 [65, 65])
    let fourth := terminate .char 1 1 ((letters 1 3).write 0 [68, 68])
    [.note (.enter 0), .took (letter quartet 0 2), .note (.stored first), .note (.leave 0 0 first),
      .note (.enter 1), .timeout, .note (.leave 1 (-1) (letters 1 1)),
      .note (.enter 2), .took (letter quartet 1 2), .note (.leave 2 (-1) (letters 1 2)),
      .note (.enter 3), .took (letter quartet 3 2), .note (.stored fourth), .note (.leave 3 0 fourth)]
  | _ => []

theorem unmixed_of_numbers_four :
    ∃ s, Net.Reaches (lossy 2 .id) (network 2 (fun _ _ => 0) letters (casts 0 quartet)) s ∧
      (∀ r < 2, s.events r = quartetEvents r) ∧ Unmixed .id 2 0 quartet letters s := by
  have ⟨s, hs, ht⟩ : ∃ s, quartetRuns.foldlM (Net.step (lossy 2 .id))
      (network 2 (fun _ _ => 0) letters (casts 0 quartet)) = some s ∧
      s.trace = [0, 1].flatMap fun r => (quartetEvents r).map (r, ·) := ⟨_, rfl, rfl⟩
  have hr := Net.reaches_of_steps hs
  have he r : s.events r = quartetEvents r := by
    rw [Net.events, ht]
    rcases r with _ | _ | r <;> rfl
  refine ⟨s, hr, fun r _ => he r, unmixed_of_numbers ?_ (by decide) hr (by decide) fun r k d b count hb hd hadm => ?_⟩
  · simp [quartet, Forwarded]
  rw [he] at hd
  obtain rfl : r = 1 := by
    have := during_subset _ _ _ hd
    by_contra hr
    rcases r with _ | _ | r
    · simp [quartetEvents, quartet] at this
    · exact hr rfl
    · simp [quartetEvents] at this
  rcases k with _ | _ | _ | _ | k
  · have hd : Event.took d ∈ [_, _, _] := hd
    obtain rfl : d = letter quartet 0 2 := by simpa using hd
    exact letter_id _ _ _
  · have hd : Event.took d ∈ [.timeout, _] := hd
    simp at hd
  · have hd : Event.took d ∈ [_, _] := hd
    obtain rfl : d = letter quartet 1 2 := by simpa using hd
    cases hb
    exact absurd hadm (by decide)
  · have hd : Event.took d ∈ [_, _, _] := hd
    obtain rfl : d = letter quartet 3 2 := by simpa using hd
    exact letter_id _ _ _
  · contradiction

def twice : List Broadcast :=
  [(.ringXdpEager, 2), (.ringXdpEager, 2)]

theorem mixed_two :
    ¬∀ (n root : Nat) (f : Forwarder) (garbage : Nat → Mem) (bufs : Nat → Nat → Mem) (bs : List Broadcast)
      (s : Net Note), root < n → (∀ c ∈ bs, Forwarded c.1 ∧ 0 < c.2 ∧ c.2 < 2 ^ 31) →
      Net.Reaches (lossy n f) (network n garbage bufs (casts root bs)) s → Unmixed f n root bs bufs s := by
  intro h
  -- Rank 1 gives up the first broadcast, and takes its datagram in the second.
  have ⟨s, hs, ht⟩ : ∃ s, [Net.Label.run 0, .run 0, .run 1, .timeout 1, .run 1, .run 1, .take 1 0, .run 1].foldlM
      (Net.step (lossy 2 .id)) (network 2 (fun _ _ => 0) letters (casts 0 twice)) = some s ∧
      s.trace = [(0, .note (.enter 0)), (0, .sendto 1 (letter twice 0 2)), (1, .note (.enter 0)), (1, .timeout),
        (1, .note (.leave 0 (-1) (letters 1 0))), (1, .note (.enter 1)), (1, .took (letter twice 0 2)),
        (1, .note (.stored (terminate .char 1 1 ((letters 1 1).write 0 [65, 65]))))] := ⟨_, rfl, rfl⟩
  have h := h 2 0 .id (fun _ _ => 0) letters twice s (by decide) (by simp [twice, Forwarded]) (Net.reaches_of_steps hs)
  have h1 : s.events 1 = [.note (.enter 0), .timeout, .note (.leave 0 (-1) (letters 1 0)), .note (.enter 1),
      .took (letter twice 0 2), .note (.stored (terminate .char 1 1 ((letters 1 1).write 0 [65, 65])))] := by
    simp [Net.events, ht]
  have h0 : s.events 0 = [.note (.enter 0), .sendto 1 (letter twice 0 2)] := by simp [Net.events, ht]
  have hd1 : during opens 1 (s.events 1) = [.took (letter twice 0 2), .note (.stored (terminate .char 1 1
      ((letters 1 1).write 0 [65, 65])))] := h1 ▸ rfl
  have hd0 : during opens 1 (s.events 0) = [] := h0 ▸ rfl
  have := h 1 (by decide) (by decide) 1 .ringXdpEager 2 rfl
    (terminate .char 1 1 ((letters 1 1).write 0 [65, 65])) (by simp [hd1]) (by simp [hd1]) 0
  rcases this with h | ⟨h, _⟩ | ⟨d, hd, _⟩
  · exact absurd h (by decide)
  · contradiction
  · rw [hd0] at hd
    contradiction

end Mpi

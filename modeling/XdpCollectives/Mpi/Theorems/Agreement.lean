import XdpCollectives.Mpi.Theorems.BarrierLaw
import XdpCollectives.Mpi.Theorems.Xdp

-- Runs of broadcasts of messages that fit into one datagram.
namespace Mpi

open Memory Wire Process Script

-- Broadcasts of so many characters each, with a barrier behind every one.
def broadcasts (b : Bcast) (root : Nat) (counts : List Nat) : List Call :=
  counts.flatMap fun (count : Nat) => [.bcast b count .char root, .barrier]

theorem broadcasts_getElem? (b : Bcast) (root : Nat) (counts : List Nat) (k : Nat) :
    (broadcasts b root counts)[2 * k]? = counts[k]?.map fun count => .bcast b count .char root := by
  induction counts generalizing k
  case nil => rfl
  case cons count counts hi =>
    cases k with
    | zero   => rfl
    | succ k => exact hi k

theorem mem_broadcasts {b : Bcast} {counts : List Nat} (h : c ∈ broadcasts b root counts) :
    c = .barrier ∨ ∃ count : Nat, count ∈ counts ∧ c = .bcast b count .char root := by
  have ⟨count, hm, hc⟩ := List.mem_flatMap.mp h
  simp only [List.mem_cons, List.not_mem_nil, or_false] at hc
  exact hc.elim (fun hc => .inr ⟨count, hm, hc⟩) .inl

-- The rank that the datagrams for a rank come from.
def Bcast.source (n root : Nat) : Bcast → Nat → Nat
  | ring => fun r => (r + n - 1) % n
  | _    => fun _ => root

-- After the broadcast all ranks have the data of the root. With the help of the kernel, a rank has
-- stored them when it acknowledges them.
structure Hands (n root count : Nat) (m : Nat → Mem) (b : Bcast) (o : Outcome) : Prop where
  agree  : (m root) (count - 1) = 0 → ∀ r < n, (o.buf r).read 0 count = (m root).read 0 count
  stores : b = .ringXdp ∨ b = .linearXdp → ∀ r < n, r ≠ root → ∃ d a,
    proj r o.flow = [.get (.udp r) d, .note (.stored (o.buf r)), .put [(.tcp r root, a)]]

variable {n root count : Nat} {P : Nat → ProcessInfo}

theorem read_drop_last {m : Mem} (h0 : 0 < count) (h : m (count - 1) = 0) :
    (m.read 0 count).drop (count - 1) = [0] := by
  rw [Mem.read_drop, show count - (count - 1) = 1 by omega, Nat.zero_add, Mem.read, Mem.read, h]

theorem xdp_hands {b : Bcast} {m : Nat → Mem} (rest : Nat → Mem) (f : Forwarder) (hn : 2 ≤ n) (hroot : root < n)
    (hP : Ranked n P)
    (hc : Single 1 count) (collective : MPICollective) (hf : collective = .bcastRing ∨ collective = .bcastLinear)
    (hb : ∀ r, b.perform (P r) (m r) count .char root =
      bcastXdp collective (rest r) (P r) (m r) count .char root)
    (hs : b.source n root = fun _ => root) :
    ∃ o, Plays (lossless n f) n (b.source n root) (.bcast b count .char root) P m o ∧ Hands n root count m b o := by
  have ⟨datagram, head, he, carries, _⟩ := datagrams_single root .char (m root) 1 collective (p := P root)
    (r := (root + 1) % n) rfl hc.sendable hc
  let x : XdpCall := {
    n, root, es := 1, count, datatype := .char, collective, lost := fun _ => false, P, b := m
    two := hn, root_lt := hroot, ranked := hP, sized := rfl, single := hc, datagram, head, carries
    forwarded := hf, int := by simp }
  have hmem r : x.mem r = stored 1 count .char (payload 1 count (m root)) (m r) := rfl
  refine ⟨x.outcome, hs ▸ x.plays ⟨hc.sendable, he⟩ rfl f hb, ⟨fun hz r _ => ?_, fun _ r hr hne => ?_⟩⟩
  · have hbuf : x.outcome.buf r = if r = root then m root else x.mem r := rfl
    rw [hbuf]
    split
    · rfl
    · rw [hmem]
      exact stored_read_char hc.left rfl (read_drop_last hc.left hz)
  · have hbuf : x.outcome.buf r = x.mem r := if_neg hne
    refine ⟨datagram, (x.ack r).encode, ?_⟩
    rw [hbuf, XdpCall.proj_other hne, if_pos hr]
    rfl

theorem bcast_hands {b : Bcast} {m : Nat → Mem} (f : Forwarder) (hn : 2 ≤ n) (hroot : root < n) (hP : Ranked n P)
    (hc : Single 1 count) (hb : b ≠ .ringXdpEager) :
    ∃ o, Plays (lossless n f) n (b.source n root) (.bcast b count .char root) P m o ∧ Hands n root count m b o := by
  cases b
  case ring =>
    refine ⟨_, ring_plays hroot hP hn hc f m, ⟨fun hz r hr => ?_, by simp⟩⟩
    refine ringMem_read hc.left ?_ (read_drop_last hc.left hz) _
    rw [place_zero hroot]
  case linear =>
    refine ⟨_, linear_plays hroot hP hc f m, ⟨fun hz r _ => ?_, by simp⟩⟩
    simp only [linearOutcome]
    split
    · rfl
    · exact stored_read_char hc.left rfl (read_drop_last hc.left hz)
  case ringXdp      => exact xdp_hands (fun _ _ => 0) f hn hroot hP hc .bcastRing (.inl rfl) (fun _ => rfl) rfl
  case linearXdp    =>
    exact xdp_hands (fun r => (P r).garbage) f hn hroot hP hc .bcastLinear (.inr rfl) (fun _ => rfl) rfl
  case ringXdpEager => contradiction

theorem broadcasts_plan {b : Bcast} (f : Forwarder) (hn : 2 ≤ n) (hroot : root < n)
    (hP : Ranked n P) (hb : b ≠ .ringXdpEager) (cs : List Call)
    (hcs : ∀ c ∈ cs, c = .barrier ∨ ∃ count : Nat, Single 1 count ∧ c = .bcast b count .char root)
    (bufs : Nat → Nat → Mem) (i : Nat) :
    ∃ os P', Plan (lossless n f) n (b.source n root) bufs i cs P os P' ∧
      ∀ j (count : Nat), cs[j]? = some (.bcast b count .char root) →
        ∃ o, os[j]? = some o ∧ Hands n root count (fun r => bufs r (i + j)) b o := by
  have ⟨os, P', hp, hq⟩ := Plan.build (b.source n root) bufs cs (μ := lossless n f) (i := i)
    (Q := fun j c o => ∀ count : Nat, c = .bcast b count .char root →
      Hands n root count (fun r => bufs r j) b o) hP fun j c hj P hP => by
    rcases hcs c (List.mem_of_getElem? hj) with rfl | ⟨count, hc, rfl⟩
    · exact ⟨_, barrier_plays _ _ hn hP _, by simp⟩
    · have ⟨o, ho, hh⟩ := bcast_hands (m := fun r => bufs r (i + j)) f hn hroot hP hc hb
      refine ⟨o, ho, fun count' he => ?_⟩
      simp only [Call.bcast.injEq, Int.natCast_inj, true_and, and_true] at he
      exact he ▸ hh
  refine ⟨os, P', hp, fun j count hj => ?_⟩
  have ⟨o, ho, hh⟩ := hq j _ hj
  exact ⟨o, ho, hh count rfl⟩

section Agreement

variable {b : Bcast} {counts : List Nat} {f : Forwarder} {garbage : Nat → Mem} {bufs : Nat → Nat → Mem}
  {s : Net Note}

-- When the root has left a broadcast that the kernel helps with, the acknowledgement of every other
-- rank has been sent, and so its data stored.
theorem stored_of_left {cs : List Call} {os : List Outcome} {P' : Nat → ProcessInfo} {o : Outcome} {i r : Nat}
    (hp : Plan (lossless n f) n (b.source n root) bufs 0 cs (Plan.ranks n garbage) os P') (ho : os[i]? = some o)
    (hs : proj r o.flow = [.get (.udp r) d, .note (.stored buf), .put [(.tcp r root, a)]])
    (hr : r < n) (hroot : root < n)
    (hreach : Net.Reaches (lossless n f) (network n garbage bufs cs) s) (hl : Left i (s.events root)) :
    .note (.stored buf) ∈ during opens i (s.events r) := by
  obtain ⟨p, ra, hsim⟩ := hp.reaches hreach
  obtain ⟨ret, buf', hm⟩ := hl
  have hm := (note_mem_iff (hsim.events root)).mp hm
  obtain ⟨_, hup⟩ := (hp.sections hroot).closed (ra.done_prefix root) hm rfl
  rw [← List.map_take] at hup
  -- What the root has got of this rank up to here, the rank has put.
  let c : Chan := .tcp r root
  let pre : List (Process.Act Note) :=
    upto (rounds n 0 os) i r ++ [.note (.enter i), .get (.udp r) d, .note (.stored buf)]
  let act : Process.Act Note := .put [(c, a)]
  obtain ⟨u, hu⟩ : upto (rounds n 0 os) (i + 1) r <+: Plan.script n os r := upto_isPrefix _ _ _
  have he : upto (rounds n 0 os) (i + 1) r = pre ++ act :: [.note (.leave i 0 (o.buf r))] := by
    rw [upto, List.take_add_one, rounds_getElem?, ho, List.map_append, List.flatten_append]
    simp [round, hr, hs, pre, act, c, upto]
  have hlt : (pre.flatMap (Act.puts c)).length < ((p.done r).flatMap (Act.puts c)).length := by
    have hg : ((upto (rounds n 0 os) (i + 1) r).flatMap (Act.puts c)).length =
        ((upto (rounds n 0 os) (i + 1) root).flatMap (Act.gets c)).length :=
      congrArg List.length (upto_puts_eq_gets (w := wiring (b.source n root)) hp.drains hp.owned (i + 1) c)
    have hc : ((p.done r).flatMap (Act.puts c)).length =
        ((p.done root).flatMap (Act.gets c) ++ p.queue c).length :=
      congrArg List.length (hp.conserves ra c)
    obtain ⟨v, hv⟩ := hup
    have hv : upto (rounds n 0 os) (i + 1) root ++ v = p.done root := hv
    have hp : ((upto (rounds n 0 os) (i + 1) r).flatMap (Act.puts c)).length =
        (pre.flatMap (Act.puts c)).length + 1 := by
      rw [he, List.flatMap_append, List.length_append, List.flatMap_cons]
      simp [act, Act.puts, outsOn]
    rw [hc, ← hv, @List.flatMap_append _ _ (upto (rounds n 0 os) (i + 1) root), List.length_append,
      List.length_append, ← hg, hp]
    omega
  have hpre : pre ++ [act] <+: p.done r :=
    done_prefix_of_puts ([.note (.leave i 0 (o.buf r))] ++ u)
      (by rw [← List.cons_append, ← List.append_assoc, ← he, hu]; exact ra.done_prefix r) hlt
  have hin := (hp.sections hr).prefix_during (ra.done_prefix r) (v := [.get (.udp r) d, .note (.stored buf)])
    (x := .note (.enter i)) (i := i)
    (by rw [← List.map_take]; exact (List.prefix_append _ _).trans hpre) (by simp [opening])
  exact (note_mem_iff (during_matches (hsim.events r) i)).mpr (hin.subset (by simp))

-- What all ranks have of broadcast `i` of `count` characters, and what the root knows when it has left
-- it.
structure Agreed (n root count i : Nat) (b : Bcast) (data : Bytes) (s : Net Note) : Prop where
  leave  : ∀ r < n, ∀ ret buf, .note (.leave i ret buf) ∈ s.events r → ret = 0 ∧ buf.read 0 count = data
  stored : b = .ringXdp ∨ b = .linearXdp → Left i (s.events root) → ∀ r < n, r ≠ root →
    ∃ buf, .note (.stored buf) ∈ during opens i (s.events r) ∧ buf.read 0 count = data

-- In every run of a barrier and broadcasts of strings, each in one datagram, with all datagrams
-- delivered, no rank waits for ever, and all get what the root has.
theorem broadcasts_agree (hn : 2 ≤ n) (hroot : root < n) (hb : b ≠ .ringXdpEager)
    (hc : ∀ count ∈ counts, 0 < count ∧ mpiHeader + count ≤ maxPayload)
    (hz : ∀ k (count : Nat), counts[k]? = some count → (bufs root (2 * k + 1)) (count - 1) = 0) {calls : List Call}
    (hs : calls = .barrier :: broadcasts b root counts) :
    (∀ s, Net.Reaches (lossless n f) (network n garbage bufs calls) s → ¬Net.Stuck (lossless n f) n s) ∧
      ∀ s, Net.Reaches (lossless n f) (network n garbage bufs calls) s → ∀ k (count : Nat),
        counts[k]? = some count →
          Agreed n root count (2 * k + 1) b ((bufs root (2 * k + 1)).read 0 count) s := by
  subst hs
  have hcs : ∀ c ∈ .barrier :: broadcasts b root counts,
      c = .barrier ∨ ∃ count : Nat, Single 1 count ∧ c = .bcast b count .char root := by
    intro c hm
    rcases List.mem_cons.mp hm with rfl | hm
    · exact .inl rfl
    · refine (mem_broadcasts hm).imp_right fun ⟨count, hm, he⟩ => ⟨count, ?_, he⟩
      have := hc count hm
      exact ⟨this.left, by omega⟩
  have ⟨os, P', hp, hhands⟩ := broadcasts_plan f hn hroot (Plan.ranks_ranked n garbage) hb _ hcs bufs 0
  refine ⟨fun s => hp.not_stuck, fun s h k count hk => ?_⟩
  have hcall : (Call.barrier :: broadcasts b root counts)[2 * k + 1]? = some (.bcast b count .char root) := by
    rw [List.getElem?_cons_succ, broadcasts_getElem?, hk, Option.map_some]
  have ⟨o, ho, hands⟩ := hhands (2 * k + 1) count hcall
  rw [Nat.zero_add] at hands
  have ha := hands.agree (hz k count hk)
  have ⟨p, ra, hsim⟩ := hp.reaches h
  refine ⟨fun r hr ret buf hm => ?_, fun hx hl r hr hne => ?_⟩
  · have ⟨o', ho', hret, hbuf⟩ := Plan.script_leave hp.conducted <|
      (ra.done_prefix r).subset <| (note_mem_iff (hsim.events r)).mp hm
    obtain rfl : o = o' := Option.some.inj (ho.symm.trans ho')
    exact ⟨hret, hbuf ▸ ha r hr⟩
  · have ⟨_, _, hs⟩ := hands.stores hx r hr hne
    exact ⟨_, stored_of_left hp ho hs hr hroot h hl, ha r hr⟩

theorem texts_terminated {k : Nat} (root : Nat) (hk : [5, 3][k]? = some count) :
    texts root 5 root (2 * k + 1) (count - 1) = 0 := by
  apply texts_last
  rcases k with _ | _ | k
  · cases hk
    decide
  · cases hk
    decide
  · contradiction

theorem broadcasts_agree_two :
    (∀ s, Net.Reaches (lossless 2 .id) (network 2 (fun _ _ => 0) (texts 0 5)
        (.barrier :: broadcasts .ringXdp 0 [5, 3])) s → ¬Net.Stuck (lossless 2 .id) 2 s) ∧
      ∀ s, Net.Reaches (lossless 2 .id) (network 2 (fun _ _ => 0) (texts 0 5)
        (.barrier :: broadcasts .ringXdp 0 [5, 3])) s → ∀ k (count : Nat), [5, 3][k]? = some count →
          Agreed 2 0 count (2 * k + 1) .ringXdp ((texts 0 5 0 (2 * k + 1)).read 0 count) s :=
  broadcasts_agree (by decide) (by decide) (by decide) (by decide) (fun _ _ hk => texts_terminated 0 hk) rfl

end Agreement

end Mpi

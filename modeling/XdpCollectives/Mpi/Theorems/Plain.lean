import XdpCollectives.Mpi.Theorems.Agreement
import XdpCollectives.Mpi.Theorems.Hosts
import Mathlib.Data.Prod.Lex

-- Calls that leave the programs in the kernel nothing to copy, over the two hosts.
namespace Mpi

open Memory Wire Process Script

def Plain (calls : List Call) : Prop :=
  ∀ c ∈ calls, ∀ op, c.collective = some op → op = .send

theorem plain_broadcasts {b : Bcast} (hb : b = .ring ∨ b = .linear) (root : Nat) (counts : List Nat) :
    Plain (.barrier :: broadcasts b root counts) := by
  intro c hc op ho
  rcases List.mem_cons.mp hc with rfl | hc
  · contradiction
  · obtain rfl | ⟨count, _, rfl⟩ := mem_broadcasts hc
    · contradiction
    · rcases hb with rfl | rfl <;> exact (Option.some.inj ho).symm

variable {p : Kernel.Program} {maps : Kernel.Maps} {n : Nat} {garbage : Nat → Mem} {bufs : Nat → Nat → Mem}
  {calls : List Call}

-- A message for one rank arrives as it was sent, with the programs in the kernel and without them.
theorem alike_of_send {src dest : Nat} {d : Bytes}
    (hd : MPICollective.ofCode (Header.decode d).collective.toNat = some .send) :
    Net.Alike (forwarding p n fun _ => false) (lossless n .id) src dest d := by
  have hf : Kernel.forwardedAs (Header.decode d) = none := by
    rw [Kernel.forwardedAs, hd]
  constructor
  case reach => simp [forwarding, lossless, medium, recipients, hf, hd]
  case copy  => simp [forwarding, forwarder, lossless, medium, Forwarder.id, hf]

namespace Plain

variable {s t : Net Note} (hc : Plain calls) (hn : n ≤ 2 ^ 31)
include hc hn

theorem alike {μ : Medium} (h : (network n garbage bufs calls).Reaches μ s) (r dest : Nat) (d : Bytes)
    (k : Program Unit) (hs : s.prog r = .sendto dest d k) :
    Net.Alike (forwarding p n fun _ => false) (lossless n .id) r dest d := by
  obtain ⟨op, ⟨c, hm, ho⟩, hd⟩ := (network_sends (p := p) hn h hs).right
  obtain rfl := hc c hm op ho
  exact alike_of_send hd

theorem reaches (h : (network n garbage bufs calls).Reaches (forwarding p n fun _ => false) s) :
    (network n garbage bufs calls).Reaches (lossless n .id) s := by
  have ht : (forwarding p n fun _ => false).mayTimeout = (lossless n .id).mayTimeout := rfl
  exact Net.Reaches.alike ht rfl h fun t hr => hc.alike hn hr

theorem not_steps (h : (network n garbage bufs calls).Reaches (forwarding p n fun _ => false) s)
    (hs : ∀ t, ¬s.Steps (forwarding p n fun _ => false) t) : ¬s.Steps (lossless n .id) t := by
  have ht : (lossless n .id).mayTimeout = (forwarding p n fun _ => false).mayTimeout := rfl
  rintro ⟨l, hl⟩
  have hm := Net.Moves.alike ht rfl (Net.moves_iff.mp hl) fun r dest d k hk => (hc.alike hn h r dest d k hk).symm
  exact hs t ⟨l, Net.moves_iff.mpr hm⟩

end Plain

-- How many of these actions the ranks still have to do.
def remaining (n : Nat) (t : Nat → List (Process.Act Note)) (s : Net Note) : Nat :=
  ∑ r ∈ Finset.range n, ((t r).length - (s.events r).length)

theorem remaining_lt {t : Nat → List (Process.Act Note)} {s s' : Net Note} {q : Nat} {e : Event Note}
    (ht : ∀ r, n ≤ r → t r = []) (hs : s'.trace = s.trace ++ [(q, e)])
    (hle : ∀ r, (s'.events r).length ≤ (t r).length) : remaining n t s' < remaining n t s := by
  have he r : (s'.events r).length = (s.events r).length + if q = r then 1 else 0 := by
    rw [Net.events_append hs, List.length_append]
    split <;> rfl
  have hq : (s'.events q).length = (s.events q).length + 1 := by rw [he, if_pos rfl]
  have hqt := hle q
  have hqn : q < n := by
    by_contra hqn
    rw [ht q (by omega), List.length_nil] at hqt
    omega
  refine Finset.sum_lt_sum (fun r _ => ?_) ⟨q, Finset.mem_range.mpr hqn, by omega⟩
  have := he r
  omega

namespace Hosts

variable {Y : Kernel.Frame → List (BitVec 16 × Bytes) → Prop} {s s' : Hosts}

-- What is still to happen: the actions of the ranks, the datagrams that come of the packets, and the packets that have
-- not been at the other host yet.
def Owes (n : Nat) (Y : Kernel.Frame → List (BitVec 16 × Bytes) → Prop) (t : Nat → List (Process.Act Note)) (s : Hosts)
    (k : ℕ ×ₗ ℕ ×ₗ ℕ) : Prop :=
  ∃ c yss, Abbreviates c s ∧ List.Forall₂ Y c.flight yss ∧
    k = toLex (remaining n t s.net, toLex (yss.flatten.length, s.there.length))

section Runs

variable (ha : Kernel.World.Accounts (p.handle maps) Y) (hm : maps.Hosted) (hd : Delivers p n Y)
  (hb : basePort + n ≤ 2 ^ 16) (hc : Plain calls)
  (h : Reaches n (fun _ => false) (p.handle maps) ⟨network n garbage bufs calls, [], []⟩ s)
include ha hm hd hb

theorem exists_owes (t : Nat → List (Process.Act Note))
    (h : Reaches n (fun _ => false) (p.handle maps) ⟨network n garbage bufs calls, [], []⟩ s) :
    ∃ k, Owes n Y t s k := by
  obtain ⟨c, hcs, hcr⟩ := Abbreviates.reaches ha hm hd hb h
  obtain ⟨_, ⟨yss, hy, _⟩, _⟩ := Cluster.Shows.reaches ha hd hb hcr
  exact ⟨_, c, yss, hcs, hy, rfl⟩

include hc h

-- The ranks do what they do where all datagrams are delivered.
theorem exists_over : ∃ u, (network n garbage bufs calls).Reaches (lossless n .id) (s.over u) ∧
    ((∀ t, ¬Step n (fun _ => false) (p.handle maps) s t) → ∀ t, ¬(s.over u).Steps (lossless n .id) t) := by
  obtain ⟨c, hcs, hcr⟩ := Abbreviates.reaches ha hm hd hb h
  obtain ⟨u, hs, hr⟩ := Cluster.Shows.reaches ha hd hb hcr
  have hover : c.over u = s.over u := by rw [Cluster.over, Hosts.over, hcs.net]
  have hposted r dest d k (hk : s.net.prog r = .sendto dest d k) : Posted p n r dest d :=
    network_posts (by omega) hr (hcs.net ▸ hk)
  rw [hover] at hr
  refine ⟨u, hc.reaches (by omega) hr, fun hst _ => hc.not_steps (by omega) hr ?_⟩
  rw [← hover]
  exact hs.stuck (hcs.net ▸ hposted) (hcs.stuck hposted hst)

variable {source : Nat → Nat} {os : List Outcome} {P' : Nat → ProcessInfo}
  (hp : Plan (lossless n .id) n source bufs 0 calls (Plan.ranks n garbage) os P')
include hp

theorem events_le (r : Nat) : (s.net.events r).length ≤ (Plan.script n os r).length := by
  obtain ⟨u, hr, _⟩ := exists_over ha hm hd hb hc h
  obtain ⟨a, hra, hsim⟩ := hp.reaches hr
  exact (hsim.events r).length_eq ▸ (hra.done_prefix r).length_le

theorem owes_step {k : ℕ ×ₗ ℕ ×ₗ ℕ} (ho : Owes n Y (Plan.script n os) s k)
    (hs : Step n (fun _ => false) (p.handle maps) s s') : ∃ k' < k, Owes n Y (Plan.script n os) s' k' := by
  have hreach : Reaches n (fun _ => false) (p.handle maps) ⟨network n garbage bufs calls, [], []⟩ s' := .tail h hs
  -- A step of a rank leaves less to it, whatever it sends.
  have hact {l : Net.Label} (hstep : s.net.step (Cluster.alone fun _ => false) l = some s'.net) :
      ∃ k' < k, Owes n Y (Plan.script n os) s' k' := by
    obtain ⟨_, _, htrace⟩ := Net.step_trace hstep rfl
    have hlt := remaining_lt (fun _ => Plan.script_idle) htrace (events_le ha hm hd hb hc hreach hp)
    obtain ⟨c, yss, _, _, rfl⟩ := ho
    obtain ⟨_, c', yss', hcs, hy, rfl⟩ := exists_owes ha hm hd hb (Plan.script n os) hreach
    exact ⟨_, Prod.Lex.toLex_lt_toLex.mpr (.inl hlt), c', yss', hcs, hy, rfl⟩
  cases hs with
  | act _ _ hstep  => exact hact hstep
  | post _ hstep _ => exact hact hstep
  | mirror there   =>
    obtain ⟨c, yss, hcs, hy, rfl⟩ := ho
    refine ⟨_, ?_, c, yss, hcs.mirror there, hy, rfl⟩
    refine Prod.Lex.toLex_lt_toLex.mpr (.inr ⟨rfl, Prod.Lex.toLex_lt_toLex.mpr (.inr ⟨rfl, ?_⟩)⟩)
    simp [there]
  | arrive back    =>
    obtain ⟨c, yss, hcs, hy, rfl⟩ := ho
    obtain ⟨l', r', bs, flight, reflected, hcs'⟩ := hcs.arrive hm back
    obtain ⟨hne, yss', hy', hperm⟩ := ha.arrives (flight ▸ hy) reflected
    have hlen := hperm.length_eq
    have hpos := List.length_pos_of_ne_nil hne
    rw [List.length_append, List.length_map] at hlen
    refine ⟨_, ?_, _, yss', hcs', hy', rfl⟩
    exact Prod.Lex.toLex_lt_toLex.mpr (.inr ⟨rfl, Prod.Lex.toLex_lt_toLex.mpr (.inl (by omega))⟩)

-- No run goes on for ever.
theorem acc : Acc (Function.swap (Step n (fun _ => false) (p.handle maps))) s := by
  obtain ⟨k, ho⟩ := exists_owes ha hm hd hb (Plan.script n os) h
  induction k using WellFoundedLT.induction generalizing s with
  | ind k hi =>
    refine ⟨_, fun s' hs => ?_⟩
    obtain ⟨k', hk, ho'⟩ := owes_step ha hm hd hb hc h hp ho hs
    exact hi k' hk (.tail h hs) ho'

-- Where nothing can happen any more, every rank has done its script.
theorem ended (hst : ∀ t, ¬Step n (fun _ => false) (p.handle maps) s t) {r : Nat} (hr : r < n) :
    s.net.prog r = .ret () ∧ List.Forall₂ (Matches (lossless n .id) r) (s.net.events r) (Plan.script n os r) := by
  obtain ⟨u, hreach, hstuck⟩ := exists_over ha hm hd hb hc h
  obtain ⟨a, hra, hsim⟩ := hp.reaches hreach
  have hend : ((s.over u).prog r).Ended := by
    by_contra hne
    exact hp.not_stuck hreach ⟨⟨r, hr, hne⟩, hstuck hst⟩
  have ht := (hsim.ended_iff (fun _ => trivial) r).mp hend
  have hprog := hsim.prog r
  have hdone : a.done r = Plan.script n os r := by
    have he := congrFun hra.script_eq r
    rwa [State.script, ht, List.append_nil] at he
  rw [ht] at hprog
  exact ⟨hprog.eq_of_nil, hdone ▸ hsim.events r⟩

end Runs

end Hosts

-- mpi_bcast_ring, mpi_bcast_linear and mpi_barrier_ring over the two hosts: every run comes to an end, in every state
-- the ranks that have left a broadcast have what the root has, and at the end all of them have left all calls.
theorem hosts_agree (p : Kernel.Program) {root : Nat} {b : Bcast} {counts : List Nat} (hc : maps.Complete n)
    (hp : maps.Ports n) (hm : maps.Hosted) (hb : basePort + n ≤ 2 ^ 16) (hn : 2 ≤ n) (hroot : root < n)
    (hplain : b = .ring ∨ b = .linear) (hcounts : ∀ count ∈ counts, 0 < count ∧ mpiHeader + count ≤ maxPayload)
    (hz : ∀ k (count : Nat), counts[k]? = some count → (bufs root (2 * k + 1)) (count - 1) = 0)
    (hs : calls = .barrier :: broadcasts b root counts) :
    let start : Hosts := ⟨network n garbage bufs calls, [], []⟩
    let step := Hosts.Step n (fun _ => false) (p.handle maps)
    Acc (Function.swap step) start ∧ ∀ s, Relation.ReflTransGen step start s →
      (∀ k (count : Nat), counts[k]? = some count →
        Agreed n root count (2 * k + 1) b ((bufs root (2 * k + 1)).read 0 count) s.net) ∧
      ((∀ t, ¬step s t) → s.there = [] ∧ s.back = [] ∧ ∀ r < n, s.net.prog r = .ret () ∧
        ∀ i < calls.length, Left i (s.net.events r)) := by
  subst hs
  obtain ⟨Y, ha, hd⟩ := Kernel.messages_accounts p hc hp
  have hpl := plain_broadcasts hplain root counts
  have hcs : ∀ c ∈ .barrier :: broadcasts b root counts,
      c = .barrier ∨ ∃ count : Nat, Single 1 count ∧ c = .bcast b count .char root := by
    intro c hm
    rcases List.mem_cons.mp hm with rfl | hm
    · exact .inl rfl
    · refine (mem_broadcasts hm).imp_right fun h => ?_
      obtain ⟨count, hm, he⟩ := h
      have := hcounts count hm
      exact ⟨count, ⟨this.left, by omega⟩, he⟩
  have hb' : b ≠ .ringXdpEager := by rcases hplain with rfl | rfl <;> decide
  obtain ⟨os, P', hplan, hhands⟩ := broadcasts_plan .id hn hroot (Plan.ranks_ranked n garbage) hb' _ hcs bufs 0
  refine ⟨Hosts.acc ha hm hd hb hpl .refl hplan, fun s h => ⟨fun k count hk => ?_, fun hst => ?_⟩⟩
  · have hcall : (Call.barrier :: broadcasts b root counts)[2 * k + 1]? = some (.bcast b count .char root) := by
      rw [List.getElem?_cons_succ, broadcasts_getElem?, hk, Option.map_some]
    obtain ⟨o, ho, hands⟩ := hhands (2 * k + 1) count hcall
    rw [Nat.zero_add] at hands
    obtain ⟨u, hreach, _⟩ := Hosts.exists_over ha hm hd hb hpl h
    obtain ⟨a, hra, hsim⟩ := hplan.reaches hreach
    refine ⟨fun r hr ret buf hl => ?_, fun hx => ?_⟩
    · obtain ⟨o', ho', hret, hbuf⟩ := Plan.script_leave hplan.conducted <|
        (hra.done_prefix r).subset <| (note_mem_iff (hsim.events r)).mp hl
      obtain rfl : o = o' := Option.some.inj (ho.symm.trans ho')
      exact ⟨hret, hbuf ▸ hands.agree (hz k count hk) r hr⟩
    · rcases hplain with rfl | rfl <;> rcases hx with hx | hx <;> cases hx
  · obtain ⟨hthere, hback⟩ := Hosts.calm hst
    refine ⟨hthere, hback, fun r hr => ?_⟩
    obtain ⟨hprog, hevents⟩ := Hosts.ended ha hm hd hb hpl h hplan hst hr
    refine ⟨hprog, fun i hi => ?_⟩
    have hlt : i < os.length := hplan.length_eq.symm ▸ hi
    exact ⟨_, _, (note_mem_iff hevents).mpr (Plan.leave_mem_script hr (List.getElem?_eq_getElem hlt))⟩

theorem hosts_agree_two :
    let calls := .barrier :: broadcasts .linear 1 [5, 3]
    let start : Hosts := ⟨network 2 (fun _ _ => 0) (texts 1 5) calls, [], []⟩
    let step := Hosts.Step 2 (fun _ => false) (Kernel.Program.tc.handle (.filled 2))
    Acc (Function.swap step) start ∧ ∀ s, Relation.ReflTransGen step start s →
      (∀ k (count : Nat), [5, 3][k]? = some count →
        Agreed 2 1 count (2 * k + 1) .linear ((texts 1 5 1 (2 * k + 1)).read 0 count) s.net) ∧
      ((∀ t, ¬step s t) → s.there = [] ∧ s.back = [] ∧ ∀ r < 2, s.net.prog r = .ret () ∧
        ∀ i < calls.length, Left i (s.net.events r)) :=
  hosts_agree .tc (Kernel.Maps.filled_complete (by decide)) (Kernel.Maps.filled_ports (by decide))
    (Kernel.Maps.filled_hosted 2) (by decide) (by decide) (by decide) (.inr rfl) (by decide)
    (fun _ _ hk => texts_terminated 1 hk) rfl

end Mpi

import XdpCollectives.Mpi.Theorems.Observed
import XdpCollectives.Mpi.Theorems.Xdp

-- What becomes of one broadcast with the help of the kernel, when datagrams get lost.
namespace Mpi

open Memory Wire Process Script

namespace XdpCall

variable {x : XdpCall} {t : List (Process.Act Note)} {c : Chan} {q r : Nat}

theorem prev_prev_ne (hr : r < x.n) (h₁ : r ≠ x.root) (h₂ : x.prev r ≠ x.root) : x.prev (x.prev r) ≠ r := by
  have hp := x.prev_lt (i := r)
  have hne := x.prev_ne hr
  have hroot := x.root_lt
  have he : x.prev (x.prev r) = (r + (x.n - 2)) % x.n := by
    rw [prev, prev, Nat.add_sub_assoc (by omega), Nat.mod_add_mod,
      show r + x.n - 1 + (x.n - 1) = r + (x.n - 2) + x.n by omega, Nat.add_mod_right]
  rw [he]
  exact Cycle.add_mod_ne hr (by omega) (by omega)

section Channels

theorem puts_answers (r : Nat) (c : Chan) : (x.answers r).flatMap (Act.puts c) =
    (if x.lost r ∧ c = .tcp r (x.prev r) then [(x.nack r).encode] else []) ++
      if c = .tcp r x.root then [(x.ack r).encode] else [] := by
  rw [answers]
  by_cases hl : x.lost r
  case pos =>
    simp only [hl, if_true, asks, mends, List.cons_append, List.nil_append, List.flatMap_cons, List.flatMap_nil,
      Act.puts_single]
    simp [Act.puts]
  case neg =>
    rw [if_neg hl, if_neg (fun h => hl h.left), receipt, List.flatMap_append, List.map_singleton,
      List.flatMap_singleton,
      List.map_singleton, List.flatMap_cons, List.flatMap_singleton, Act.puts_single]
    rfl

theorem gets_answers (r : Nat) (c : Chan) : (x.answers r).flatMap (Act.gets c) =
    if x.lost r then if c = .tcp (x.prev r) r then [x.retransmission r] else []
    else if c = .udp r then [x.datagram] else [] := by
  rw [answers]
  split <;> simp [asks, mends, receipt, Act.gets, eq_comm]

-- What the root does about rank `i` concerns no other rank.
theorem flatMap_settles {f : Process.Act Note → List Bytes} {i : Nat} (hi : i ≠ x.root)
    (hf : ∀ j, j ≠ i → (x.settles j).flatMap f = []) :
    ((List.range x.n).flatMap fun j => if j = x.root then [] else x.settles j).flatMap f =
      if i < x.n then (x.settles i).flatMap f else [] := by
  rw [List.flatMap_assoc, flatMap_only (i := i) (A := (x.settles i).flatMap f) List.nodup_range fun j _ => ?_]
  · simp only [List.mem_range]
  · by_cases hj : j = i
    case pos => rw [hj, if_neg hi, if_pos rfl]
    case neg => split <;> simp [hj, hf]

theorem flatMap_settles_nil {f : Process.Act Note → List Bytes} (hf : ∀ j, j ≠ x.root → (x.settles j).flatMap f = []) :
    ((List.range x.n).flatMap fun j => if j = x.root then [] else x.settles j).flatMap f = [] := by
  rw [List.flatMap_assoc, List.flatMap_eq_nil_iff]
  intro j _
  split
  case isTrue     => rfl
  case isFalse hj => exact hf j hj

theorem puts_root_udp (q : Nat) : (proj x.root x.outcome.flow).flatMap (Act.puts (.udp q)) =
    if q ∈ x.audience then [x.datagram] else [] := by
  rw [proj_root, List.flatMap_append, flatMap_settles_nil fun j _ => ?_, scatter, List.flatMap_singleton, Act.puts,
    outsOn_scatter x.audience_nodup]
  · simp
  · rw [settles]
    split <;> simp [Act.puts, outsOn]

theorem puts_root_self : (proj x.root x.outcome.flow).flatMap (Act.puts (.tcp x.root x.root)) = [] := by
  rw [proj_root, List.flatMap_append, flatMap_settles_nil fun j hj => ?_, scatter, List.flatMap_singleton, Act.puts,
    outsOn_scatter x.audience_nodup]
  · simp
  · rw [settles]
    split <;> simp [Act.puts, outsOn, hj]

theorem puts_root_tcp (hq : q ≠ x.root) : (proj x.root x.outcome.flow).flatMap (Act.puts (.tcp x.root q)) =
    if q < x.n ∧ x.lost q ∧ x.prev q = x.root then [x.retransmission q] else [] := by
  have hs : x.scatter.flatMap (Act.puts (.tcp x.root q)) = [] := by
    rw [scatter, List.flatMap_singleton, Act.puts, outsOn_scatter x.audience_nodup]
    simp
  rw [proj_root, List.flatMap_append, hs, List.nil_append, flatMap_settles hq fun j hj => ?_]
  · by_cases hn : q < x.n
    case pos =>
      rw [settles]
      by_cases hl : x.lost q ∧ x.prev q = x.root <;> simp [hl, hn, Act.puts, outsOn]
    case neg => simp [hn]
  · rw [settles]
    split <;> simp [Act.puts, outsOn, hj]

theorem gets_root (hq : q ≠ x.root) : (proj x.root x.outcome.flow).flatMap (Act.gets (.tcp q x.root)) =
    if q < x.n then [if x.lost q ∧ x.prev q = x.root then (x.nack q).encode else (x.ack q).encode] else [] := by
  have hs : x.scatter.flatMap (Act.gets (.tcp q x.root)) = [] := by
    simp [scatter, Act.gets]
  rw [proj_root, List.flatMap_append, hs, List.nil_append, flatMap_settles hq fun j hj => ?_]
  · by_cases hn : q < x.n
    case pos =>
      rw [settles]
      by_cases hl : x.lost q ∧ x.prev q = x.root <;> simp [hl, hn, Act.gets]
    case neg => simp [hn]
  · rw [settles]
    split <;> simp [Act.gets, hj]

end Channels

-- What all ranks do when the root does `t`.
def scripts (x : XdpCall) (t : List (Process.Act Note)) (r : Nat) : List (Process.Act Note) :=
  if r = x.root then t else round x.n 0 x.outcome r

-- The root does what it does in the call, or a part of it.
structure Partial (x : XdpCall) (t : List (Process.Act Note)) : Prop where
  owned : ∀ a ∈ t, a.OwnedBy (wiring fun _ => x.root) x.root
  puts  : ∀ c, t.flatMap (Act.puts c) <+: (proj x.root x.outcome.flow).flatMap (Act.puts c)
  gets  : ∀ c, t.flatMap (Act.gets c) <+: (proj x.root x.outcome.flow).flatMap (Act.gets c)

theorem scripts_root : x.scripts t x.root = t := if_pos rfl

theorem scripts_other (hne : r ≠ x.root) {f : Process.Act Note → List Bytes} (hf : ∀ e, f (.note e) = []) :
    (x.scripts t r).flatMap f = if r < x.n then (x.answers r).flatMap f else [] := by
  rw [scripts, if_neg hne]
  split
  case isTrue hr => rw [round_flatMap hf 0 hr, proj_other hne, if_pos hr]
  case isFalse hr => rw [round, if_neg hr, List.flatMap_nil]

theorem scripts_idle (hr : x.n ≤ r) : x.scripts t r = [] := by
  have := x.root_lt
  rw [scripts, if_neg (by omega), round, if_neg (by omega)]

-- All that the root does.
theorem scripts_round : x.scripts (round x.n 0 x.outcome x.root) = round x.n 0 x.outcome := by
  funext r
  rw [scripts]
  split
  case isTrue h => rw [h]
  case isFalse  => rfl

theorem round_owned (p : Nat) : ∀ a ∈ round x.n 0 x.outcome p, a.OwnedBy (wiring fun _ => x.root) p := by
  intro a ha
  rw [round] at ha
  split at ha
  · simp only [List.mem_cons, List.mem_append, List.not_mem_nil, or_false] at ha
    rcases ha with rfl | ha | rfl
    · trivial
    · exact outcome_owned p a ha
    · trivial
  · contradiction

theorem round_partial : x.Partial (round x.n 0 x.outcome x.root) where
  owned  := round_owned x.root
  puts c := (round_flatMap (f := Act.puts c) (fun _ => rfl) 0 x.root_lt) ▸ List.prefix_rfl
  gets c := (round_flatMap (f := Act.gets c) (fun _ => rfl) 0 x.root_lt) ▸ List.prefix_rfl

theorem enter_partial : x.Partial [.note (.enter 0)] where
  owned a ha := by
    rw [List.mem_singleton.mp ha]
    trivial
  puts c := List.nil_prefix
  gets c := List.nil_prefix

namespace Partial

variable (h : x.Partial t)
include h

theorem start_owned : (State.start (x.scripts t)).Owned (wiring fun _ => x.root) := by
  intro p a ha
  have ha : a ∈ x.scripts t p := ha
  rw [scripts] at ha
  split at ha
  case isTrue hp => exact hp ▸ h.owned a ha
  case isFalse   => exact round_owned p a ha

-- Whatever the losses are, nobody gets a message in place of another one.
theorem start_agrees : (State.start (x.scripts t)).Agrees (wiring fun _ => x.root) := by
  have hgets {r c} (hr : r ≠ x.root) : (x.scripts t r).flatMap (Act.gets c) = if r < x.n then _ else [] :=
    (scripts_other hr fun _ => rfl).trans (by rw [gets_answers])
  have hputs {r c} (hr : r ≠ x.root) : (x.scripts t r).flatMap (Act.puts c) = if r < x.n then _ else [] :=
    (scripts_other hr fun _ => rfl).trans (by rw [puts_answers])
  intro c
  have hs p : (State.start (x.scripts t)).script p = x.scripts t p := rfl
  rw [hs, hs]
  cases c with
  | udp q =>
    have hp := h.puts (.udp q)
    rw [puts_root_udp] at hp
    refine .inl ?_
    show (x.scripts t x.root).flatMap (Act.puts (.udp q)) <+: (x.scripts t q).flatMap (Act.gets (.udp q))
    rw [scripts_root]
    refine hp.trans ?_
    split
    case isTrue ha =>
      obtain ⟨hlt, hne, hl⟩ := mem_audience.mp ha
      rw [hgets hne, if_pos hlt]
      simp [hl]
    case isFalse => exact List.nil_prefix
  | tcp p q =>
    show (x.scripts t p).flatMap (Act.puts (.tcp p q)) <+: (x.scripts t q).flatMap (Act.gets (.tcp p q)) ∨
      (x.scripts t q).flatMap (Act.gets (.tcp p q)) <+: (x.scripts t p).flatMap (Act.puts (.tcp p q))
    by_cases hp : p = x.root
    case pos =>
      subst hp
      refine .inl ?_
      by_cases hq : q = x.root
      case pos =>
        have hpre := h.puts (.tcp x.root x.root)
        rw [puts_root_self] at hpre
        rw [hq, scripts_root, List.prefix_nil.mp hpre]
        exact List.nil_prefix
      case neg =>
        have hpre := h.puts (.tcp x.root q)
        rw [puts_root_tcp hq] at hpre
        rw [scripts_root, hgets hq]
        refine hpre.trans ?_
        split
        case isTrue hc => simp [hc]
        case isFalse   => exact List.nil_prefix
    case neg =>
      by_cases hq : q = x.root
      case pos =>
        subst hq
        have hpre := h.gets (.tcp p x.root)
        rw [gets_root hp] at hpre
        rw [scripts_root, hputs hp]
        refine .inr (hpre.trans ?_)
        split
        case isTrue hlt =>
          by_cases hl : x.lost p ∧ x.prev p = x.root
          case pos =>
            rw [if_pos hl, if_pos ⟨hl.left, by rw [hl.right]⟩]
            exact List.prefix_append _ _
          case neg =>
            rw [if_neg hl, if_neg (fun he => hl ⟨he.left, (Chan.tcp.inj he.right).right.symm⟩), if_pos rfl]
            exact List.prefix_rfl
        case isFalse => exact List.nil_prefix
      case neg =>
        -- One of the two does not turn to the other one.
        rw [hputs hp, hgets hq]
        by_cases hpq : q = x.prev p
        case pos =>
          refine .inr ?_
          split
          case isTrue hlt =>
            have hne : p ≠ x.prev q := by
              rw [hpq]
              by_cases hpn : p < x.n
              · exact (prev_prev_ne hpn hp (hpq ▸ hq)).symm
              · have := x.prev_lt (i := x.prev p)
                omega
            simp [hne]
          case isFalse => exact List.nil_prefix
        case neg =>
          refine .inl ?_
          simp [hpq, hq]

theorem orderly {a : Process.Plan Note} (f : Forwarder) (hr : (State.start (x.scripts t)).Reaches a) :
    Orderly (medium x.n f x.lost) a := by
  intro q
  have hc := State.Conserves.start.reaches h.start_owned hr (.udp q)
  have ⟨u, hu⟩ : a.done x.root <+: t := by
    have := hr.done_prefix x.root
    rwa [scripts_root] at this
  have hp := (h.puts (.udp q)).length_le
  have hl := congrArg List.length hc
  rw [puts_root_udp, ← hu, List.flatMap_append, List.length_append] at hp
  rw [List.length_append] at hl
  have hd : ((a.done x.root).flatMap (Act.puts (.udp q))).length = _ := hl
  show (a.queue (.udp q)).length ≤ if x.lost q then 0 else 1
  split at hp
  case isTrue ha =>
    rw [(mem_audience.mp ha).right.right]
    simp only [List.length_singleton] at hp
    show _ ≤ 1
    omega
  case isFalse =>
    simp only [List.length_nil] at hp
    omega

end Partial

-- The call is the only one of a program that the ranks of a network run.
structure Describes (x : XdpCall) (garbage : Nat → Mem) (bufs : Nat → Nat → Mem) (c : Call) : Prop where
  ranks : x.P = Plan.ranks x.n garbage
  bufs  : x.b = fun r => bufs r 0
  call  : ∃ rest : Nat → Mem, ∀ r, c.perform (x.P r) (x.b r) =
    bcastXdp x.collective (rest r) (x.P r) (x.b r) x.count x.datatype x.root

def stops (x : XdpCall) (y : Program Unit) (r : Nat) : Program Unit :=
  if r = x.root then y else .ret ()

theorem stops_ended (hy : Prog.Ended y) (r : Nat) : (x.stops y r).Ended := by
  rw [stops]
  split
  · exact hy
  · trivial

namespace Describes

variable {garbage : Nat → Mem} {bufs : Nat → Nat → Mem} {call : Call} {y : Program Unit} {s : Net Note}
  (h : x.Describes garbage bufs call) (f : Forwarder)
include h

theorem round_performs (hr : r < x.n)
    (hp : ∀ rest, Performs (medium x.n f x.lost) r
      (bcastXdp x.collective rest (x.P r) (x.b r) x.count x.datatype x.root) (proj r x.outcome.flow)
      (.ret (0, x.outcome.buf r, x.outcome.proc r))) :
    Performs (medium x.n f x.lost) r (performCalls (bufs r) 0 [call] (.init x.n r (garbage r)))
      (round x.n 0 x.outcome r) (.ret ()) := by
  have ⟨rest, hc⟩ := h.call
  have hc := hc r
  simp only [h.ranks, h.bufs] at hc hp
  have hp := Mpi.round_performs bufs [] (P := Plan.ranks x.n garbage) (i := 0) hr (hc ▸ hp (rest r)) .refl
  rwa [List.append_nil] at hp

theorem sim (hy : Performs (medium x.n f x.lost) x.root
      (performCalls (bufs x.root) 0 [call] (.init x.n x.root (garbage x.root))) t y) :
    Sim (medium x.n f x.lost) (x.stops y) (network x.n garbage bufs [call]) (.start (x.scripts t)) := by
  have hroot := x.root_lt
  apply Sim.start
  intro r
  by_cases hr : r = x.root
  case pos =>
    subst hr
    rw [if_pos hroot, scripts_root, stops, if_pos rfl]
    exact hy
  case neg =>
    rw [stops, if_neg hr]
    by_cases hlt : r < x.n
    case pos =>
      rw [if_pos hlt, scripts, if_neg hr]
      exact h.round_performs f hlt fun rest => other_performs f rest hlt hr
    case neg =>
      rw [if_neg hlt, scripts_idle (by omega)]
      exact .refl

theorem sim_round (he : x.Emits) : Sim (medium x.n f x.lost) (x.stops (.ret ())) (network x.n garbage bufs [call])
    (.start (round x.n 0 x.outcome)) :=
  scripts_round ▸ h.sim f (h.round_performs f x.root_lt fun rest => root_performs he f rest)

theorem reaches (he : x.Emits) (hr : Net.Reaches (medium x.n f x.lost) (network x.n garbage bufs [call]) s) :
    ∃ a, (State.start (round x.n 0 x.outcome)).Reaches a ∧ Sim (medium x.n f x.lost) (x.stops (.ret ())) s a := by
  have hp := x.round_partial
  have ho := hp.start_owned
  have ha := hp.start_agrees
  have hq {a} := hp.orderly (a := a) f
  rw [scripts_round] at ho ha hq
  exact (h.sim_round f he).reaches (stops_ended trivial) ho .start ha (fun _ hr => hq hr) rfl hr

-- A rank that waits for something that nobody sends.
theorem stuck (hp : x.Partial t) (hy : Performs (medium x.n f x.lost) x.root
      (performCalls (bufs x.root) 0 [call] (.init x.n x.root (garbage x.root))) t y) (he : y.Ended)
    (c : Chan) (hg : (x.scripts t ((wiring fun _ => x.root).reader c)).flatMap (Act.gets c) ≠ [])
    (hw : (x.scripts t ((wiring fun _ => x.root).writer c)).flatMap (Act.puts c) = []) :
    ∃ s, Net.Reaches (medium x.n f x.lost) (network x.n garbage bufs [call]) s ∧
      Net.Stuck (medium x.n f x.lost) x.n s :=
  (h.sim f hy).starves (stops_ended he) hp.start_owned .start hp.start_agrees (fun _ => hp.orderly f) rfl
    (fun _ => scripts_idle) c hg hw

end Describes

end XdpCall

end Mpi

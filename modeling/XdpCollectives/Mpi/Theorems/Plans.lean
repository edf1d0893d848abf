import XdpCollectives.Mpi.Theorems.Rounds

-- Programs whose calls are planned one after the other.
namespace Mpi

open Memory Wire Process Script

-- A call of the ranks `P`, with the buffers `b`, that ends well.
structure Plays (μ : Medium) (n : Nat) (source : Nat → Nat) (c : Call) (P : Nat → ProcessInfo)
    (b : Nat → Mem) (o : Outcome) : Prop where
  performs : ∀ r < n, Performs μ r (c.perform (P r) (b r)) (proj r o.flow) (.ret (0, o.buf r, o.proc r))
  idle     : ∀ r, n ≤ r → proj r o.flow = []
  quiet    : ∀ r e, .note e ∈ proj r o.flow → ∃ buf, e = .stored buf
  drains   : Flow (fun _ => []) o.flow fun _ => []
  polite   : Polite source o.flow
  ranked   : Ranked n o.proc

-- The calls from number `i` on end well, and lead from the ranks `P` to the ranks `P'`.
inductive Plan (μ : Medium) (n : Nat) (source : Nat → Nat) (bufs : Nat → Nat → Mem) :
    Nat → List Call → (Nat → ProcessInfo) → List Outcome → (Nat → ProcessInfo) → Prop
  | nil : Plan μ n source bufs i [] P [] P
  | cons (h : Plays μ n source c P (fun r => bufs r i) o) (hs : Plan μ n source bufs (i + 1) cs o.proc os P') :
      Plan μ n source bufs i (c :: cs) P (o :: os) P'

variable {μ : Medium} {n : Nat} {source : Nat → Nat} {bufs : Nat → Nat → Mem} {cs cs' : List Call}
  {P P' : Nat → ProcessInfo} {os : List Outcome} {o : Outcome} {c : Call} {b : Nat → Mem} {i r : Nat}

namespace Plan

-- A program can be planned call by call, whatever the processes have counted before.
variable (source bufs cs) in
theorem build {Q : Nat → Call → Outcome → Prop} (hP : Ranked n P)
    (h : ∀ j c, cs[j]? = some c → ∀ P, Ranked n P →
      ∃ o, Plays μ n source c P (fun r => bufs r (i + j)) o ∧ Q (i + j) c o) :
    ∃ os P', Plan μ n source bufs i cs P os P' ∧
      ∀ j c, cs[j]? = some c → ∃ o, os[j]? = some o ∧ Q (i + j) c o := by
  induction cs generalizing i P
  case nil => exact ⟨[], P, .nil, by simp⟩
  case cons c cs hi =>
    have ⟨o, ho, hq⟩ := h 0 c rfl P hP
    have hs (j : Nat) : i + 1 + j = i + (j + 1) := by omega
    have ⟨os, P', hp, hqs⟩ := hi (i := i + 1) ho.ranked fun j c hc P hP => by
      rw [hs]
      exact h (j + 1) c hc P hP
    refine ⟨o :: os, P', .cons ho hp, fun j c hc => ?_⟩
    cases j with
    | zero   =>
      obtain rfl := Option.some.inj hc
      exact ⟨o, rfl, hq⟩
    | succ j =>
      rw [← hs]
      exact hqs j c hc

theorem plays (h : Plan μ n source bufs i cs P os P') (ho : o ∈ os) :
    ∃ i c P, Plays μ n source c P (fun r => bufs r i) o := by
  induction h
  case nil => contradiction
  case cons h _ hi =>
    rcases List.mem_cons.mp ho with rfl | ho
    · exact ⟨_, _, _, h⟩
    · exact hi ho

variable (cs') in
theorem performs (h : Plan μ n source bufs i cs P os P') (hr : r < n) :
    Performs μ r (performCalls (bufs r) i (cs ++ cs') (P r)) ((rounds n i os).map (· r)).flatten
      (performCalls (bufs r) (i + cs.length) cs' (P' r)) := by
  induction h
  case nil => exact .refl
  case cons h _ hi =>
    rw [rounds, List.map_cons, List.flatten_cons, List.length_cons, ← Nat.add_assoc,
      Nat.add_right_comm _ _ 1]
    exact round_performs _ _ hr (h.performs r hr) hi

theorem ranked (h : Plan μ n source bufs i cs P os P') (hP : Ranked n P) : Ranked n P' := by
  induction h
  case nil => exact hP
  case cons h _ hi => exact hi h.ranked

theorem length_eq (h : Plan μ n source bufs i cs P os P') : os.length = cs.length := by
  induction h <;> simp_all

theorem conducted (h : Plan μ n source bufs i cs P os P') : ∀ o ∈ os, o.Conducted n source := by
  intro o ho
  have ⟨_, _, _, hp⟩ := h.plays ho
  exact ⟨hp.idle, hp.quiet, hp.drains, hp.polite.owned⟩

theorem drains (h : Plan μ n source bufs i cs P os P') : ∀ t ∈ rounds n i os, Drains t :=
  rounds_drains h.conducted

theorem owned (h : Plan μ n source bufs i cs P os P') :
    ∀ t ∈ rounds n i os, ∀ p, ∀ a ∈ t p, a.OwnedBy (wiring source) p :=
  rounds_owned h.conducted

theorem sections (h : Plan μ n source bufs 0 cs P os P') (hr : r < n) :
    Sections opening closing ((rounds n 0 os).map (· r)) :=
  rounds_sections h.conducted hr

theorem rounds_balanced {f g : Process.Act Note → Nat} {p k : Nat}
    (h : ∀ j, ∀ o ∈ os, Balanced f g k (round n j o p)) :
    Balanced f g k ((rounds n i os).map (· p)).flatten := by
  apply Balanced.flatten
  intro l hl
  have ⟨t, ht, he⟩ := List.mem_map.mp hl
  have ⟨j, o, ho, ht⟩ := mem_rounds ht
  subst he ht
  exact h (i + j) o (List.mem_of_getElem? ho)

theorem round_balanced {f g : Process.Act Note → Nat} (hn : ∀ e, f (.note e) = 0 ∧ g (.note e) = 0)
    {p k : Nat} (h : Balanced f g k (proj p o.flow)) (j : Nat) : Balanced f g k (round n j o p) := by
  have hq e : Balanced f g k [.note e] := .quiet <| by simpa using hn e
  rw [round]
  split
  · exact (hq _).append (h.append (hq _))
  · exact ⟨trivial, rfl⟩

-- The runs of a program that is planned from its beginning to its end.
section Runs

variable {f : Forwarder} {garbage : Nat → Mem} {s : Net Note} {a : Process.Plan Note}

variable (h : Plan (lossless n f) n source bufs 0 cs (ranks n garbage) os P')
include h

theorem sim : Sim (lossless n f) (fun _ => .ret ()) (network n garbage bufs cs) (.start (script n os)) :=
  script_performs fun r hr => by
    have hp := h.performs [] hr
    rwa [List.append_nil] at hp

theorem start_owned : (State.start (script n os)).Owned (wiring source) :=
  script_owned h.conducted

theorem completes : (State.start (script n os)).Completes :=
  script_completes h.conducted

theorem conserves (hr : (State.start (script n os)).Reaches a) : a.Conserves (wiring source) :=
  State.Conserves.start.reaches h.start_owned hr

theorem orderly (hr : (State.start (script n os)).Reaches a) : Orderly (lossless n f) a := by
  intro q
  have hs : Balanced (putting (.udp q) fun _ => true) (getting (.tcp q (source q)) isHeader) 1
      (script n os (source q)) := by
    refine rounds_balanced fun j o ho => ?_
    have ⟨_, _, _, hp⟩ := h.plays ho
    exact round_balanced (fun _ => ⟨rfl, rfl⟩) (hp.polite.spends q) j
  have ha : Balanced (putting (.tcp q (source q)) isHeader) (getting (.udp q) fun _ => true) 0
      (script n os q) := by
    refine rounds_balanced fun j o ho => ?_
    have ⟨_, _, _, hp⟩ := h.plays ho
    exact round_balanced (fun _ => ⟨rfl, rfl⟩) (hp.polite.answers q) j
  exact (h.conserves hr).length_le (c := .udp q) (b := .tcp q (source q)) rfl rfl
    (hs.within.le (hr.done_prefix _)) (ha.within.le (hr.done_prefix _))

theorem reaches (hr : Net.Reaches (lossless n f) (network n garbage bufs cs) s) :
    ∃ a, (State.start (script n os)).Reaches a ∧ Sim (lossless n f) (fun _ => .ret ()) s a :=
  h.sim.reaches (fun _ => trivial) h.start_owned .start (h.completes.agrees h.start_owned .start)
    (fun _ => h.orderly) rfl hr

theorem not_stuck (hr : Net.Reaches (lossless n f) (network n garbage bufs cs) s) :
    ¬Net.Stuck (lossless n f) n s := by
  have ⟨_, ra, hs⟩ := h.reaches hr
  exact hs.not_stuck (fun _ => trivial) (h.completes.reaches h.start_owned ra) n

-- The network can do the first parts of the scripts in the order of a flow.
theorem lift {g : List (Nat × Process.Act Note)} {q : Queues Chan Bytes} (hg : Flow (fun _ => []) g q)
    (hp : ∀ r, proj r g <+: script n os r) :
    ∃ s, Net.Reaches (lossless n f) (network n garbage bufs cs) s ∧
      ∀ r, List.Forall₂ (Matches (lossless n f) r) (s.events r) (proj r g) := by
  have ⟨a, ra, hd⟩ := hg.reaches_start hp
  have ⟨s, rs, hs⟩ := h.sim.lift_reaches ra
  exact ⟨s, rs, fun r => hd r ▸ hs.events r⟩

-- A run of the calls of a plan, and then of a part of what follows them.
theorem extend {t : Nat → List (Process.Act Note)} {y : Nat → Program Unit}
    (ht : ∀ r < n, Performs (lossless n f) r (performCalls (bufs r) cs.length cs' (P' r)) (t r) (y r))
    (hi : ∀ r, n ≤ r → t r = []) {g : List (Nat × Process.Act Note)} {q : Queues Chan Bytes}
    (hg : ∀ r, proj r g = t r) (hf : Flow (fun _ => []) g q) :
    ∃ s, Net.Reaches (lossless n f) (network n garbage bufs (cs ++ cs')) s ∧ (∀ r < n, s.prog r = y r) ∧
      (∀ p r, s.tcp p r = (q (.tcp p r)).flatten) ∧
      ∀ r, List.Forall₂ (Matches (lossless n f) r) (s.events r) (script n os r ++ t r) := by
  have ⟨s, rs, hs⟩ := script_extend h.conducted (fun r hr => h.performs cs' hr)
    (fun r hr => (Nat.zero_add cs.length).symm ▸ ht r hr) hi hg hf
  exact ⟨s, rs.reaches, hs⟩

end Runs

end Plan

end Mpi

import XdpCollectives.Mpi.Theorems.Plans

-- Programs whose calls may leave datagrams behind.
namespace Mpi

open Memory Wire Process Script

-- A call of the ranks `P`, with the buffers `b`, that ends well. It finds the channels as `q` says, and leaves them as
-- `q'` says.
structure Leads (μ : Medium) (n : Nat) (source : Nat → Nat) (c : Call) (P : Nat → ProcessInfo) (b : Nat → Mem)
    (q : Queues Chan Bytes) (o : Outcome) (q' : Queues Chan Bytes) : Prop where
  performs : ∀ r < n, Performs μ r (c.perform (P r) (b r)) (proj r o.flow) (.ret (0, o.buf r, o.proc r))
  idle     : ∀ r, n ≤ r → proj r o.flow = []
  quiet    : ∀ r e, .note e ∈ proj r o.flow → ∃ buf, e = .stored buf
  owned    : ∀ p, ∀ a ∈ proj p o.flow, a.OwnedBy (wiring source) p
  flow     : Flow q o.flow q'

-- The calls from number `i` on end well, one after the other.
inductive Course (μ : Medium) (n : Nat) (source : Nat → Nat) (bufs : Nat → Nat → Mem) :
    Nat → List Call → (Nat → ProcessInfo) → Queues Chan Bytes → List Outcome → Queues Chan Bytes → Prop
  | nil : Course μ n source bufs i [] P q [] q
  | cons (h : Leads μ n source c P (fun r => bufs r i) q o q₁)
      (hs : Course μ n source bufs (i + 1) cs o.proc q₁ os q') :
      Course μ n source bufs i (c :: cs) P q (o :: os) q'

variable {μ : Medium} {n : Nat} {source : Nat → Nat} {bufs : Nat → Nat → Mem} {cs : List Call}
  {P : Nat → ProcessInfo} {os : List Outcome} {q q' : Queues Chan Bytes} {i r : Nat}

-- A call that leaves nothing behind and touches no datagrams.
theorem Plays.leads {c : Call} {b : Nat → Mem} {o : Outcome} (h : Plays μ n source c P b o)
    (hq : ∀ x ∈ o.flow, ∀ ch, x.2.gets ch ≠ [] → q ch = []) : Leads μ n source c P b q o q where
  performs := h.performs
  idle     := h.idle
  quiet    := h.quiet
  owned    := h.polite.owned
  flow     := by simpa using h.drains.beside hq

namespace Course

theorem leads (h : Course μ n source bufs i cs P q os q') (ho : o ∈ os) :
    ∃ c P b q q', Leads μ n source c P b q o q' := by
  induction h
  case nil => contradiction
  case cons h _ hi =>
    rcases List.mem_cons.mp ho with rfl | ho
    · exact ⟨_, _, _, _, _, h⟩
    · exact hi ho

theorem length_eq (h : Course μ n source bufs i cs P q os q') : os.length = cs.length := by
  induction h <;> simp_all

theorem performs (h : Course μ n source bufs i cs P q os q') (hr : r < n) :
    Performs μ r (performCalls (bufs r) i cs (P r)) ((rounds n i os).map (· r)).flatten (.ret ()) := by
  induction h
  case nil => exact .refl
  case cons h _ hi =>
    rw [rounds, List.map_cons, List.flatten_cons]
    exact round_performs _ _ hr (h.performs r hr) hi

-- One order in which all ranks can do all rounds.
theorem flow (h : Course μ n source bufs i cs P q os q') :
    ∃ g, (∀ p, proj p g = ((rounds n i os).map (· p)).flatten) ∧ Flow q g q' := by
  induction h
  case nil => exact ⟨[], fun _ => rfl, rfl⟩
  case cons h _ hi =>
    obtain ⟨g₁, hp₁, hf₁⟩ := round_flow h.idle h.flow _
    obtain ⟨g₂, hp₂, hf₂⟩ := hi
    refine ⟨g₁ ++ g₂, fun p => ?_, hf₁.append hf₂⟩
    rw [proj_append, hp₁, hp₂, rounds, List.map_cons, List.flatten_cons]

section Runs

variable {garbage : Nat → Mem} {s : Net Note}
  (h : Course μ n source bufs 0 cs (Plan.ranks n garbage) (fun _ => []) os q)
include h

theorem sim : Sim μ (fun _ => .ret ()) (network n garbage bufs cs) (.start (Plan.script n os)) := by
  apply Sim.start
  intro r
  by_cases hr : r < n
  case pos =>
    rw [if_pos hr]
    exact h.performs hr
  case neg =>
    rw [if_neg hr, Plan.script_idle (by omega)]
    exact .refl

theorem owned : (State.start (Plan.script n os)).Owned (wiring source) := by
  intro p a ha
  obtain ⟨l, hl, ha⟩ := List.mem_flatten.mp ha
  obtain ⟨t, ht, rfl⟩ := List.mem_map.mp hl
  obtain ⟨j, o, ho, rfl⟩ := mem_rounds ht
  obtain ⟨_, _, _, _, _, hl⟩ := h.leads (List.mem_of_getElem? ho)
  rw [round] at ha
  split at ha
  · simp only [List.mem_cons, List.mem_append, List.not_mem_nil, or_false] at ha
    rcases ha with rfl | ha | rfl
    · trivial
    · exact hl.owned p a ha
    · trivial
  · contradiction

theorem completes : (State.start (Plan.script n os)).Completes := by
  obtain ⟨g, hp, hf⟩ := h.flow
  exact hf.completes hp

variable (hpat : ∀ p, μ.mayTimeout p = false) (hdrop : μ.mayDrop = false)
include hpat hdrop

theorem reaches (hr : Net.ReachesInOrder μ (network n garbage bufs cs) s) :
    ∃ a, (State.start (Plan.script n os)).Reaches a ∧ Sim μ (fun _ => .ret ()) s a :=
  h.sim.reaches_in_order (fun _ => trivial) h.owned .start (h.completes.agrees h.owned .start) hpat hdrop hr

theorem not_stuck (hr : Net.ReachesInOrder μ (network n garbage bufs cs) s) : ¬s.StuckInOrder μ n := by
  obtain ⟨a, ra, hs⟩ := h.reaches hpat hdrop hr
  exact fun hst => hs.not_stuck (fun _ => trivial) (h.completes.reaches h.owned ra) n (.of_in_order hst hdrop)

-- A rank leaves a call with what its round says.
theorem leave (hr : Net.ReachesInOrder μ (network n garbage bufs cs) s) {ret : Int} {buf : Mem}
    (hm : .note (.leave i ret buf) ∈ s.events r) : ∃ o, os[i]? = some o ∧ ret = 0 ∧ buf = o.buf r := by
  obtain ⟨a, ra, hs⟩ := h.reaches hpat hdrop hr
  have hm := (ra.done_prefix r).subset ((note_mem_iff (hs.events r)).mp hm)
  obtain ⟨l, hl, hm⟩ := List.mem_flatten.mp hm
  obtain ⟨t, ht, rfl⟩ := List.mem_map.mp hl
  obtain ⟨j, o, ho, rfl⟩ := mem_rounds ht
  obtain ⟨_, _, _, _, _, hl⟩ := h.leads (List.mem_of_getElem? ho)
  rw [Nat.zero_add] at hm
  obtain ⟨rfl, hret, hbuf⟩ := round_leave (hl.quiet r) hm
  exact ⟨o, ho, hret, hbuf⟩

end Runs

-- There is a run in which every rank leaves every call.
theorem exists_left {garbage : Nat → Mem}
    (h : Course μ n source bufs 0 cs (Plan.ranks n garbage) (fun _ => []) os q) :
    ∃ s, Net.ReachesInOrder μ (network n garbage bufs cs) s ∧
      ∀ r < n, ∀ i o, os[i]? = some o → .note (.leave i 0 (o.buf r)) ∈ s.events r := by
  obtain ⟨a, ra, hf⟩ := h.completes
  obtain ⟨s, rs, hs⟩ := h.sim.lift_reaches_in_order ra
  refine ⟨s, rs, fun r hr i o ho => ?_⟩
  have hd : a.done r = Plan.script n os r := by
    have he := congrFun ra.script_eq r
    rwa [State.script, hf r, List.append_nil] at he
  rw [note_mem_iff (hs.events r), hd]
  exact Plan.leave_mem_script hr ho

end Course
end Mpi

import XdpCollectives.Mpi.Theorems.Hops
import XdpCollectives.Mpi.Theorems.Observed

-- What the ranks do in the calls of a program, call by call.
namespace Mpi

open Memory Wire Process Script

-- What all ranks do in a call, in one order in which they can, and what they leave it with.
structure Outcome where
  flow : List (Nat × Process.Act Note)
  buf  : Nat → Mem
  proc : Nat → ProcessInfo

def Ranked (n : Nat) (P : Nat → ProcessInfo) : Prop :=
  ∀ r < n, (P r).rank = r ∧ (P r).size = n

def round (n i : Nat) (o : Outcome) (r : Nat) : List (Process.Act Note) :=
  if r < n then .note (.enter i) :: (proj r o.flow ++ [.note (.leave i 0 (o.buf r))]) else []

def rounds (n : Nat) : (i : Nat) → List Outcome → List (Nat → List (Process.Act Note))
  | _, []      => []
  | i, o :: os => round n i o :: rounds n (i + 1) os

-- The ranks can do the actions of a call from empty channels to empty channels.
structure Outcome.Conducted (n : Nat) (source : Nat → Nat) (o : Outcome) : Prop where
  idle   : ∀ r, n ≤ r → proj r o.flow = []
  quiet  : ∀ r e, .note e ∈ proj r o.flow → ∃ buf, e = .stored buf
  drains : Flow (fun _ => []) o.flow fun _ => []
  owned  : ∀ p, ∀ a ∈ proj p o.flow, a.OwnedBy (wiring source) p

variable {μ : Medium} {n : Nat} {source : Nat → Nat} {bufs : Nat → Nat → Mem} {cs : List Call}
  {P P' : Nat → ProcessInfo} {os : List Outcome} {o : Outcome} {c : Call} {i r : Nat}

theorem rounds_getElem? : (rounds n i os)[j]? = os[j]?.map (round n (i + j)) := by
  induction os generalizing i j
  case nil => rfl
  case cons o os hi =>
    cases j with
    | zero   => rfl
    | succ j =>
      rw [rounds, List.getElem?_cons_succ, List.getElem?_cons_succ, hi]
      congr 2
      omega

theorem rounds_length : (rounds n i os).length = os.length := by
  induction os generalizing i <;> simp_all [rounds]

theorem mem_rounds (h : t ∈ rounds n i os) : ∃ j o, os[j]? = some o ∧ t = round n (i + j) o := by
  have ⟨j, hj, he⟩ := List.mem_iff_getElem.mp h
  have hg := (List.getElem?_eq_getElem hj).symm.trans rounds_getElem?
  rw [he] at hg
  have ⟨o, ho, ht⟩ := Option.map_eq_some_iff.mp hg.symm
  exact ⟨j, o, ho, ht.symm⟩

variable (bufs cs) in
theorem round_performs (hr : r < n)
    (h : Performs μ r (c.perform (P r) (bufs r i)) (proj r o.flow) (.ret (0, o.buf r, o.proc r)))
    (hk : Performs μ r (performCalls (bufs r) (i + 1) cs (o.proc r)) t z) :
    Performs μ r (performCalls (bufs r) i (c :: cs) (P r)) (round n i o r ++ t) z := by
  rw [round, if_pos hr, List.cons_append, List.append_assoc]
  exact .note <| h.seq <| .note hk

-- Every rank does something of its own.
theorem proj_each {l : List Nat} (hl : l.Nodup) (f : Nat → List (Process.Act Note)) (p : Nat) :
    proj p (l.flatMap fun r => tag r (f r)) = if p ∈ l then f p else [] := by
  induction l
  case nil => rfl
  case cons r l hi =>
    have ⟨hr, hl⟩ := List.nodup_cons.mp hl
    rw [List.flatMap_cons, proj_append, proj_tag, hi hl]
    by_cases hp : r = p
    case pos =>
      subst hp
      simp [hr]
    case neg => simp [hp, Ne.symm hp]

theorem notes_flow (qs : Queues Chan Bytes) (f : Nat → Note) (l : List Nat) :
    Flow qs (l.flatMap fun r => tag r [(.note (f r) : Process.Act Note)]) qs :=
  .flatMap fun r _ => .note qs r (f r)

-- One order in which all ranks can do a round.
theorem round_flow (hi : ∀ r, n ≤ r → proj r o.flow = []) (h : Flow q o.flow q') (i : Nat) :
    ∃ g, (∀ p, proj p g = round n i o p) ∧ Flow q g q' := by
  refine ⟨(List.range n).flatMap (fun r => tag r [.note (.enter i)]) ++
    (o.flow ++ (List.range n).flatMap fun r => tag r [.note (.leave i 0 (o.buf r))]), fun p => ?_,
    (notes_flow _ (fun _ => .enter i) _).append (h.append (notes_flow _ (fun r => .leave i 0 (o.buf r)) _))⟩
  rw [proj_append, proj_append, proj_each List.nodup_range, proj_each List.nodup_range, round]
  by_cases hp : p < n
  case pos => simp [hp]
  case neg => simp [hp, hi p (by omega)]

theorem round_section (hq : ∀ e, .note e ∈ proj r o.flow → ∃ buf, e = .stored buf) (i : Nat) (hr : r < n) :
    Section opening closing i (round n i o r) := by
  have hq : ∀ a ∈ proj r o.flow, opening a = none ∧ closing a = none := by
    intro a ha
    cases a
    case note e =>
      have ⟨buf, he⟩ := hq e ha
      subst he
      exact ⟨rfl, rfl⟩
    all_goals exact ⟨rfl, rfl⟩
  refine ⟨_, proj r o.flow, _, by rw [round, if_pos hr], rfl, rfl, ?_, ?_⟩
  · intro a ha
    rcases List.mem_append.mp ha with ha | ha
    · exact (hq a ha).left
    · rw [List.mem_singleton.mp ha]
      rfl
  · intro a ha
    rcases List.mem_cons.mp ha with rfl | ha
    · rfl
    · exact (hq a ha).right

theorem round_leave (hq : ∀ e, .note e ∈ proj r o.flow → ∃ buf, e = .stored buf) {ret : Int} {buf : Mem}
    (h : .note (.leave j ret buf) ∈ round n i o r) : j = i ∧ ret = 0 ∧ buf = o.buf r := by
  rw [round] at h
  split at h
  case isFalse => contradiction
  case isTrue =>
    simp only [List.mem_cons, List.mem_append, List.not_mem_nil, or_false] at h
    rcases h with h | h | h
    · simp at h
    · have ⟨_, hb⟩ := hq _ h
      simp at hb
    · simpa using h

-- A rank that has left the first round has done all of it.
theorem eq_round_of_leave {t : List (Process.Act Note)} (hq : ∀ e, .note e ∈ proj r o.flow → ∃ buf, e = .stored buf)
    (hr : r < n) (ht : t <+: round n 0 o r) {ret : Int} {buf : Mem} (hl : .note (.leave 0 ret buf) ∈ t) :
    t = round n 0 o r := by
  have hs : Sections opening closing [round n 0 o r] := by
    intro i l hi
    cases i with
    | zero   =>
      obtain rfl := Option.some.inj hi
      exact round_section hq 0 hr
    | succ i => simp at hi
  obtain ⟨_, hd⟩ := hs.closed (by simpa using ht) hl rfl
  simp only [List.take_succ_cons, List.take_zero, List.flatten_cons, List.flatten_nil, List.append_nil] at hd
  exact ht.eq_of_length_le hd.length_le

-- The notes at its beginning and at its end leave the channels alone.
theorem round_flatMap {f : Process.Act Note → List Bytes} (hf : ∀ e, f (.note e) = []) (i : Nat) (hr : r < n) :
    (round n i o r).flatMap f = (proj r o.flow).flatMap f := by
  rw [round, if_pos hr, List.flatMap_cons, List.flatMap_append, List.flatMap_singleton, hf, hf, List.nil_append,
    List.append_nil]

theorem exists_first {l : List α} {p : α → Prop} [DecidablePred p] (h : ¬∀ x ∈ l, p x) :
    ∃ l₁ x l₂, l = l₁ ++ x :: l₂ ∧ (∀ y ∈ l₁, p y) ∧ ¬p x := by
  induction l
  case nil => exact absurd (fun _ hx => absurd hx List.not_mem_nil) h
  case cons x l hi =>
    by_cases hx : p x
    case pos =>
      have ⟨l₁, y, l₂, he, hl, hy⟩ := hi fun hl => h (List.forall_mem_cons.mpr ⟨hx, hl⟩)
      exact ⟨x :: l₁, y, l₂, by rw [he, List.cons_append], List.forall_mem_cons.mpr ⟨hx, hl⟩, hy⟩
    case neg => exact ⟨[], x, l, rfl, by simp, hx⟩

-- The rounds of a list of calls, one after the other.
namespace Plan

def ranks (n : Nat) (garbage : Nat → Mem) (r : Nat) : ProcessInfo :=
  .init n r (garbage r)

theorem ranks_ranked (n : Nat) (garbage : Nat → Mem) : Ranked n (ranks n garbage) :=
  fun _ _ => ⟨rfl, rfl⟩

def script (n : Nat) (os : List Outcome) (r : Nat) : List (Process.Act Note) :=
  ((rounds n 0 os).map (· r)).flatten

theorem script_idle (h : n ≤ r) : script n os r = [] := by
  rw [script, List.flatten_eq_nil_iff]
  intro l hl
  have ⟨t, ht, he⟩ := List.mem_map.mp hl
  have ⟨j, o, _, ht⟩ := mem_rounds ht
  rw [← he, ht, round, if_neg (by omega)]

theorem script_performs {f : Forwarder} {garbage : Nat → Mem} (hp : ∀ r < n, Performs (lossless n f) r
      (performCalls (bufs r) 0 cs (ranks n garbage r)) (script n os r) (.ret ())) :
    Sim (lossless n f) (fun _ => .ret ()) (network n garbage bufs cs) (.start (script n os)) := by
  apply Sim.start
  intro r
  by_cases hr : r < n
  case pos =>
    rw [if_pos hr]
    exact hp r hr
  case neg =>
    rw [if_neg hr, script_idle (by omega)]
    exact .refl

theorem leave_mem_script (hr : r < n) (ho : os[i]? = some o) : .note (.leave i 0 (o.buf r)) ∈ script n os r := by
  have hi : (rounds n 0 os)[i]? = some (round n i o) := by
    rw [rounds_getElem?, ho, Option.map_some, Nat.zero_add]
  rw [script, List.mem_flatten]
  exact ⟨round n i o r, List.mem_map.mpr ⟨round n i o, List.mem_of_getElem? hi, rfl⟩, by simp [round, hr]⟩

theorem quiet_sections (hq : ∀ o ∈ os, ∀ e, .note e ∈ proj r o.flow → ∃ buf, e = .stored buf) (hr : r < n) :
    Sections opening closing ((rounds n 0 os).map (· r)) := by
  intro j l hl
  rw [List.getElem?_map, rounds_getElem?, Option.map_map] at hl
  obtain ⟨o, ho, he⟩ := Option.map_eq_some_iff.mp hl
  rw [← he, Function.comp_apply, Nat.zero_add]
  exact round_section (hq o (List.mem_of_getElem? ho)) j hr

-- A rank leaves a call with what its round says.
theorem quiet_leave (hq : ∀ o ∈ os, ∀ e, .note e ∈ proj r o.flow → ∃ buf, e = .stored buf) {ret : Int} {buf : Mem}
    (hm : .note (.leave i ret buf) ∈ script n os r) : ∃ o, os[i]? = some o ∧ ret = 0 ∧ buf = o.buf r := by
  obtain ⟨l, hl, hm⟩ := List.mem_flatten.mp hm
  obtain ⟨t, ht, he⟩ := List.mem_map.mp hl
  obtain ⟨j, o, ho, ht⟩ := mem_rounds ht
  rw [← he, ht, Nat.zero_add] at hm
  obtain ⟨hi, hret, hbuf⟩ := round_leave (hq o (List.mem_of_getElem? ho)) hm
  exact ⟨o, hi ▸ ho, hret, hbuf⟩

variable (hs : ∀ o ∈ os, o.Conducted n source)
include hs

theorem rounds_drains : ∀ t ∈ rounds n i os, Drains t := by
  intro t ht
  have ⟨j, o, ho, he⟩ := mem_rounds ht
  have hp := hs o (List.mem_of_getElem? ho)
  exact he ▸ round_flow hp.idle hp.drains (i + j)

theorem rounds_owned : ∀ t ∈ rounds n i os, ∀ p, ∀ a ∈ t p, a.OwnedBy (wiring source) p := by
  intro t ht p a ha
  have ⟨j, o, ho, he⟩ := mem_rounds ht
  rw [he, round] at ha
  split at ha
  · simp only [List.mem_cons, List.mem_append, List.not_mem_nil, or_false] at ha
    rcases ha with rfl | ha | rfl
    · trivial
    · exact (hs o (List.mem_of_getElem? ho)).owned p a ha
    · trivial
  · contradiction

theorem rounds_sections (hr : r < n) : Sections opening closing ((rounds n 0 os).map (· r)) :=
  quiet_sections (fun o ho => (hs o ho).quiet r) hr

theorem script_owned : (State.start (script n os)).Owned (wiring source) := by
  intro p a ha
  have ⟨l, hl, ha⟩ := List.mem_flatten.mp ha
  have ⟨t, ht, he⟩ := List.mem_map.mp hl
  exact rounds_owned hs t ht p a (he ▸ ha)

theorem script_completes : (State.start (script n os)).Completes := by
  have hd := drains_upto (rounds_drains hs (i := 0)) (rounds n 0 os).length
  have he : upto (rounds n 0 os) (rounds n 0 os).length = script n os :=
    funext fun p => upto_length (rounds n 0 os) p
  exact he ▸ hd.completes

theorem script_leave {ret : Int} {buf : Mem} (hm : .note (.leave i ret buf) ∈ script n os r) :
    ∃ o, os[i]? = some o ∧ ret = 0 ∧ buf = o.buf r :=
  quiet_leave (fun o ho => (hs o ho).quiet r) hm

-- A run of the rounds, and then of a part of what follows them.
theorem script_extend {f : Forwarder} {garbage : Nat → Mem} {x y : Nat → Program Unit}
    {t : Nat → List (Process.Act Note)}
    (hx : ∀ r < n, Performs (lossless n f) r (performCalls (bufs r) 0 cs (ranks n garbage r)) (script n os r) (x r))
    (ht : ∀ r < n, Performs (lossless n f) r (x r) (t r) (y r))
    (hi : ∀ r, n ≤ r → t r = []) {g : List (Nat × Process.Act Note)} {q : Queues Chan Bytes}
    (hg : ∀ r, proj r g = t r) (hf : Flow (fun _ => []) g q) :
    ∃ s, Net.ReachesInOrder (lossless n f) (network n garbage bufs cs) s ∧ (∀ r < n, s.prog r = y r) ∧
      (∀ p r, s.tcp p r = (q (.tcp p r)).flatten) ∧
      ∀ r, List.Forall₂ (Matches (lossless n f) r) (s.events r) (script n os r ++ t r) := by
  have hsim : Sim (lossless n f) (fun r => if r < n then y r else .ret ()) (network n garbage bufs cs)
      (.start fun r => script n os r ++ t r) := by
    apply Sim.start
    intro r
    by_cases hr : r < n
    case pos =>
      rw [if_pos hr, if_pos hr]
      exact (hx r hr).trans (ht r hr)
    case neg =>
      rw [if_neg hr, if_neg hr, script_idle (by omega), hi r (by omega)]
      exact .refl
  obtain ⟨g₀, hp₀, f₀⟩ := drains_upto (rounds_drains hs (i := 0)) (rounds n 0 os).length
  have hp₀ r : proj r g₀ = script n os r := (hp₀ r).trans (upto_length (rounds n 0 os) r)
  have hr := (f₀.append hf).reaches (fun _ => []) fun _ => []
  simp only [proj_append, hp₀, hg, List.append_nil, List.nil_append] at hr
  obtain ⟨s, rs, hs⟩ := hsim.lift_reaches_in_order hr
  refine ⟨s, rs, fun r hr => ?_, hs.tcp, hs.events⟩
  have := (hs.prog r).eq_of_nil
  rwa [if_pos hr] at this

section Left

variable {es : List (Event Note)} {t : List (Process.Act Note)} (ht : t <+: script n os r)
  (he : List.Forall₂ (Matches μ r) es t) (hr : r < n) (hl : Left i es)
include ht he hr hl

theorem upto_of_left : i < os.length ∧ upto (rounds n 0 os) (i + 1) r <+: t := by
  have ⟨_, _, hl⟩ := hl
  have ⟨hi, hu⟩ := (rounds_sections hs hr).closed ht ((note_mem_iff he).mp hl) rfl
  rw [List.length_map, rounds_length] at hi
  rw [← List.map_take] at hu
  exact ⟨hi, hu⟩

theorem during_of_left : ∃ o, os[i]? = some o ∧ during opening i t = (round n i o r).tail := by
  have ⟨hi, hu⟩ := upto_of_left hs ht he hr hl
  refine ⟨os[i], List.getElem?_eq_getElem hi, ?_⟩
  apply (rounds_sections hs hr).during_eq ht (by rw [← List.map_take]; exact hu)
  rw [List.getElem?_map, rounds_getElem?, List.getElem?_eq_getElem hi, Option.map_some, Option.map_some, Nat.zero_add]

end Left

end Plan

end Mpi

import XdpCollectives.Process.Performs
import XdpCollectives.Script.Flow
import Mathlib.Data.List.Forall2

namespace Process

variable {E : Type} {μ : Medium} {w : Script.Wiring Chan} {s s' : Net E} {a a' : Plan E} {p : Nat}
  {stop : Nat → Prog E Unit}

-- What an observer sees of an action.
inductive Matches (μ : Medium) (p : Nat) : Event E → Act E → Prop
  | note    : Matches μ p (.note e) (.note e)
  | sendto  : Matches μ p (.sendto dest d) (.put (μ.outs p dest d))
  | took    : Matches μ p (.took (μ.copy p d)) (.get (.udp p) d)
  | timeout : Matches μ p .timeout .timeout
  | send    : Matches μ p (.send dest m) (.put [(.tcp p dest, m)])
  | recv    : Matches μ p (.recv src m) (.get (.tcp src p) m)

-- A network that is where its plan says, and whose processes have `stop` before them at its end: the
-- messages of the queues make up the byte streams.
structure Sim (μ : Medium) (stop : Nat → Prog E Unit) (s : Net E) (a : Plan E) : Prop where
  prog   : ∀ p, Performs μ p (s.prog p) (a.todo p) (stop p)
  tcp    : ∀ p q, s.tcp p q = (a.queue (.tcp p q)).flatten
  udp    : ∀ p, s.udp p = (a.queue (.udp p)).map (μ.copy p)
  events : ∀ p, List.Forall₂ (Matches μ p) (s.events p) (a.done p)

-- The messages of the queues make up the byte streams.
def Carried (s : Net E) (a : Plan E) : Prop :=
  ∀ p q, s.tcp p q = (a.queue (.tcp p q)).flatten

-- No process has a choice between two datagrams, or between one and a time-out.
def Orderly (μ : Medium) (a : Plan E) : Prop :=
  ∀ p, (a.queue (.udp p)).length ≤ if μ.mayTimeout p then 0 else 1

-- A step that leaves no choice between two datagrams, or between one and a time-out.
def Settled (a : Plan E) : Net.Label → Prop
  | .take p j => j = 0 ∧ ∀ t, a.todo p ≠ .timeout :: t
  | _         => True

theorem Net.events_advance (s : Net E) (p : Nat) (k : Prog E Unit) (e : Event E) (q : Nat) :
    (s.advance p k e).events q = s.events q ++ if q = p then [e] else [] := by
  simp only [Net.events, Net.advance, List.filterMap_append, List.filterMap_cons, List.filterMap_nil]
  congr 1
  split <;> split <;> simp_all

namespace Sim

theorem start {prog : Nat → Prog E Unit} {script : Nat → List (Act E)}
    (h : ∀ p, Performs μ p (prog p) (script p) (stop p)) : Sim μ stop (.start prog) (.start script) where
  prog   := h
  tcp    := by simp [Net.start, Script.State.start]
  udp    := by simp [Net.start, Script.State.start]
  events := by simp [Net.start, Script.State.start, Net.events]

theorem after (h : Sim μ stop s a) {k : Prog E Unit} (hk : Performs μ p k t (stop p)) (he : Matches μ p e act)
    {tcp : Nat → Nat → Bytes} (ht : ∀ q r, tcp q r = (act.effect a.queue (.tcp q r)).flatten)
    {udp : Nat → List Bytes} (hu : ∀ q, udp q = (act.effect a.queue (.udp q)).map (μ.copy q)) :
    Sim μ stop { s.advance p k e with tcp, udp } (a.after p act t) where
  prog   := by
    intro q
    by_cases hq : q = p
    case pos =>
      subst hq
      simpa [Net.advance, Script.State.after] using hk
    case neg => simpa [Net.advance, Script.State.after, Function.update_of_ne hq] using h.prog q
  tcp    := ht
  udp    := hu
  events := by
    intro q
    have hs : Net.events { s.advance p k e with tcp, udp } q = s.events q ++ if q = p then [e] else [] :=
      Net.events_advance s p k e q
    rw [hs]
    by_cases hq : q = p
    case pos =>
      subst hq
      simpa [Script.State.after] using List.rel_append (h.events q) (.cons he .nil)
    case neg => simpa [Script.State.after, Function.update_of_ne hq, hq] using h.events q

-- An action that leaves the channels as they are.
theorem after_quiet (h : Sim μ stop s a) {k : Prog E Unit} (hk : Performs μ p k t (stop p)) (he : Matches μ p e act)
    (hq : act.effect a.queue = a.queue) : Sim μ stop (s.advance p k e) (a.after p act t) :=
  h.after hk he (by simpa [hq] using h.tcp) (by simpa [hq] using h.udp)

theorem outsOn_tcp (p dest : Nat) (d : Bytes) (q r : Nat) :
    Script.outsOn (.tcp q r) (μ.outs p dest d) = [] :=
  Script.outsOn_eq_nil (by simp [Medium.outs])

theorem outsOn_udp (p dest : Nat) (d : Bytes) (q : Nat) :
    Script.outsOn (.udp q) (μ.outs p dest d) = ((μ.reach p dest d).filter (· = q)).map fun _ => d := by
  simp only [Medium.outs, Script.outsOn]
  induction μ.reach p dest d with
  | nil => rfl
  | cons r l hi =>
    simp only [List.map_cons, List.filterMap_cons, List.filter_cons, Chan.udp.injEq, hi]
    split <;> simp_all

end Sim

section Effects

variable (hc : Carried s a)
include hc

theorem Carried.send (p dest : Nat) (m : Bytes) (q r : Nat) :
    Function.update s.tcp p (Function.update (s.tcp p) dest (s.tcp p dest ++ m)) q r =
      ((.put [(.tcp p dest, m)] : Act E).effect a.queue (.tcp q r)).flatten := by
  simp only [Script.Act.effect, List.flatten_append, ← hc q r]
  by_cases hq : q = p
  case pos =>
    subst hq
    by_cases hr : r = dest
    case pos => subst hr; simp [Script.outsOn]
    case neg => simp [Script.outsOn, hr, Ne.symm hr]
  case neg => simp [Script.outsOn, hq, Ne.symm hq]

theorem Carried.recv {src : Nat} {m : Bytes} {rest : List Bytes} (h : a.queue (.tcp src p) = m :: rest) (q r : Nat) :
    Function.update s.tcp src (Function.update (s.tcp src) p ((s.tcp src p).drop m.length)) q r =
      ((.get (.tcp src p) m : Act E).effect a.queue (.tcp q r)).flatten := by
  simp only [Script.Act.effect]
  by_cases hqr : q = src ∧ r = p
  case pos =>
    obtain ⟨rfl, rfl⟩ := hqr
    simp [hc q r, h]
  case neg =>
    have hne : Chan.tcp q r ≠ .tcp src p := by simpa using hqr
    rw [Function.update_of_ne hne, ← hc q r]
    by_cases hs : q = src
    case pos =>
      subst hs
      simp [show r ≠ p from fun hr => hqr ⟨rfl, hr⟩]
    case neg => simp [hs]

end Effects

theorem outs_copies (μ : Medium) (p dest : Nat) (d : Bytes) (q : Nat) :
    ((μ.reach p dest d).filter (· = q)).map (fun r => μ.copy r d) =
      ((.put (μ.outs p dest d) : Act E).puts (.udp q)).map (μ.copy q) := by
  have hm : ((μ.reach p dest d).filter (· = q)).map (fun r => μ.copy r d) =
      ((μ.reach p dest d).filter (· = q)).map fun _ => μ.copy q d := by
    apply List.map_congr_left
    intro r hr
    simp_all
  rw [hm, Script.Act.puts, Sim.outsOn_udp, List.map_map]
  rfl

-- A step of a process that takes no datagram is the next action of its plan.
theorem Net.run_acts (hc : Carried s a) (o : a.Owned w) (hcon : a.Conserves w) (ha : a.Agrees w)
    (hp : Performs μ p (s.prog p) (a.todo p) y) (he : y.Ended) (hs : step μ s (.run p) = some s') :
    ∃ act t k e tcp udp, a.todo p = act :: t ∧ act.Enabled a.queue ∧ (∀ q, act.gets (.udp q) = []) ∧
      Performs μ p k t y ∧ Matches μ p e act ∧ s' = { s.advance p k e with tcp, udp } ∧
      (∀ q r, tcp q r = (act.effect a.queue (.tcp q r)).flatten) ∧
      ∀ q, udp q = s.udp q ++ (act.puts (.udp q)).map (μ.copy q) := by
  simp only [step] at hs
  generalize hx : s.prog p = x at hp hs
  generalize ht : a.todo p = t at hp
  cases hp
  case refl => cases y <;> contradiction
  case note t e k hk =>
    cases hs
    exact ⟨.note e, t, k, .note e, s.tcp, s.udp, rfl, trivial, fun _ => rfl, hk, .note, rfl, hc,
      fun q => (List.append_nil _).symm⟩
  case sendto t dest d k hk =>
    cases hs
    refine ⟨.put (μ.outs p dest d), t, k, .sendto dest d, s.tcp, _, rfl, trivial, fun _ => rfl, hk, .sendto, rfl,
      fun q r => ?_, fun q => congrArg (s.udp q ++ ·) (outs_copies μ p dest d q)⟩
    simpa [Script.Act.effect, Sim.outsOn_tcp] using hc q r
  case send t dest m k hk =>
    cases hs
    refine ⟨.put [(.tcp p dest, m)], t, k, .send dest m, _, s.udp, rfl, trivial, fun _ => rfl, hk, .send, rfl,
      hc.send p dest m, fun q => ?_⟩
    simp [Script.Act.puts, Script.outsOn]
  case recv src l m len pos k hk =>
    by_cases hne : s.tcp src p = []
    case pos => simp [hne] at hs
    case neg =>
      simp only [hne, if_false, Option.some.injEq] at hs
      subst hs
      have hf := hc src p
      cases hq : a.queue (.tcp src p) with
      | nil => simp [hf, hq] at hne
      | cons x r =>
        obtain rfl := ha.head o hcon ht hq
        have hm : (s.tcp src p).take l = x := by simp [hf, hq, ← len]
        rw [hm, ← len]
        exact ⟨.get (.tcp src p) x, _, k x, .recv src x, _, s.udp, rfl, by simp [Script.Act.Enabled, hq],
          fun q => by simp [Script.Act.gets], hk, .recv, rfl, hc.recv hq, fun q => (List.append_nil _).symm⟩
  case take    => contradiction
  case timeout => contradiction

namespace Sim

theorem after_sendto (h : Sim μ stop s a) {k : Prog E Unit} (hk : Performs μ p k t (stop p)) :
    Sim μ stop { s.advance p k (.sendto dest d) with
        udp := fun q => s.udp q ++ ((μ.reach p dest d).filter (· = q)).map fun q => μ.copy q d }
      (a.after p (.put (μ.outs p dest d)) t) := by
  refine h.after hk .sendto (fun q r => ?_) fun q => ?_
  · simpa [Script.Act.effect, outsOn_tcp] using h.tcp q r
  · rw [outs_copies (E := E), h.udp, ← List.map_append]
    rfl

theorem after_send (h : Sim μ stop s a) {k : Prog E Unit} (hk : Performs μ p k t (stop p)) :
    Sim μ stop { s.advance p k (.send dest m) with
        tcp := Function.update s.tcp p (Function.update (s.tcp p) dest (s.tcp p dest ++ m)) }
      (a.after p (.put [(.tcp p dest, m)]) t) := by
  refine h.after hk .send (Carried.send h.tcp p dest m) fun q => ?_
  simpa [Script.Act.effect, Script.outsOn, Net.advance] using h.udp q

theorem after_recv (h : Sim μ stop s a) {k : Prog E Unit} (hq : a.queue (.tcp src p) = m :: r)
    (hk : Performs μ p k t (stop p)) :
    Sim μ stop { s.advance p k (.recv src m) with
        tcp := Function.update s.tcp src
          (Function.update (s.tcp src) p ((s.tcp src p).drop m.length)) }
      (a.after p (.get (.tcp src p) m) t) := by
  refine h.after hk .recv (Carried.recv h.tcp hq) fun q => ?_
  simpa [Script.Act.effect, Net.advance] using h.udp q

theorem after_take (h : Sim μ stop s a) {k : Prog E Unit} (hq : a.queue (.udp p) = d :: r)
    (hk : Performs μ p k t (stop p)) :
    Sim μ stop { s.advance p k (.took (μ.copy p d)) with
        udp := Function.update s.udp p ((s.udp p).eraseIdx 0) }
      (a.after p (.get (.udp p) d) t) := by
  refine h.after hk .took (fun q r => ?_) fun q => ?_
  · simpa [Script.Act.effect, Net.advance] using h.tcp q r
  · simp only [Script.Act.effect]
    by_cases hp : q = p
    case pos =>
      subst hp
      simp [h.udp, hq]
    case neg => simpa [hp] using h.udp q

-- Whatever the network does without a choice is a step of its plan.
theorem settled_step (h : Sim μ stop s a) (he : ∀ p, (stop p).Ended) (o : a.Owned w) (hc : a.Conserves w)
    (ha : a.Agrees w) (hf : Settled a l) (hd : μ.mayDrop = false) (hs : Net.step μ s l = some s') :
    ∃ a', a.Steps a' ∧ Sim μ stop s' a' := by
  cases l
  case run p =>
    have ⟨act, t, k, e, tcp, udp, ht, en, hg, hk, hm, hs, htcp, hudp⟩ :=
      Net.run_acts h.tcp o hc ha (h.prog p) (he p) hs
    refine ⟨_, ⟨p, .act ht en⟩, hs ▸ h.after hk hm htcp fun q => ?_⟩
    rw [hudp, h.udp, ← List.map_append, Script.Act.effect_puts act (hg q)]
  case take p j =>
    have hp := h.prog p
    have hend := he p
    have ⟨hj, hn⟩ := hf
    have hu := h.udp p
    subst hj
    cases Net.moves_iff.mp hs with | take hx hg =>
    generalize s.prog p = x at hp hx
    generalize ht : a.todo p = t at hp
    cases hp
    case refl =>
      rw [hx] at hend
      contradiction
    case take len next l d patient k hk =>
      cases hx
      cases hq : a.queue (.udp p) with
      | nil => simp [hu, hq] at hg
      | cons x r =>
        obtain rfl := ha.head o hc ht hq
        have hc : (s.udp p)[0]? = some (μ.copy p x) := by simp [hu, hq]
        cases hc.symm.trans hg
        exact ⟨_, ⟨p, .act ht (by simp [Script.Act.Enabled, hq])⟩, h.after_take hq hk⟩
    case timeout => exact absurd ht (hn _)
    all_goals contradiction
  case timeout p =>
    have hp := h.prog p
    have hend := he p
    cases Net.moves_iff.mp hs with | timeout hx hm =>
    generalize s.prog p = x at hp hx
    generalize ht : a.todo p = t at hp
    cases hp
    case refl =>
      rw [hx] at hend
      contradiction
    case take patient _ _ => simp [patient] at hm
    case timeout len next l impatient k hk =>
      cases hx
      exact ⟨_, ⟨p, .act ht trivial⟩, h.after_quiet hk .timeout rfl⟩
    all_goals contradiction
  case drop p j => cases Net.moves_iff.mp hs with | drop hm => simp [hd] at hm

-- Where a process waits for a datagram, its plan has no time-out.
theorem patient (h : Sim μ stop s a) (hp : μ.mayTimeout p = false) (t : List (Act E)) : a.todo p ≠ .timeout :: t := by
  intro ht
  have hx := h.prog p
  rw [ht] at hx
  generalize s.prog p = x at hx
  cases hx with | timeout impatient => simp [hp] at impatient

theorem settled (h : Sim μ stop s a) (ho : Orderly μ a) (hs : Net.step μ s l = some s') : Settled a l := by
  cases l
  case take p j =>
    have hop := ho p
    have hlen : (s.udp p).length = (a.queue (.udp p)).length := by rw [h.udp, List.length_map]
    cases Net.moves_iff.mp hs with | take _ hg =>
    have hj : j < (s.udp p).length := (List.getElem?_eq_some_iff.mp hg).choose
    split at hop
    case isTrue  => omega
    case isFalse hp => exact ⟨by omega, h.patient (Bool.eq_false_iff.mpr hp)⟩
  all_goals trivial

theorem step (h : Sim μ stop s a) (he : ∀ p, (stop p).Ended) (o : a.Owned w) (hc : a.Conserves w) (ha : a.Agrees w)
    (ho : Orderly μ a) (hd : μ.mayDrop = false) (hs : Net.step μ s l = some s') :
    ∃ a', a.Steps a' ∧ Sim μ stop s' a' :=
  h.settled_step he o hc ha (h.settled ho hs) hd hs

-- Whatever the plan does, the network can do with the first datagram of a process.
theorem lift_in_order (h : Sim μ stop s a) (hs : a.Steps a') : ∃ s', Net.StepsInOrder μ s s' ∧ Sim μ stop s' a' := by
  obtain ⟨p, hs⟩ := hs
  cases hs with | @act act t ht en =>
  have hp := h.prog p
  generalize hx : s.prog p = x at hp
  rw [ht] at hp
  cases hp
  case note k e hk =>
    exact ⟨_, ⟨.run p, trivial, by simp [Net.step, hx]⟩, h.after_quiet hk .note rfl⟩
  case sendto k dest d hk =>
    exact ⟨_, ⟨.run p, trivial, by simp [Net.step, hx]⟩, h.after_sendto hk⟩
  case send k dest m hk =>
    exact ⟨_, ⟨.run p, trivial, by simp [Net.step, hx]⟩, h.after_send hk⟩
  case recv src l m len pos k hk =>
    obtain ⟨r, hq⟩ : ∃ r, a.queue (.tcp src p) = m :: r := List.head?_eq_some_iff.mp en
    have hm : (s.tcp src p).take l = m := by simp [h.tcp, hq, ← len]
    have hne : s.tcp src p ≠ [] := by
      intro he
      rw [he, List.take_nil] at hm
      simp [← hm] at len
      omega
    refine ⟨_, ⟨.run p, trivial, ?_⟩, h.after_recv hq hk⟩
    simp [Net.step, hx, hne, hm, len]
  case take len next l d patient k hk =>
    obtain ⟨r, hq⟩ : ∃ r, a.queue (.udp p) = d :: r := List.head?_eq_some_iff.mp en
    have hg : (s.udp p)[0]? = some (μ.copy p d) := by simp [h.udp, hq]
    refine ⟨_, ⟨.take p 0, rfl, ?_⟩, h.after_take hq hk⟩
    simp [Net.step, hx, hg]
  case timeout len next l impatient k hk =>
    exact ⟨_, ⟨.timeout p, trivial, by simp [Net.step, hx, impatient]⟩, h.after_quiet hk .timeout rfl⟩

theorem lift (h : Sim μ stop s a) (hs : a.Steps a') : ∃ s', Net.Steps μ s s' ∧ Sim μ stop s' a' := by
  have ⟨s', st, h'⟩ := h.lift_in_order hs
  exact ⟨s', st.steps, h'⟩

theorem lift_reaches_in_order (h : Sim μ stop s a) (hr : a.Reaches a') :
    ∃ s', Net.ReachesInOrder μ s s' ∧ Sim μ stop s' a' := by
  induction hr
  case refl => exact ⟨s, .refl, h⟩
  case tail _ st hi =>
    have ⟨s₁, r₁, h₁⟩ := hi
    have ⟨s₂, st₂, h₂⟩ := h₁.lift_in_order st
    exact ⟨s₂, r₁.tail st₂, h₂⟩

theorem lift_reaches (h : Sim μ stop s a) (hr : a.Reaches a') : ∃ s', Net.Reaches μ s s' ∧ Sim μ stop s' a' := by
  have ⟨s', r, h'⟩ := h.lift_reaches_in_order hr
  exact ⟨s', Net.ReachesInOrder.reaches r, h'⟩

theorem reaches (h : Sim μ stop s a) (he : ∀ p, (stop p).Ended) (o : a.Owned w) (hc : a.Conserves w)
    (ha : a.Agrees w) (ho : ∀ a', a.Reaches a' → Orderly μ a') (hd : μ.mayDrop = false) (hr : Net.Reaches μ s s') :
    ∃ a', a.Reaches a' ∧ Sim μ stop s' a' := by
  induction hr
  case refl => exact ⟨a, .refl, h⟩
  case tail _ st hi =>
    have ⟨a₁, r₁, h₁⟩ := hi
    have ⟨_, st⟩ := st
    have ⟨a₂, st₂, h₂⟩ := h₁.step he (o.reaches r₁) (hc.reaches o r₁) (ha.reaches r₁) (ho a₁ r₁) hd st
    exact ⟨a₂, r₁.tail st₂, h₂⟩

-- With the datagrams in the order in which they were sent, no choice is left to a process that cannot time out.
theorem reaches_in_order (h : Sim μ stop s a) (he : ∀ p, (stop p).Ended) (o : a.Owned w) (hc : a.Conserves w)
    (ha : a.Agrees w) (hp : ∀ p, μ.mayTimeout p = false) (hd : μ.mayDrop = false) (hr : Net.ReachesInOrder μ s s') :
    ∃ a', a.Reaches a' ∧ Sim μ stop s' a' := by
  induction hr
  case refl => exact ⟨a, .refl, h⟩
  case tail _ st hi =>
    have ⟨a₁, r₁, h₁⟩ := hi
    have ⟨l, hl, st⟩ := st
    have hf : Settled a₁ l := by
      cases l
      case take p j => exact ⟨hl, h₁.patient (hp p)⟩
      all_goals trivial
    have ⟨a₂, st₂, h₂⟩ := h₁.settled_step he (o.reaches r₁) (hc.reaches o r₁) (ha.reaches r₁) hf hd st
    exact ⟨a₂, r₁.tail st₂, h₂⟩

theorem ended_iff (h : Sim μ stop s a) (he : ∀ p, (stop p).Ended) (p : Nat) :
    (s.prog p).Ended ↔ a.todo p = [] := by
  have hp := h.prog p
  have hend := he p
  generalize s.prog p = x at hp
  generalize a.todo p = t at hp
  cases hp
  case refl => simpa using hend
  all_goals simp [Prog.Ended]

theorem not_stuck (h : Sim μ stop s a) (he : ∀ p, (stop p).Ended) (c : a.Completes) (n : Nat) :
    ¬Net.Stuck μ n s := by
  intro ⟨⟨p, _, hp⟩, hs⟩
  cases c.not_stuck
  case inl f => exact hp <| (h.ended_iff he p).mpr (f p)
  case inr st =>
    have ⟨_, st⟩ := st
    have ⟨s', st', _⟩ := h.lift st
    exact hs s' st'

-- When nobody ever puts anything into a channel that somebody waits for, the network gets stuck.
theorem starves (h : Sim μ stop s a) (he : ∀ p, (stop p).Ended) (o : a.Owned w) (hc : a.Conserves w)
    (ha : a.Agrees w) (ho : ∀ a', a.Reaches a' → Orderly μ a') (hd : μ.mayDrop = false)
    (hi : ∀ p, n ≤ p → a.script p = []) (c : Chan)
    (hg : (a.script (w.reader c)).flatMap (Script.Act.gets c) ≠ [])
    (hp : (a.script (w.writer c)).flatMap (Script.Act.puts c) = []) :
    ∃ s', Net.Reaches μ s s' ∧ Net.Stuck μ n s' := by
  obtain ⟨a', r, hq⟩ := a.exists_quiescent fun p hp => (List.append_eq_nil_iff.mp (hi p hp)).right
  obtain ⟨s', rs, h'⟩ := h.lift_reaches r
  have ht : a'.todo (w.reader c) ≠ [] := by
    intro ht
    have hs := congrFun r.script_eq (w.reader c)
    have hw := congrFun r.script_eq (w.writer c)
    rw [Script.State.script, ht, List.append_nil] at hs
    rw [← hs] at hg
    rw [← hw, Script.State.script, List.flatMap_append, hc.reaches o r c] at hp
    simp_all
  have hlt : w.reader c < n := by
    by_contra hge
    have hs := congrFun r.script_eq (w.reader c)
    rw [hi _ (by omega)] at hs
    exact ht (List.append_eq_nil_iff.mp hs).right
  refine ⟨s', rs, ⟨_, hlt, fun hend => ht <| (h'.ended_iff he _).mp hend⟩, ?_⟩
  rintro s'' ⟨_, hs⟩
  obtain ⟨a'', st, _⟩ := h'.step he (o.reaches r) (hc.reaches o r) (ha.reaches r) (ho a' r) hd hs
  exact hq a'' st

end Sim
end Process

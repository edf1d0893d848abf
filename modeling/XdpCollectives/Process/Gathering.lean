import XdpCollectives.Process.Simulation

-- Networks of processes that receive the datagrams of a message in any order.
namespace Process

variable {E : Type} {μ : Medium} {w : Script.Wiring Chan} {s s' : Net E} {a a' : Plan E} {p q : Nat}
  {stop : Nat → Prog E Unit} {ds D U : List Bytes} {t : List (Act E)} {act : Act E}

-- The program receives these datagrams in any order, and then does the actions `t`.
def Gathers (μ : Medium) (p : Nat) (x : Prog E α) (ds : List Bytes) (t : List (Act E)) (y : Prog E α) : Prop :=
  ∀ ds' : List Bytes, ds'.Perm ds → Performs μ p x (ds'.map (.get (.udp p)) ++ t) y

theorem Gathers.of_performs {x y : Prog E α} (h : Performs μ p x t y) : Gathers μ p x [] t y := by
  intro ds' hd
  rw [hd.eq_nil]
  exact h

theorem Gathers.seq {x : Prog E α} {f : α → Prog E β} {z : Prog E β} (hx : Gathers μ p x ds t (.ret v))
    (hf : Performs μ p (f v) t' z) : Gathers μ p (x >>= f) ds (t ++ t') z := by
  intro ds' hd
  rw [← List.append_assoc]
  exact (hx ds' hd).seq hf

-- The datagrams for a process that have not been sent yet.
def coming (w : Script.Wiring Chan) (a : Plan E) (p : Nat) : List Bytes :=
  (a.todo (w.writer (.udp p))).flatMap (Script.Act.puts (.udp p))

-- Where the plan still gets `D`, the process has the datagrams `U` before it, and those that are not sent yet.
structure Awaits (μ : Medium) (w : Script.Wiring Chan) (stop : Nat → Prog E Unit) (s : Net E) (a : Plan E) (p : Nat)
    (D U : List Bytes) (t : List (Act E)) : Prop where
  todo   : a.todo p = D.map (.get (.udp p)) ++ t
  last   : ∀ d, .get (.udp p) d ∉ t
  udp    : s.udp p = U.map (μ.copy p)
  length : U.length = (a.queue (.udp p)).length
  prog   : Gathers μ p (s.prog p) (U ++ coming w a p) t (stop p)

-- A network that is where its plan says but for the order of datagrams.
structure Loose (μ : Medium) (w : Script.Wiring Chan) (stop : Nat → Prog E Unit) (s : Net E) (a : Plan E) : Prop where
  tcp    : Carried s a
  awaits : ∀ p, ∃ D U t, Awaits μ w stop s a p D U t

-- Every datagram that is sent to a process is received by it.
def Settles (w : Script.Wiring Chan) (a : Plan E) : Prop :=
  ∀ p, w.reader (.udp p) = p ∧
    (a.script (w.writer (.udp p))).flatMap (Script.Act.puts (.udp p)) =
      (a.script p).flatMap (Script.Act.gets (.udp p))

theorem Settles.reaches (h : Settles w a) (r : a.Reaches a') : Settles w a' := by
  intro p
  rw [r.script_eq]
  exact h p

-- There are never more datagrams on their way to a process than it receives.
theorem Settles.queue_length_le (h : Settles w a) (hc : a.Conserves w) (p : Nat) :
    (a.queue (.udp p)).length ≤ ((a.script p).flatMap (Script.Act.gets (.udp p))).length := by
  rw [← (h p).right, Script.State.script, List.flatMap_append, hc, List.length_append, List.length_append]
  omega

theorem gets_datagrams (p : Nat) (ds : List Bytes) :
    (ds.map fun d => (.get (.udp p) d : Act E)).flatMap (Script.Act.gets (.udp p)) = ds := by
  simp [List.flatMap_map, Script.Act.gets]

theorem gets_eq_nil (h : ∀ d, .get (.udp p) d ∉ t) : t.flatMap (Script.Act.gets (.udp p)) = [] := by
  rw [List.flatMap_eq_nil_iff]
  intro act hact
  cases act with
  | get c d =>
    have hc : c ≠ .udp p := fun hc => h d (hc ▸ hact)
    simp [Script.Act.gets, hc]
  | _ => rfl

-- What a step of the plan takes from what is still to be sent.
theorem coming_after (o : a.Owned w) (h : a.todo q = act :: t) (p : Nat) :
    coming w a p = act.puts (.udp p) ++ coming w (a.after q act t) p := by
  have ho := o q act (h ▸ List.mem_cons_self)
  by_cases hw : w.writer (.udp p) = q
  case pos => simp [coming, hw, h, Script.State.after]
  case neg => simp [coming, Script.Act.puts_eq_nil ho hw, Script.State.after, Function.update_of_ne hw]

namespace Awaits

-- The datagrams that the plan still gets are in the queue, or have not been sent.
theorem pending (h : Awaits μ w stop s a p D U t) (hall : Settles w a) (hc : a.Conserves w) :
    D = a.queue (.udp p) ++ coming w a p := by
  have ⟨hr, hs⟩ := hall p
  have hc := hc (.udp p)
  rw [hr] at hc
  rw [Script.State.script, Script.State.script, List.flatMap_append, List.flatMap_append, hc, h.todo,
    List.flatMap_append, gets_datagrams, gets_eq_nil h.last, List.append_nil, List.append_assoc,
    List.append_cancel_left_eq] at hs
  exact hs.symm

-- A process that takes no datagram has nothing more to receive.
theorem received (h : Awaits μ w stop s a p D U t) (hall : Settles w a) (hc : a.Conserves w)
    (hx : ∀ d u, ¬Performs μ p (s.prog p) (.get (.udp p) d :: u) (stop p)) :
    D = [] ∧ U = [] ∧ coming w a p = [] := by
  have hn : U ++ coming w a p = [] := by
    by_contra hne
    have ⟨d, u, he⟩ := List.exists_cons_of_ne_nil hne
    have := h.prog _ (.refl _)
    rw [he] at this
    exact hx _ _ this
  have ⟨hu, hcom⟩ := List.append_eq_nil_iff.mp hn
  have hq : a.queue (.udp p) = [] := List.eq_nil_of_length_eq_zero (by rw [← h.length, hu, List.length_nil])
  exact ⟨by rw [h.pending hall hc, hq, hcom, List.append_nil], hu, hcom⟩

-- Another process does an action.
theorem other (h : Awaits μ w stop s a p D U t) (o : a.Owned w) (hq : a.todo q = act :: u) (hne : p ≠ q)
    (hp : s'.prog p = s.prog p) (hg : act.gets (.udp p) = [])
    (hu : s'.udp p = s.udp p ++ (act.puts (.udp p)).map (μ.copy p)) :
    Awaits μ w stop s' (a.after q act u) p D (U ++ act.puts (.udp p)) t where
  todo   := (Function.update_of_ne hne _ _).trans h.todo
  last   := h.last
  udp    := by rw [hu, h.udp, List.map_append]
  length := by
    rw [List.length_append, h.length, ← List.length_append]
    exact congrArg List.length (Script.Act.effect_puts act hg).symm
  prog   := by
    rw [hp, List.append_assoc, ← coming_after o hq]
    exact h.prog

-- The process takes one of its datagrams, and the plan the first of its queue.
theorem take (h : Awaits μ w stop s a p D U t) (o : a.Owned w) {j : Nat} {x : Bytes} (hj : U[j]? = some x)
    {d : Bytes} {r : List Bytes} (hq : a.queue (.udp p) = d :: r) {D' : List Bytes} (hD : D = d :: D')
    {k : Prog E Unit}
    (hk : ∀ u, Performs μ p (s.prog p) (.get (.udp p) x :: u) (stop p) → Performs μ p k u (stop p))
    (hp : s'.prog p = k) (hu : s'.udp p = (s.udp p).eraseIdx j) :
    Awaits μ w stop s' (a.after p (.get (.udp p) d) (D'.map (.get (.udp p)) ++ t)) p D' (U.eraseIdx j) t where
  todo   := Function.update_self ..
  last   := h.last
  udp    := by rw [hu, h.udp, List.eraseIdx_map]
  length := by
    have ⟨hlt, _⟩ := List.getElem?_eq_some_iff.mp hj
    have hl := h.length
    rw [hq, List.length_cons] at hl
    rw [List.length_eraseIdx_of_lt hlt]
    simp only [Script.State.after, Script.Act.effect, Function.update_self, hq, List.tail_cons]
    omega
  prog   := by
    intro ds hds
    have ⟨hlt, hx⟩ := List.getElem?_eq_some_iff.mp hj
    have hc := coming_after (t := D'.map (.get (.udp p)) ++ t) o (by rw [h.todo, hD]; rfl) p
    have hperm : (x :: ds).Perm (U ++ coming w a p) := by
      rw [hc]
      refine (hds.cons x).trans ?_
      rw [← hx, ← List.cons_append]
      exact (List.getElem_cons_eraseIdx_perm hlt).append_right _
    rw [hp]
    exact hk _ (h.prog _ hperm)

end Awaits

namespace Loose

variable (hall : Settles w a) (hc : a.Conserves w) (hm : ∀ p, μ.mayTimeout p = false)
include hall hc hm

-- Whatever the network does is a step of its plan.
theorem step (o : a.Owned w) (h : Loose μ w stop s a) (he : ∀ p, (stop p).Ended) (ha : a.Agrees w)
    (hd : μ.mayDrop = false) (hs : Net.step μ s l = some s') : ∃ a', a.Steps a' ∧ Loose μ w stop s' a' := by
  cases l
  case run p =>
    obtain ⟨D, U, t, hp⟩ := h.awaits p
    obtain ⟨hD, hU, hcom⟩ := hp.received hall hc fun d u hx => by
      generalize hy : s.prog p = x at hx
      cases hx
      simp [Net.step, hy] at hs
    subst hD hU
    have hprog := hp.prog [] (by rw [hcom]; exact .refl _)
    have htodo : a.todo p = t := hp.todo
    rw [List.map_nil, List.nil_append, ← htodo] at hprog
    obtain ⟨act, t', k, e, tcp, udp, ht, en, hg, hk, _, hs, htcp, hudp⟩ := Net.run_acts h.tcp o hc ha hprog (he p) hs
    subst hs
    refine ⟨_, ⟨p, .act ht en⟩, htcp, fun q => ?_⟩
    by_cases hq : q = p
    case pos =>
      subst hq
      have hafter := coming_after o ht q
      rw [hcom] at hafter
      obtain ⟨hputs, hcom'⟩ := List.append_eq_nil_iff.mp hafter.symm
      refine ⟨[], [], t', Function.update_self ..,
        fun d hd => hp.last d (htodo ▸ ht ▸ List.mem_cons_of_mem _ hd), ?_, ?_, ?_⟩
      · rw [show Net.udp _ q = udp q from rfl, hudp, hp.udp, hputs]
        rfl
      · refine hp.length.trans (congrArg List.length ?_)
        refine ((Script.Act.effect_puts act (hg q)).trans ?_).symm
        rw [hputs, List.append_nil]
      · intro ds hds
        rw [hcom'] at hds
        rw [hds.eq_nil]
        simpa [Net.advance] using hk
    case neg =>
      obtain ⟨D, U, t, hq'⟩ := h.awaits q
      exact ⟨D, _, t, hq'.other o ht hq (Function.update_of_ne hq _ _) (hg q) (hudp q)⟩
  case take p j =>
    obtain ⟨D, U, t, hp⟩ := h.awaits p
    cases Net.moves_iff.mp hs with | take hx hj =>
    rw [hp.udp, List.getElem?_map, Option.map_eq_some_iff] at hj
    obtain ⟨y, hget, hy⟩ := hj
    have hlt := (List.getElem?_eq_some_iff.mp hget).choose
    cases hq : a.queue (.udp p) with
    | nil =>
      have hl := hp.length
      rw [hq, List.length_nil] at hl
      omega
    | cons z r =>
      have hD := hp.pending hall hc
      rw [hq, List.cons_append] at hD
      refine ⟨_, ⟨p, .act (by rw [hp.todo, hD]; rfl) (by simp [Script.Act.Enabled, hq])⟩, fun q q' => ?_, fun q => ?_⟩
      · simpa [Script.State.after, Script.Act.effect, Net.advance] using h.tcp q q'
      · by_cases hqp : q = p
        case pos =>
          subst hqp
          refine ⟨_, _, t, hp.take o hget hq hD (fun u hu => ?_) (Function.update_self ..) (Function.update_self ..)⟩
          rw [hx] at hu
          cases hu with | take _ hu => exact hy ▸ hu
        case neg =>
          obtain ⟨D, U, t, hq'⟩ := h.awaits q
          have hne : Chan.udp p ≠ .udp q := fun he => hqp (Chan.udp.inj he).symm
          refine ⟨D, _, t, hq'.other o (by rw [hp.todo, hD]; rfl) hqp (Function.update_of_ne hqp _ _)
            (by simp [Script.Act.gets, hne]) ?_⟩
          simp [Script.Act.puts, Function.update_of_ne hqp]
  case timeout p =>
    cases Net.moves_iff.mp hs with | timeout _ ht => simp [hm] at ht
  case drop p j => cases Net.moves_iff.mp hs with | drop ht => simp [hd] at ht

-- A process that is to do something possible can do something.
theorem can_step (h : Loose μ w stop s a) (ht : a.todo p = act :: u)
    (en : act.Enabled a.queue) : ∃ s', Net.Steps μ s s' := by
  obtain ⟨D, U, t, hp⟩ := h.awaits p
  have hD := hp.pending hall hc
  have htodo := hp.todo
  cases D with
  | cons d D =>
    rw [ht, List.map_cons, List.cons_append, List.cons.injEq] at htodo
    obtain ⟨rfl, _⟩ := htodo
    have hne : a.queue (.udp p) ≠ [] := by
      intro hq
      simp [Script.Act.Enabled, hq] at en
    obtain ⟨x, U', hU⟩ := List.exists_cons_of_ne_nil (l := U) fun hU => hne <|
      List.eq_nil_of_length_eq_zero (by rw [← hp.length, hU, List.length_nil])
    have hprog := hp.prog _ (.refl _)
    have hudp := hp.udp
    rw [hU] at hprog hudp
    generalize hy : s.prog p = y at hprog
    cases hprog with | take _ _ =>
    exact ⟨_, .take p 0, Net.moves_iff.mpr (.take hy (by rw [hudp]; rfl))⟩
  | nil =>
    obtain ⟨hq, hcom⟩ := List.append_eq_nil_iff.mp hD.symm
    have hU : U = [] := List.eq_nil_of_length_eq_zero (by rw [hp.length, hq, List.length_nil])
    have hprog := hp.prog [] (by rw [hU, hcom]; exact .refl _)
    rw [List.map_nil, List.nil_append] at hprog htodo
    rw [ht] at htodo
    subst htodo
    generalize hy : s.prog p = y at hprog
    cases hprog
    case note   => exact ⟨_, .run p, Net.moves_iff.mpr (.note hy)⟩
    case sendto => exact ⟨_, .run p, Net.moves_iff.mpr (.sendto hy)⟩
    case send   => exact ⟨_, .run p, Net.moves_iff.mpr (.send hy)⟩
    case recv src l m len pos k hk =>
      obtain ⟨r, hq⟩ : ∃ r, a.queue (.tcp src p) = m :: r := List.head?_eq_some_iff.mp en
      have hne : s.tcp src p ≠ [] := by
        rw [h.tcp, hq, List.flatten_cons]
        intro he
        have := congrArg List.length he
        rw [List.length_append, List.length_nil] at this
        omega
      exact ⟨_, .run p, Net.moves_iff.mpr (.recv hy hne)⟩
    case take len next l d patient k hk => exact absurd List.mem_cons_self (hp.last d)
    case timeout len next l impatient k hk => simp [hm p] at impatient

theorem not_stuck (h : Loose μ w stop s a) (he : ∀ p, (stop p).Ended) (c : a.Completes) (n : Nat) :
    ¬Net.Stuck μ n s := by
  intro ⟨⟨p, _, hp⟩, hs⟩
  cases c.not_stuck
  case inl f =>
    have ⟨D, U, t, ha⟩ := h.awaits p
    have ⟨hD, ht⟩ := List.append_eq_nil_iff.mp (ha.todo.symm.trans (f p))
    have hD := List.map_eq_nil_iff.mp hD
    have ⟨hq, hcom⟩ := List.append_eq_nil_iff.mp ((ha.pending hall hc).symm.trans hD)
    have hU : U = [] := List.eq_nil_of_length_eq_zero (by rw [ha.length, hq, List.length_nil])
    have hprog := ha.prog [] (by rw [hU, hcom]; exact .refl _)
    rw [ht, List.map_nil, List.nil_append] at hprog
    exact hp (hprog.eq_of_nil ▸ he p)
  case inr st =>
    have ⟨_, q, st⟩ := st
    cases st with | act ht en =>
    have ⟨s', st⟩ := h.can_step hall hc hm ht en
    exact hs s' st

theorem reaches (o : a.Owned w) (h : Loose μ w stop s a) (he : ∀ p, (stop p).Ended) (ha : a.Agrees w)
    (hd : μ.mayDrop = false) (hr : Net.Reaches μ s s') : ∃ a', a.Reaches a' ∧ Loose μ w stop s' a' := by
  induction hr
  case refl => exact ⟨a, .refl, h⟩
  case tail _ st hi =>
    have ⟨a₁, r₁, h₁⟩ := hi
    have ⟨_, st⟩ := st
    have ⟨a₂, st₂, h₂⟩ := h₁.step (hall.reaches r₁) (hc.reaches o r₁) hm (o.reaches r₁) he (ha.reaches r₁) hd st
    exact ⟨a₂, r₁.tail st₂, h₂⟩

end Loose

-- At the beginning all datagrams are still to be sent.
theorem Loose.start {prog : Nat → Prog E Unit} {script : Nat → List (Act E)}
    (hall : Settles w (.start script))
    (h : ∀ p, ∃ ds t, script p = ds.map (.get (.udp p)) ++ t ∧ (∀ d, .get (.udp p) d ∉ t) ∧
      Gathers μ p (prog p) ds t (stop p)) : Loose μ w stop (.start prog) (.start script) where
  tcp    := fun _ _ => rfl
  awaits := fun p => by
    have ⟨ds, t, hs, hl, hp⟩ := h p
    have hcom : coming w (.start script) p = ds := by
      refine (hall p).right.trans ?_
      rw [Script.State.start_script, hs, List.flatMap_append, gets_datagrams, gets_eq_nil hl, List.append_nil]
    exact ⟨ds, [], t, hs, hl, rfl, rfl, by rw [List.nil_append, hcom]; exact hp⟩

end Process

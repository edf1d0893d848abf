import XdpCollectives.Process.Network

-- Programs that take other notes than they did, and do the same.
namespace Process

variable {E F : Type}

namespace Prog

-- The notes that `f` makes of those of the program. It takes none where `f` makes none.
def filterNotes (f : E → Option F) : Prog E α → Prog F α
  | ret a                  => ret a
  | exit                   => exit
  | fault                  => fault
  | note e k               =>
    match f e with
    | some e' => note e' (k.filterNotes f)
    | none    => k.filterNotes f
  | sendto dest d k        => sendto dest d (k.filterNotes f)
  | recvfrom len next l k  => recvfrom len next l fun o => (k o).filterNotes f
  | send dest m k          => send dest m (k.filterNotes f)
  | recv src len k         => recv src len fun m => (k m).filterNotes f

variable {f : E → Option F}

theorem filterNotes_note (e : E) (k : Prog E α) :
    (note e k).filterNotes f = (f e).elim (k.filterNotes f) fun e' => note e' (k.filterNotes f) := by
  rw [filterNotes]
  cases f e <;> rfl

theorem filterNotes_bind (x : Prog E α) (g : α → Prog E β) :
    (x >>= g).filterNotes f = x.filterNotes f >>= fun a => (g a).filterNotes f := by
  simp only [bind_eq]
  induction x with
  | note e k hi =>
    rw [bind, filterNotes_note, filterNotes_note, hi]
    cases f e <;> rfl
  | _ => simp_all [bind, filterNotes]

theorem filterNotes_ite {c : Prop} [Decidable c] (x y : Prog E α) :
    (if c then x else y).filterNotes f = if c then x.filterNotes f else y.filterNotes f :=
  apply_ite ..

theorem filterNotes_received (len : Nat) (next : L → Option Bytes → L ⊕ O) (l : L) (k : O → Prog E α)
    (d : Option Bytes) :
    (received len next l k d).filterNotes f = received len next l (fun o => (k o).filterNotes f) d := by
  simp only [received]
  split <;> rfl

end Prog

def Event.filterNotes (f : E → Option F) : Event E → Option (Event F)
  | note e         => (f e).map note
  | sendto dest d  => some (sendto dest d)
  | took d         => some (took d)
  | timeout        => some timeout
  | send dest m    => some (send dest m)
  | recv src m     => some (recv src m)

namespace Net

def filterNotes (f : E → Option F) (s : Net E) : Net F where
  prog p := (s.prog p).filterNotes f
  tcp    := s.tcp
  udp    := s.udp
  trace  := s.trace.filterMap fun e => (e.2.filterNotes f).map (e.1, ·)

-- The process that takes the step. None does where a datagram gets lost.
def Label.process : Label → Option Nat
  | run p | take p _ | timeout p => some p
  | drop ..                      => none

variable {f : E → Option F} {μ : Medium} {s s' : Net E} {p : Nat}

theorem filterNotes_start (prog : Nat → Prog E Unit) :
    (start prog).filterNotes f = start fun p => (prog p).filterNotes f := rfl

theorem filterNotes_update (k : Prog E Unit) (q : Nat) : (Function.update s.prog p k q).filterNotes f =
    Function.update (fun q => (s.prog q).filterNotes f) p (k.filterNotes f) q :=
  Function.apply_update (fun _ x => Prog.filterNotes f x) ..

theorem filterNotes_advance {k : Prog E Unit} {e : Event E} (he : e.filterNotes f = some e') (tcp : Nat → Nat → Bytes)
    (udp : Nat → List Bytes) : { s.advance p k e with tcp, udp }.filterNotes f =
      { (s.filterNotes f).advance p (k.filterNotes f) e' with tcp, udp } := by
  simp only [filterNotes, advance, filterNotes_update, List.filterMap_append, List.filterMap_cons, he, Option.map_some,
    List.filterMap_nil]

-- The step of a note that is dropped cannot be seen.
theorem filterNotes_dropped {k : Prog E Unit} (hp : s.prog p = .note e k) (he : f e = none) :
    (s.advance p k (.note e)).filterNotes f = s.filterNotes f := by
  have hk : (s.prog p).filterNotes f = k.filterNotes f := by
    rw [hp, Prog.filterNotes_note, he]
    rfl
  have hprog : Function.update (fun q => (s.prog q).filterNotes f) p (k.filterNotes f) =
      fun q => (s.prog q).filterNotes f := by
    rw [← hk]
    exact Function.update_eq_self ..
  simp only [filterNotes, advance, filterNotes_update, List.filterMap_append, List.filterMap_cons, Event.filterNotes,
    he, Option.map_none, List.filterMap_nil, List.append_nil]
  rw [hprog]

theorem filterNotes_prog {x : Prog E Unit} (hp : s.prog p = x) : (s.filterNotes f).prog p = x.filterNotes f :=
  congrArg (Prog.filterNotes f) hp

theorem filterNotes_prog_note (hp : s.prog p = .note e k) (he : f e ≠ none) :
    ∃ e', f e = some e' ∧ (s.filterNotes f).prog p = .note e' (k.filterNotes f) := by
  obtain ⟨e', he⟩ := Option.ne_none_iff_exists'.mp he
  refine ⟨e', he, ?_⟩
  rw [filterNotes_prog hp, Prog.filterNotes_note, he, Option.elim_some]

-- All other steps are the same with the other notes.
theorem step_filterNotes (h : ∀ p e k, l.process = some p → s.prog p = .note e k → f e ≠ none) :
    step μ (s.filterNotes f) l = (step μ s l).map (filterNotes f) := by
  cases l
  case run p =>
    cases hp : s.prog p with
    | note e k =>
      have ⟨e', he, hf⟩ := filterNotes_prog_note hp (h p e k rfl hp)
      have ha : (Event.note e).filterNotes f = some (.note e') := by rw [Event.filterNotes, he, Option.map_some]
      simp only [step, hf, hp, Option.map_some]
      exact congrArg some (filterNotes_advance ha s.tcp s.udp).symm
    | recv src len k =>
      simp only [step, filterNotes_prog hp, hp, Prog.filterNotes]
      rw [show (s.filterNotes f).tcp = s.tcp from rfl]
      split
      case isTrue  => rfl
      case isFalse => exact congrArg some (filterNotes_advance rfl _ s.udp).symm
    | sendto dest d k =>
      simp only [step, filterNotes_prog hp, hp, Prog.filterNotes]
      exact congrArg some (filterNotes_advance rfl s.tcp _).symm
    | send dest m k =>
      simp only [step, filterNotes_prog hp, hp, Prog.filterNotes]
      exact congrArg some (filterNotes_advance rfl _ s.udp).symm
    | _ => simp only [step, filterNotes_prog hp, hp, Prog.filterNotes, Option.map_none]
  case take p j =>
    cases hp : s.prog p with
    | note e k =>
      have ⟨e', he, hf⟩ := filterNotes_prog_note hp (h p e k rfl hp)
      simp only [step, hf, hp, Option.map_none]
    | recvfrom len next l k =>
      simp only [step, filterNotes_prog hp, hp, Prog.filterNotes]
      rw [show (s.filterNotes f).udp = s.udp from rfl]
      cases (s.udp p)[j]? with
      | none   => rfl
      | some d =>
        simp only [← Prog.filterNotes_received]
        exact congrArg some (filterNotes_advance rfl s.tcp _).symm
    | _ => simp only [step, filterNotes_prog hp, hp, Prog.filterNotes, Option.map_none]
  case timeout p =>
    cases hp : s.prog p with
    | note e k =>
      have ⟨e', he, hf⟩ := filterNotes_prog_note hp (h p e k rfl hp)
      simp only [step, hf, hp, Option.map_none]
    | recvfrom len next l k =>
      simp only [step, filterNotes_prog hp, hp, Prog.filterNotes, ← Prog.filterNotes_received]
      split
      case isTrue  => exact congrArg some (filterNotes_advance rfl s.tcp s.udp).symm
      case isFalse => rfl
    | _ => simp only [step, filterNotes_prog hp, hp, Prog.filterNotes, Option.map_none]
  case drop p j =>
    rw [step, step, show (s.filterNotes f).udp = s.udp from rfl]
    split <;> rfl

theorem filterNotes_steps (h : Steps μ s s') : s'.filterNotes f = s.filterNotes f ∨
    Steps μ (s.filterNotes f) (s'.filterNotes f) := by
  have ⟨l, hs⟩ := h
  by_cases hn : ∃ p e k, l.process = some p ∧ s.prog p = .note e k ∧ f e = none
  case pos =>
    have ⟨p, e, k, hl, hp, he⟩ := hn
    cases l <;> cases hl <;> simp only [step, hp, reduceCtorEq] at hs
    cases hs
    exact .inl (filterNotes_dropped hp he)
  case neg =>
    refine .inr ⟨l, ?_⟩
    rw [step_filterNotes fun p e k hl hp he => hn ⟨p, e, k, hl, hp, he⟩, hs, Option.map_some]

-- A process can take the notes that are dropped before it takes its next step.
theorem exists_undropped (s : Net E) (p : Nat) : ∃ s', Reaches μ s s' ∧ s'.filterNotes f = s.filterNotes f ∧
    ∀ e k, s'.prog p = .note e k → f e ≠ none := by
  generalize hx : s.prog p = x
  induction x generalizing s with
  | note e k hi =>
    by_cases he : f e = none
    case pos =>
      obtain ⟨s', hr, hs, hn⟩ := hi (s.advance p k (.note e)) (by rw [advance_prog, Function.update_self])
      have h₁ : Steps μ s (s.advance p k (.note e)) := ⟨.run p, by simp only [step, hx]⟩
      exact ⟨s', .head h₁ hr, hs.trans (filterNotes_dropped hx he), hn⟩
    case neg =>
      refine ⟨s, .refl, rfl, fun e' k' hp => ?_⟩
      cases hx.symm.trans hp
      exact he
  | _ => exact ⟨s, .refl, rfl, by simp [hx]⟩

theorem steps_of_filterNotes {t : Net F} (h : Steps μ (s.filterNotes f) t) :
    ∃ s', Reaches μ s s' ∧ s'.filterNotes f = t := by
  have ⟨l, hs⟩ := h
  have ⟨s₁, hr, he, hn⟩ : ∃ s₁, Reaches μ s s₁ ∧ s₁.filterNotes f = s.filterNotes f ∧
      ∀ p e k, l.process = some p → s₁.prog p = .note e k → f e ≠ none := by
    cases hl : l.process with
    | none   => exact ⟨s, .refl, rfl, nofun⟩
    | some p =>
      have ⟨s₁, hr, he, hn⟩ := exists_undropped (μ := μ) (f := f) s p
      refine ⟨s₁, hr, he, fun q e k hq => ?_⟩
      cases hq
      exact hn e k
  rw [← he, step_filterNotes hn] at hs
  have ⟨s', hs, ht⟩ := Option.map_eq_some_iff.mp hs
  exact ⟨s', hr.tail ⟨l, hs⟩, ht⟩

-- The runs with the other notes are the runs, but for the notes.
theorem reaches_filterNotes_iff {t : Net F} : Reaches μ (s.filterNotes f) t ↔
    ∃ s', Reaches μ s s' ∧ s'.filterNotes f = t := by
  constructor
  · intro h
    induction h
    case refl => exact ⟨s, .refl, rfl⟩
    case tail hs hi =>
      obtain ⟨s₁, hr, rfl⟩ := hi
      have ⟨s₂, hs, ht⟩ := steps_of_filterNotes hs
      exact ⟨s₂, hr.trans hs, ht⟩
  · rintro ⟨s', h, rfl⟩
    induction h
    case refl => exact .refl
    case tail hs hi =>
      rcases filterNotes_steps hs with he | hs
      · rwa [he]
      · exact hi.tail hs

end Net
end Process

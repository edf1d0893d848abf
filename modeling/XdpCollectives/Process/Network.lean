import XdpCollectives.Process.Basic
import Mathlib.Logic.Function.Basic
import Mathlib.Logic.Relation

namespace Process

-- What a process does that others, or an observer, can see.
inductive Event (E : Type)
  | note (e : E)
  | sendto (dest : Nat) (d : Bytes)
  | took (d : Bytes)
  | timeout
  | send (dest : Nat) (m : Bytes)
  | recv (src : Nat) (m : Bytes)

-- How a network treats datagrams: which processes get a datagram, what each of them gets, which of
-- them may time out, and whether datagrams may be lost on their way.
structure Medium where
  reach      : (src dest : Nat) → Bytes → List Nat
  copy       : Nat → Bytes → Bytes
  mayTimeout : Nat → Bool
  mayDrop    : Bool

-- The datagrams on their way to a process have no order. `tcp p q` are the bytes that `p` has sent to
-- `q` and that `q` has not received.
structure Net (E : Type) where
  prog  : Nat → Prog E Unit
  tcp   : Nat → Nat → Bytes
  udp   : Nat → List Bytes
  trace : List (Nat × Event E)

namespace Net

variable {E : Type} {μ : Medium} {s s' : Net E}

def start (prog : Nat → Prog E Unit) : Net E where
  prog    := prog
  tcp _ _ := []
  udp _   := []
  trace   := []

def advance (s : Net E) (p : Nat) (k : Prog E Unit) (e : Event E) : Net E :=
  { s with
    prog  := Function.update s.prog p k
    trace := s.trace ++ [(p, e)] }

@[simp]
theorem advance_prog : (s.advance p k e).prog = Function.update s.prog p k := rfl

@[simp]
theorem advance_tcp : (s.advance p k e).tcp = s.tcp := rfl

@[simp]
theorem advance_udp : (s.advance p k e).udp = s.udp := rfl

inductive Label
  | run (p : Nat)
  | take (p j : Nat)
  | timeout (p : Nat)
  | drop (p j : Nat)
  deriving DecidableEq, Repr

def step (μ : Medium) (s : Net E) : Label → Option (Net E)
  | .run p =>
    match s.prog p with
    | .note e k => some (s.advance p k (.note e))
    | .sendto dest d k => some { s.advance p k (.sendto dest d) with
        udp := fun q => s.udp q ++ ((μ.reach p dest d).filter (· = q)).map fun q => μ.copy q d }
    | .send dest m k => some { s.advance p k (.send dest m) with
        tcp := Function.update s.tcp p (Function.update (s.tcp p) dest (s.tcp p dest ++ m)) }
    | .recv src len k =>
      if s.tcp src p = [] then none
      else some { s.advance p (k ((s.tcp src p).take len)) (.recv src ((s.tcp src p).take len)) with
        tcp := Function.update s.tcp src (Function.update (s.tcp src) p ((s.tcp src p).drop len)) }
    | _ => none
  | .take p j =>
    match s.prog p, (s.udp p)[j]? with
    | .recvfrom len next l k, some d =>
      some { s.advance p (.received len next l k (some d)) (.took d) with
        udp := Function.update s.udp p ((s.udp p).eraseIdx j) }
    | _, _ => none
  | .timeout p =>
    match s.prog p with
    | .recvfrom len next l k =>
      if μ.mayTimeout p then some (s.advance p (.received len next l k none) .timeout) else none
    | _ => none
  | .drop p j =>
    if μ.mayDrop ∧ j < (s.udp p).length then
      some { s with udp := Function.update s.udp p ((s.udp p).eraseIdx j) }
    else none

-- Everything that `step` can do.
inductive Moves (μ : Medium) (s : Net E) : Label → Net E → Prop
  | note (hp : s.prog p = .note e k) : Moves μ s (.run p) (s.advance p k (.note e))
  | sendto (hp : s.prog p = .sendto dest d k) : Moves μ s (.run p)
    { s.advance p k (.sendto dest d) with
      udp := fun q => s.udp q ++ ((μ.reach p dest d).filter (· = q)).map fun q => μ.copy q d }
  | send (hp : s.prog p = .send dest m k) : Moves μ s (.run p)
    { s.advance p k (.send dest m) with
      tcp := Function.update s.tcp p (Function.update (s.tcp p) dest (s.tcp p dest ++ m)) }
  | recv (hp : s.prog p = .recv src len k) (hne : s.tcp src p ≠ []) : Moves μ s (.run p)
    { s.advance p (k ((s.tcp src p).take len)) (.recv src ((s.tcp src p).take len)) with
      tcp := Function.update s.tcp src (Function.update (s.tcp src) p ((s.tcp src p).drop len)) }
  | take (hp : s.prog p = .recvfrom len next l k) (hj : (s.udp p)[j]? = some d) : Moves μ s (.take p j)
    { s.advance p (.received len next l k (some d)) (.took d) with
      udp := Function.update s.udp p ((s.udp p).eraseIdx j) }
  | timeout (hp : s.prog p = .recvfrom len next l k) (hm : μ.mayTimeout p = true) :
    Moves μ s (.timeout p) (s.advance p (.received len next l k none) .timeout)
  | drop (hm : μ.mayDrop = true) (hj : j < (s.udp p).length) : Moves μ s (.drop p j)
    { s with udp := Function.update s.udp p ((s.udp p).eraseIdx j) }

theorem moves_iff : step μ s l = some s' ↔ Moves μ s l s' := by
  constructor
  case mp =>
    intro h
    cases l
    case run p =>
      simp only [step] at h
      split at h
      case h_4 hp =>
        split at h
        case isTrue      => contradiction
        case isFalse hne => exact Option.some.inj h ▸ .recv hp hne
      case h_5    => contradiction
      case h_1 hp => exact Option.some.inj h ▸ .note hp
      case h_2 hp => exact Option.some.inj h ▸ .sendto hp
      case h_3 hp => exact Option.some.inj h ▸ .send hp
    case take p j =>
      simp only [step] at h
      split at h
      case h_1 hp hj => exact Option.some.inj h ▸ .take hp hj
      case h_2       => contradiction
    case timeout p =>
      simp only [step] at h
      split at h
      case h_2    => contradiction
      case h_1 hp =>
        split at h
        case isTrue hm => exact Option.some.inj h ▸ .timeout hp hm
        case isFalse   => contradiction
    case drop p j =>
      simp only [step] at h
      split at h
      case isTrue hm => exact Option.some.inj h ▸ .drop hm.left hm.right
      case isFalse   => contradiction
  case mpr =>
    intro h
    cases h with
    | note hp       => simp only [step, hp]
    | sendto hp     => simp only [step, hp]
    | send hp       => simp only [step, hp]
    | recv hp hne   => simp only [step, hp, if_neg hne]
    | take hp hj    => simp only [step, hp, hj]
    | timeout hp hm => simp only [step, hp, if_pos hm]
    | drop hm hj    => simp only [step, if_pos (And.intro hm hj)]

def Steps (μ : Medium) (s s' : Net E) : Prop :=
  ∃ l, step μ s l = some s'

abbrev Reaches (μ : Medium) : Net E → Net E → Prop :=
  Relation.ReflTransGen (Steps μ)

-- Runs in which the datagrams for a process arrive in the order in which they were sent.
def Label.First : Label → Prop
  | .take _ j => j = 0
  | _         => True

def StepsInOrder (μ : Medium) (s s' : Net E) : Prop :=
  ∃ l : Label, l.First ∧ step μ s l = some s'

abbrev ReachesInOrder (μ : Medium) : Net E → Net E → Prop :=
  Relation.ReflTransGen (StepsInOrder μ)

-- Some of the first `n` processes has not ended, and nothing can happen any more.
def Stuck (μ : Medium) (n : Nat) (s : Net E) : Prop :=
  (∃ p < n, ¬(s.prog p).Ended) ∧ ∀ s', ¬Steps μ s s'

def StuckInOrder (μ : Medium) (n : Nat) (s : Net E) : Prop :=
  (∃ p < n, ¬(s.prog p).Ended) ∧ ∀ s', ¬StepsInOrder μ s s'

theorem StepsInOrder.steps (h : StepsInOrder μ s s') : Steps μ s s' := by
  have ⟨l, _, hs⟩ := h
  exact ⟨l, hs⟩

theorem ReachesInOrder.reaches (h : ReachesInOrder μ s s') : Reaches μ s s' :=
  Relation.ReflTransGen.mono (fun _ _ => StepsInOrder.steps) _ _ h

-- Where a process can take one of its datagrams, it can take the first.
theorem Steps.in_order (h : Steps μ s s') (hd : μ.mayDrop = false) : ∃ s'', StepsInOrder μ s s'' := by
  have ⟨l, hs⟩ := h
  cases l
  case take p j =>
    cases moves_iff.mp hs with | take hp hj =>
    cases hu : s.udp p with
    | nil    => simp [hu] at hj
    | cons d => exact ⟨_, .take p 0, rfl, moves_iff.mpr (.take hp (by rw [hu]; rfl))⟩
  case run p     => exact ⟨s', .run p, trivial, hs⟩
  case timeout p => exact ⟨s', .timeout p, trivial, hs⟩
  case drop p j  => cases moves_iff.mp hs with | drop hm => simp [hd] at hm

theorem Stuck.of_in_order (h : StuckInOrder μ n s) (hd : μ.mayDrop = false) : Stuck μ n s := by
  refine ⟨h.left, fun s' hs => ?_⟩
  have ⟨s'', hs⟩ := hs.in_order hd
  exact h.right s'' hs

-- The process waits for bytes of a connection on which there are none.
def Blocked (s : Net E) (p : Nat) : Prop :=
  ∃ src len k, s.prog p = .recv src len k ∧ s.tcp src p = []

theorem not_steps (h : ∀ p, (s.prog p).Ended ∨ s.Blocked p) (hd : μ.mayDrop = false) : ¬Steps μ s s' := by
  have hp p : s.step μ (.run p) = none ∧ (∀ j, s.step μ (.take p j) = none) ∧ s.step μ (.timeout p) = none := by
    rcases h p with he | ⟨src, len, k, he, ht⟩
    · generalize hx : s.prog p = x at he
      cases x
      case ret | exit | fault => simp [step, hx]
      all_goals contradiction
    · simp [step, he, ht]
  intro ⟨l, hs⟩
  cases l
  case run p     => exact absurd ((hp p).left.symm.trans hs) nofun
  case take p j  => exact absurd (((hp p).right.left j).symm.trans hs) nofun
  case timeout p => exact absurd ((hp p).right.right.symm.trans hs) nofun
  case drop p j  => simp [step, hd] at hs

-- Two media that do the same with a datagram.
structure Alike (μ μ' : Medium) (p dest : Nat) (d : Bytes) : Prop where
  reach : μ.reach p dest d = μ'.reach p dest d
  copy  : ∀ q, μ.copy q d = μ'.copy q d

theorem Alike.symm {μ' : Medium} {p dest : Nat} {d : Bytes} (h : Alike μ μ' p dest d) : Alike μ' μ p dest d where
  reach  := h.reach.symm
  copy q := (h.copy q).symm

section Media

variable {μ' : Medium} (ht : μ.mayTimeout = μ'.mayTimeout) (hd : μ.mayDrop = μ'.mayDrop)
include ht hd

theorem Moves.alike (h : Moves μ s l s') (ha : ∀ p dest d k, s.prog p = .sendto dest d k → Alike μ μ' p dest d) :
    Moves μ' s l s' := by
  cases h with
  | note hp       => exact .note hp
  | send hp       => exact .send hp
  | recv hp hne   => exact .recv hp hne
  | take hp hj    => exact .take hp hj
  | timeout hp hm => exact .timeout hp (ht ▸ hm)
  | drop hm hj    => exact .drop (hd ▸ hm) hj
  | sendto hp     =>
    obtain ⟨hreach, hcopy⟩ := ha _ _ _ _ hp
    simp only [hreach, hcopy]
    exact .sendto hp

-- A run is one of every medium that does the same with what is sent in it.
theorem Reaches.alike (h : Reaches μ s s')
    (ha : ∀ t, Reaches μ' s t → ∀ p dest d k, t.prog p = .sendto dest d k → Alike μ μ' p dest d) :
    Reaches μ' s s' := by
  induction h
  case refl => exact .refl
  case tail t t' _ hs hi =>
    obtain ⟨l, hs⟩ := hs
    exact hi.tail ⟨l, moves_iff.mpr ((moves_iff.mp hs).alike ht hd (ha t hi))⟩

end Media

-- What one process has done.
def events (s : Net E) (p : Nat) : List (Event E) :=
  s.trace.filterMap fun e => if e.1 = p then some e.2 else none

end Net
end Process

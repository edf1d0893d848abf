import Mathlib.Logic.Function.Basic
import Mathlib.Data.List.Nodup
import Mathlib.Data.List.Induction

-- The loop of `mpi_init` that connects every pair of ranks by TCP.
namespace Mesh

-- The two ends of the connection that rank `c` opens to rank `s`.
inductive End
  | client (c s : Nat)
  | server (c s : Nat)
  deriving DecidableEq, Repr

def End.other : End → End
  | client c s => server c s
  | server c s => client c s

-- A rank before `create_tcp_socket` returns, at an index of the loop, and after `close`.
inductive Phase
  | starting
  | loop (i : Nat)
  | left
  deriving DecidableEq, Repr

def Phase.Listening : Phase → Prop
  | loop _ => True
  | _      => False

instance : DecidablePred Phase.Listening
  | .starting => isFalse id
  | .loop _   => isTrue trivial
  | .left     => isFalse id

structure State where
  phase : Nat → Phase
  -- The clients whose connections a rank has not accepted yet, oldest first.
  queue : Nat → List Nat
  -- `sock_table_tcp` of every rank.
  table : Nat → Nat → Option End

namespace State

def start : State where
  phase _   := .starting
  queue _   := []
  table _ _ := none

def goto (s : State) (r : Nat) (p : Phase) : State :=
  { s with phase := Function.update s.phase r p }

def enqueue (s : State) (r c : Nat) : State :=
  { s with queue := Function.update s.queue r (s.queue r ++ [c]) }

def dequeue (s : State) (r : Nat) : State :=
  { s with queue := Function.update s.queue r (s.queue r).tail }

def store (s : State) (r i : Nat) (e : End) : State :=
  { s with table := Function.update s.table r (Function.update (s.table r) i (some e)) }

variable {s : State} {r k i j : Nat} {p : Phase} {e : End}

theorem goto_phase : (s.goto r p).phase k = if k = r then p else s.phase k :=
  Function.update_apply ..

@[simp]
theorem goto_queue : (s.goto r p).queue = s.queue := rfl

@[simp]
theorem goto_table : (s.goto r p).table = s.table := rfl

@[simp]
theorem store_phase : (s.store r i e).phase = s.phase := rfl

@[simp]
theorem store_queue : (s.store r i e).queue = s.queue := rfl

theorem store_table : (s.store r i e).table k j = if k = r ∧ j = i then some e else s.table k j := by
  simp only [store, Function.update_apply]
  by_cases hk : k = r <;> simp [hk, Function.update_apply]

@[simp]
theorem enqueue_phase : (s.enqueue r c).phase = s.phase := rfl

@[simp]
theorem enqueue_table : (s.enqueue r c).table = s.table := rfl

theorem enqueue_queue : (s.enqueue r c).queue k = s.queue k ++ if k = r then [c] else [] := by
  simp only [enqueue, Function.update_apply]
  split <;> simp_all

@[simp]
theorem dequeue_phase : (s.dequeue r).phase = s.phase := rfl

@[simp]
theorem dequeue_table : (s.dequeue r).table = s.table := rfl

theorem dequeue_queue : (s.dequeue r).queue k = if k = r then (s.queue r).tail else s.queue k :=
  Function.update_apply ..

end State

inductive Label
  | listen (r : Nat)
  | skip (r : Nat)
  | connect (c r : Nat)
  | accept (r : Nat)
  | leave (r : Nat)
  deriving DecidableEq, Repr

-- `connect` is refused, and repeated, while nobody listens. `accept` waits for a connection and
-- takes the oldest one, whoever opened it.
def step (n : Nat) (s : State) : Label → Option State
  | .listen r =>
    if r < n ∧ s.phase r = .starting then some (s.goto r (.loop 0)) else none
  | .skip r =>
    if r < n ∧ s.phase r = .loop r then some (s.goto r (.loop (r + 1))) else none
  | .connect c r =>
    if r < n ∧ c < r ∧ s.phase c = .loop r ∧ (s.phase r).Listening then
      some (((s.enqueue r c).store c r (.client c r)).goto c (.loop (r + 1)))
    else none
  | .accept r =>
    match s.phase r, s.queue r with
    | .loop i, c :: _ =>
      if r < n ∧ i < r then some (((s.dequeue r).store r i (.server c r)).goto r (.loop (i + 1)))
      else none
    | _, _ => none
  | .leave r =>
    if r < n ∧ s.phase r = .loop n then some (s.goto r .left) else none

-- Everything that `step` can do.
inductive Moves (n : Nat) (s : State) : Label → State → Prop
  | listen (hr : r < n) (hp : s.phase r = .starting) : Moves n s (.listen r) (s.goto r (.loop 0))
  | skip (hr : r < n) (hp : s.phase r = .loop r) : Moves n s (.skip r) (s.goto r (.loop (r + 1)))
  | connect (hr : r < n) (hc : c < r) (hp : s.phase c = .loop r) (hl : (s.phase r).Listening) :
    Moves n s (.connect c r) (((s.enqueue r c).store c r (.client c r)).goto c (.loop (r + 1)))
  | accept (hr : r < n) (hi : i < r) (hp : s.phase r = .loop i) (hq : s.queue r = c :: cs) :
    Moves n s (.accept r) (((s.dequeue r).store r i (.server c r)).goto r (.loop (i + 1)))
  | leave (hr : r < n) (hp : s.phase r = .loop n) : Moves n s (.leave r) (s.goto r .left)

theorem Moves.of_step (h : step n s l = some s') : Moves n s l s' := by
  cases l
  case accept r =>
    simp only [step] at h
    split at h
    case h_1 hp hq =>
      simp only [Option.ite_none_right_eq_some, Option.some.injEq] at h
      obtain ⟨⟨hr, hi⟩, rfl⟩ := h
      exact .accept hr hi hp hq
    case h_2 => contradiction
  all_goals simp only [step, Option.ite_none_right_eq_some, Option.some.injEq] at h
  case listen r =>
    obtain ⟨⟨hr, hp⟩, rfl⟩ := h
    exact .listen hr hp
  case skip r =>
    obtain ⟨⟨hr, hp⟩, rfl⟩ := h
    exact .skip hr hp
  case connect c r =>
    obtain ⟨⟨hr, hc, hp, hl⟩, rfl⟩ := h
    exact .connect hr hc hp hl
  case leave r =>
    obtain ⟨⟨hr, hp⟩, rfl⟩ := h
    exact .leave hr hp

inductive Reaches (n : Nat) : List Label → State → Prop
  | start : Reaches n [] .start
  | step (h : Reaches n ls s) (hs : step n s l = some s') : Reaches n (ls ++ [l]) s'

-- The state after a sequence of steps from the start, if all of them can be taken.
def run (n : Nat) (ls : List Label) : Option State :=
  ls.foldlM (step n) .start

theorem Reaches.of_run (h : run n ls = some s) : Reaches n ls s := by
  induction ls using List.reverseRec generalizing s
  case nil =>
    obtain rfl : State.start = s := by simpa [run] using h
    exact .start
  case append_singleton ls l hi =>
    simp only [run, List.foldlM_append, List.foldlM_cons, List.foldlM_nil] at h
    cases hr : ls.foldlM (Mesh.step n) .start with
    | none    => simp [hr] at h
    | some s' => exact .step (hi hr) (by simpa [hr] using h)

-- The clients that connect to rank `r`, in the order in which they do.
def arrivals (ls : List Label) (r : Nat) : List Nat :=
  ls.filterMap fun
    | .connect c r' => if r' = r then some c else none
    | _             => none

def State.Done (n : Nat) (s : State) : Prop :=
  ∀ r < n, s.phase r = .left

instance : Decidable (State.Done n s) :=
  inferInstanceAs <| Decidable (∀ r < n, s.phase r = .left)

-- What two ranks have stored for one another are the ends of one connection.
def State.Paired (n : Nat) (s : State) : Prop :=
  ∀ r < n, ∀ i < n, r ≠ i → ∃ e, s.table r i = some e ∧ s.table i r = some e.other

end Mesh

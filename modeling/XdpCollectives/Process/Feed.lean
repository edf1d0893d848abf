import XdpCollectives.Process.Traces

-- Programs that are given the results of `recvfrom` one after the other.
namespace Process

variable {E : Type} {rs : List (Option Bytes)}

def Event.result? : Event E → Option (Option Bytes)
  | .took d  => some (some d)
  | .timeout => some none
  | _        => none

def Event.ofResult : Option Bytes → Event E
  | some d => .took d
  | none   => .timeout

-- The results that are given to a program in what it does.
def results (t : List (Event E)) : List (Option Bytes) :=
  t.filterMap Event.result?

theorem results_append (t t' : List (Event E)) : results (t ++ t') = results t ++ results t' :=
  List.filterMap_append

theorem results_cons (r : Option Bytes) (t : List (Event E)) : results (.ofResult r :: t) = r :: results t := by
  cases r <;> rfl

theorem results_map (rs : List (Option Bytes)) : results (rs.map (Event.ofResult : _ → Event E)) = rs := by
  induction rs
  case nil => rfl
  case cons r rs hi => rw [List.map_cons, results_cons, hi]

theorem Matches.result {μ : Medium} {p : Nat} {e : Event E} {act : Act E} (h : Matches μ p e act) (ht : act ≠ .timeout)
    (hg : ∀ d, act ≠ .get (.udp p) d) : e.result? = none := by
  cases h
  case took    => exact absurd rfl (hg _)
  case timeout => exact absurd rfl ht
  all_goals rfl

namespace Prog

-- Where the program is when it needs another result or something else, and the results that it has not needed.
def feed : Prog E α → List (Option Bytes) → Prog E α × List (Option Bytes)
  | recvfrom len next l k, r :: rs => (received len next l k r).feed rs
  | x,                     rs      => (x, rs)

def Waits : Prog E α → Prop
  | recvfrom .. => True
  | _           => False

theorem feed_nil (x : Prog E α) : x.feed [] = (x, []) := by
  cases x <;> rfl

theorem feed_of_not_waits {x : Prog E α} (h : ¬x.Waits) (rs : List (Option Bytes)) : x.feed rs = (x, rs) := by
  cases x
  case recvfrom => exact absurd trivial h
  all_goals cases rs <;> rfl

@[simp]
theorem feed_ret (a : α) (rs : List (Option Bytes)) : (ret a : Prog E α).feed rs = (ret a, rs) :=
  feed_of_not_waits id rs

@[simp]
theorem feed_exit (rs : List (Option Bytes)) : (exit : Prog E α).feed rs = (exit, rs) :=
  feed_of_not_waits id rs

@[simp]
theorem feed_fault (rs : List (Option Bytes)) : (fault : Prog E α).feed rs = (fault, rs) :=
  feed_of_not_waits id rs

@[simp]
theorem feed_note (e : E) (k : Prog E α) (rs : List (Option Bytes)) : (note e k).feed rs = (note e k, rs) :=
  feed_of_not_waits id rs

theorem feed_recvfrom (len : Nat) (next : L → Option Bytes → L ⊕ O) (l : L) (k : O → Prog E α) (r : Option Bytes)
    (rs : List (Option Bytes)) : (recvfrom len next l k).feed (r :: rs) = (received len next l k r).feed rs := rfl

-- The variables of a repeated receive that is given these results, or what it ends with.
def loop (len : Nat) (next : L → Option Bytes → L ⊕ O) : L → List (Option Bytes) → (L ⊕ O) × List (Option Bytes)
  | l, []      => (.inl l, [])
  | l, r :: rs =>
    match next l (r.map (·.take len)) with
    | .inl l => loop len next l rs
    | .inr o => (.inr o, rs)

theorem feed_loop (len : Nat) (next : L → Option Bytes → L ⊕ O) (l : L) (k : O → Prog E α) (rs : List (Option Bytes)) :
    (recvfrom len next l k).feed rs =
      match loop len next l rs with
      | (.inl l, _)    => (recvfrom len next l k, [])
      | (.inr o, rest) => (k o).feed rest := by
  induction rs generalizing l
  case nil => rfl
  case cons r rs hi =>
    rw [feed_recvfrom, received, loop]
    cases next l (r.map (·.take len)) with
    | inl l => exact hi l
    | inr o => rfl

theorem feed_loop_bind (len : Nat) (next : L → Option Bytes → L ⊕ O) (l : L) (f : O → Prog E α)
    (rs : List (Option Bytes)) :
    (recvfrom len next l ret >>= f).feed rs =
      match loop len next l rs with
      | (.inl l, _)    => (recvfrom len next l f, [])
      | (.inr o, rest) => (f o).feed rest :=
  feed_loop len next l f rs

end Prog

theorem does_feed (x : Prog E α) (rs : List (Option Bytes)) :
    ∃ us, rs = us ++ (x.feed rs).2 ∧ Does x (us.map .ofResult) (x.feed rs).1 := by
  induction rs generalizing x
  case nil =>
    rw [Prog.feed_nil]
    exact ⟨[], rfl, .refl⟩
  case cons r rs hi =>
    cases x
    case recvfrom len next l k =>
      have ⟨us, hrs, hd⟩ := hi (.received len next l k r)
      refine ⟨r :: us, congrArg _ hrs, .step ?_ hd⟩
      cases r
      case none => exact .timeout
      case some => exact .took
    all_goals exact ⟨[], rfl, .refl⟩

theorem Goes.feed {x y : Prog E α} (h : Goes x e y) (hx : x.Waits) :
    ∃ r, e = .ofResult r ∧ ∀ rs, x.feed (r :: rs) = y.feed rs := by
  cases h
  case took d  => exact ⟨some d, rfl, fun _ => rfl⟩
  case timeout => exact ⟨none, rfl, fun _ => rfl⟩
  all_goals contradiction

-- What is done with these results is done before, or after the program has been given all that it needs.
theorem Does.fed {x y : Prog E α} (h : Does x t y) (hrs : results t <+: rs) :
    (∃ us : List (Option Bytes), t = us.map .ofResult) ∧ y.Waits ∨
      ∃ (us : List (Option Bytes)) (t' : List (Event E)), t = us.map .ofResult ++ t' ∧
        rs = us ++ (x.feed rs).2 ∧ ¬(x.feed rs).1.Waits ∧ Does (x.feed rs).1 t' y := by
  induction h generalizing rs
  case refl x =>
    by_cases hw : x.Waits
    case pos => exact .inl ⟨⟨[], rfl⟩, hw⟩
    case neg =>
      refine .inr ⟨[], [], rfl, ?_⟩
      rw [Prog.feed_of_not_waits hw]
      exact ⟨rfl, hw, .refl⟩
  case step e t x y z hg ht hi =>
    by_cases hw : x.Waits
    case neg =>
      refine .inr ⟨[], e :: t, rfl, ?_⟩
      rw [Prog.feed_of_not_waits hw]
      exact ⟨rfl, hw, .step hg ht⟩
    case pos =>
      have ⟨r, he, hf⟩ := hg.feed hw
      subst he
      rw [results_cons] at hrs
      have ⟨rs', hr⟩ : ∃ rs', rs = r :: rs' := ⟨_, hrs.choose_spec.symm⟩
      subst hr
      rw [hf]
      rcases hi (List.cons_prefix_cons.mp hrs).right with ⟨⟨us, rfl⟩, hz⟩ | ⟨us, t', rfl, hu, hd⟩
      · exact .inl ⟨⟨r :: us, rfl⟩, hz⟩
      · exact .inr ⟨r :: us, t', rfl, congrArg _ hu, hd⟩

-- What holds of the program after it has been given its results holds of all that it does with them.
theorem Keeps.fed {φ : Event E → Prop} {Q : α → Prop} {x y : Prog E α} (hφ : ∀ r, φ (.ofResult r))
    (hk : ¬(x.feed rs).1.Waits → Keeps φ (x.feed rs).1 Q) (h : Does x t y) (hrs : results t <+: rs) :
    (∀ e ∈ t, φ e) ∧ ∀ a, y = .ret a → Q a := by
  have hus (us : List (Option Bytes)) : ∀ e ∈ us.map Event.ofResult, φ e := by
    intro e he
    have ⟨r, _, he⟩ := List.mem_map.mp he
    exact he ▸ hφ r
  rcases h.fed hrs with ⟨⟨us, rfl⟩, hy⟩ | ⟨us, t', rfl, _, hw, hd⟩
  · refine ⟨hus us, fun a ha => ?_⟩
    subst ha
    contradiction
  · have ⟨ht, hq⟩ := hk hw t' y hd
    exact ⟨fun e he => (List.mem_append.mp he).elim (hus us e) (ht e), hq⟩

end Process

import XdpCollectives.Script.Basic
import Mathlib.Algebra.BigOperators.Group.Finset.Basic
import Mathlib.Algebra.Order.BigOperators.Group.Finset

-- What holds in every state that processes with fixed scripts can reach.
namespace Script

variable {C M E : Type} [DecidableEq C] {s s' : State C M E} {w : Wiring C} {p : Nat} {ch : C}

namespace State

-- All that a process does from the start to the end.
def script (s : State C M E) (p : Nat) : List (Act C M E) :=
  s.done p ++ s.todo p

omit [DecidableEq C] in
theorem start_script (script : Nat → List (Act C M E)) : (start script).script = script := rfl

theorem Step.script_eq (h : Step p s s') : s'.script = s.script := by
  cases h with | @act a t todo _ =>
  funext p'
  by_cases hp : p' = p
  case pos => subst hp; simp [State.script, after, todo]
  case neg => simp [State.script, after, Function.update_of_ne hp]

theorem Reaches.script_eq (h : Reaches s s') : s'.script = s.script := by
  induction h
  case refl         => rfl
  case tail _ st hi => exact st.choose_spec.script_eq.trans hi

theorem Reaches.done_prefix {t : Nat → List (Act C M E)} (h : Reaches (start t) s) (p : Nat) :
    s.done p <+: t p := by
  have hs : s.script = t := h.script_eq
  exact ⟨s.todo p, congrFun hs p⟩

-- The messages that the writer of a channel has put into it are those that the reader has got from
-- it, and those still in the queue.
def Conserves (w : Wiring C) (s : State C M E) : Prop :=
  ∀ c, (s.done (w.writer c)).flatMap (Act.puts c) = (s.done (w.reader c)).flatMap (Act.gets c) ++ s.queue c

theorem Conserves.step (o : s.Owned w) (hc : s.Conserves w) (h : Step p s s') : s'.Conserves w := by
  cases h with | @act a t todo en =>
  have ha : a.OwnedBy w p := o p a (todo ▸ List.mem_cons_self)
  intro c
  have hd (f : Act C M E → List M) (p' : Nat) (hf : p' ≠ p → f a = []) :
      ((s.after p a t).done p').flatMap f = (s.done p').flatMap f ++ f a := by
    by_cases hp : p' = p
    case pos => subst hp; simp [after]
    case neg => simp [after, Function.update_of_ne hp, hf hp]
  rw [hd _ _ (Act.puts_eq_nil ha), hd _ _ (Act.gets_eq_nil ha), hc c]
  by_cases hg : a.gets c = []
  case pos => simp [after, Act.effect_puts a hg, hg]
  case neg =>
    cases a
    case get c' m =>
      have he : c' = c := by
        by_contra he
        simp [Act.gets, he] at hg
      subst he
      obtain ⟨r, hr⟩ : ∃ r, s.queue c' = m :: r := List.head?_eq_some_iff.mp en
      simp [after, Act.effect, Act.gets, Act.puts, hr]
    case put     => simp [Act.gets] at hg
    case note    => simp [Act.gets] at hg
    case timeout => simp [Act.gets] at hg

theorem Conserves.reaches (o : s.Owned w) (hc : s.Conserves w) (h : Reaches s s') : s'.Conserves w := by
  induction h
  case refl         => exact hc
  case tail r st hi => exact Conserves.step (o.reaches r) hi st.choose_spec

theorem Conserves.start {script : Nat → List (Act C M E)} : (start script).Conserves w := by
  intro c
  simp [State.start]

-- The messages that the writer of a channel ever puts into it are the first of those that its reader
-- waits for, or the other way round.
def Agrees (w : Wiring C) (s : State C M E) : Prop :=
  ∀ c, (s.script (w.writer c)).flatMap (Act.puts c) <+: (s.script (w.reader c)).flatMap (Act.gets c) ∨
    (s.script (w.reader c)).flatMap (Act.gets c) <+: (s.script (w.writer c)).flatMap (Act.puts c)

theorem Agrees.reaches (ha : s.Agrees w) (h : Reaches s s') : s'.Agrees w := by
  intro c
  rw [h.script_eq]
  exact ha c

theorem Completes.agrees (o : s.Owned w) (hc : s.Conserves w) (c : s.Completes) : s.Agrees w := by
  have ⟨s', r, f⟩ := c
  intro c
  have hd p : s.script p = s'.done p := by
    rw [← r.script_eq, State.script, f p, List.append_nil]
  rw [hd, hd, hc.reaches o r c]
  exact .inr (List.prefix_append _ _)

-- What is at the head of a queue is what its reader waits for.
theorem Agrees.head (ha : s.Agrees w) (o : s.Owned w) (hc : s.Conserves w)
    (h : s.todo p = .get ch m :: t) (hq : s.queue ch = x :: r) : x = m := by
  have hr : w.reader ch = p := o p (.get ch m) (h ▸ List.mem_cons_self)
  have hg : (s.script p).flatMap (Act.gets ch) =
      (s.done p).flatMap (Act.gets ch) ++ m :: t.flatMap (Act.gets ch) := by
    simp [State.script, h, Act.gets]
  have hp : (s.script (w.writer ch)).flatMap (Act.puts ch) =
      (s.done p).flatMap (Act.gets ch) ++ x :: (r ++ (s.todo (w.writer ch)).flatMap (Act.puts ch)) := by
    rw [State.script, List.flatMap_append, hc ch, hr, hq, List.append_assoc, List.cons_append]
  have hs := ha ch
  rw [hr, hg, hp, List.prefix_append_right_inj, List.prefix_append_right_inj,
    List.cons_prefix_cons, List.cons_prefix_cons] at hs
  exact hs.elim And.left (·.left.symm)

-- Scripts are finite, so every state leads to one in which nothing more can be done.
theorem exists_quiescent (h : ∀ p, n ≤ p → s.todo p = []) : ∃ s', Reaches s s' ∧ ∀ s'', ¬Steps s' s'' := by
  induction hk : ∑ p ∈ Finset.range n, (s.todo p).length using Nat.strong_induction_on generalizing s with
  | _ k hi =>
    by_cases hs : ∃ s₁, Steps s s₁
    case neg => exact ⟨s, .refl, not_exists.mp hs⟩
    case pos =>
      obtain ⟨s₁, p, hs⟩ := hs
      have ht : ∀ q, (s₁.todo q).length ≤ (s.todo q).length ∧ (q = p → (s₁.todo q).length < (s.todo q).length) := by
        cases hs with | @act a t todo _ =>
        intro q
        by_cases hq : q = p
        case pos => subst hq; simp [after, todo]
        case neg => simp [after, hq]
      have hp : p < n := by
        by_contra hp
        have := (ht p).right rfl
        simp [h p (by omega)] at this
      have hlt : ∑ p ∈ Finset.range n, (s₁.todo p).length < k := by
        rw [← hk]
        exact Finset.sum_lt_sum (fun q _ => (ht q).left) ⟨p, Finset.mem_range.mpr hp, (ht p).right rfl⟩
      have h₁ : ∀ q, n ≤ q → s₁.todo q = [] := by
        intro q hq
        have := (ht q).left
        rw [h q hq] at this
        exact List.eq_nil_of_length_eq_zero (Nat.le_zero.mp this)
      obtain ⟨s', r, hs'⟩ := hi _ hlt h₁ rfl
      exact ⟨s', .head ⟨p, hs⟩ r, hs'⟩

end State
end Script

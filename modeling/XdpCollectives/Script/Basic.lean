import Mathlib.Logic.Function.Basic
import Mathlib.Logic.Relation
import Mathlib.Data.List.Basic

-- Processes whose behaviour is fixed in advance: each one has a list of actions to do, and they
-- exchange messages over channels that are queues.
namespace Script

inductive Act (C M E : Type)
  | put (outs : List (C × M))
  | get (c : C) (m : M)
  | note (e : E)
  | timeout

abbrev Queues (C M : Type) := C → List M

structure State (C M E : Type) where
  todo  : Nat → List (Act C M E)
  done  : Nat → List (Act C M E)
  queue : Queues C M

-- Every channel has one process that puts messages into it and one that gets them.
structure Wiring (C : Type) where
  writer : C → Nat
  reader : C → Nat

variable {C M E : Type} [DecidableEq C]

def outsOn (c : C) (outs : List (C × M)) : List M :=
  outs.filterMap fun o => if o.1 = c then some o.2 else none

theorem outsOn_eq_nil {c : C} {outs : List (C × M)} (h : ∀ o ∈ outs, o.1 ≠ c) : outsOn c outs = [] := by
  simp only [outsOn, List.filterMap_eq_nil_iff]
  intro o ho
  simp [h o ho]

namespace Act

def Enabled : Act C M E → Queues C M → Prop
  | get c m, q => (q c).head? = some m
  | _,       _ => True

def effect : Act C M E → Queues C M → Queues C M
  | put outs, q => fun c => q c ++ outsOn c outs
  | get c _,  q => Function.update q c (q c).tail
  | _,        q => q

def OwnedBy (w : Wiring C) (p : Nat) : Act C M E → Prop
  | put outs => ∀ o ∈ outs, w.writer o.1 = p
  | get c _  => w.reader c = p
  | _        => True

-- The messages that an action puts into a channel, and those that it gets from it.
def puts (c : C) : Act C M E → List M
  | put outs => outsOn c outs
  | _        => []

def gets (c : C) : Act C M E → List M
  | get c' m => if c' = c then [m] else []
  | _        => []

def input : Act C M E → Option (C × M)
  | get c m => some (c, m)
  | _       => none

variable {w : Wiring C} {p p₁ p₂ : Nat} {a b : Act C M E} {q : Queues C M} {c : C}

theorem puts_single (c c' : C) (m : M) : (put [(c', m)] : Act C M E).puts c = if c = c' then [m] else [] := by
  by_cases h : c = c' <;> simp [puts, outsOn, h, eq_comm]

theorem effect_puts (a : Act C M E) (hg : a.gets c = []) : a.effect q c = q c ++ a.puts c := by
  cases a
  case put  => rfl
  case get c' m =>
    have hc : c ≠ c' := by
      rintro rfl
      simp [gets] at hg
    simp [effect, puts, hc]
  case note => simp [effect, puts]
  case timeout => simp [effect, puts]

theorem puts_eq_nil (h : a.OwnedBy w p) (hc : w.writer c ≠ p) : a.puts c = [] := by
  cases a
  case put =>
    apply outsOn_eq_nil
    intro o ho he
    exact hc <| he ▸ h o ho
  case get     => rfl
  case note    => rfl
  case timeout => rfl

theorem gets_eq_nil (h : a.OwnedBy w p) (hc : w.reader c ≠ p) : a.gets c = [] := by
  cases a
  case get c' m =>
    have : c' ≠ c := fun he => hc (he ▸ h)
    simp [gets, this]
  case put     => rfl
  case note    => rfl
  case timeout => rfl

-- What one process does leaves the head of a queue that another one reads where it is.
theorem effect_head (ha : a.OwnedBy w p) (hc : w.reader c ≠ p) (h : q c = m :: r) :
    ∃ r', a.effect q c = m :: r' := by
  rw [effect_puts a (gets_eq_nil ha hc), h]
  exact ⟨_, rfl⟩

theorem enabled_effect (ha : a.OwnedBy w p₁) (hb : b.OwnedBy w p₂) (hp : p₁ ≠ p₂) (h : b.Enabled q) :
    b.Enabled (a.effect q) := by
  cases b
  case get c m =>
    have ⟨r, hr⟩ : ∃ r, q c = m :: r := List.head?_eq_some_iff.mp h
    have ⟨r', hr'⟩ := effect_head ha (hb ▸ hp.symm) hr
    simp [Enabled, hr']
  case put     => trivial
  case note    => trivial
  case timeout => trivial

theorem effect_comm (ha : a.OwnedBy w p₁) (hb : b.OwnedBy w p₂) (hp : p₁ ≠ p₂) (ea : a.Enabled q)
    (eb : b.Enabled q) : b.effect (a.effect q) = a.effect (b.effect q) := by
  have hput {outs : List (C × M)} {a : Act C M E} {p₁ p₂ : Nat} (hp : p₁ ≠ p₂) (ha : a.OwnedBy w p₁)
      (hb : (put outs : Act C M E).OwnedBy w p₂) (ea : a.Enabled q) :
      (put outs : Act C M E).effect (a.effect q) = a.effect ((put outs : Act C M E).effect q) := by
    funext c
    cases a
    case put outs' =>
      have h₁ := puts_eq_nil (a := (put outs' : Act C M E)) (c := c) ha
      have h₂ := puts_eq_nil (a := (put outs : Act C M E)) (c := c) hb
      simp only [puts] at h₁ h₂
      simp only [effect]
      by_cases hc : w.writer c = p₁
      case pos => rw [h₂ (hc ▸ hp), List.append_nil, List.append_nil]
      case neg => rw [h₁ hc, List.append_nil, List.append_nil]
    case get c' m =>
      have ⟨r, hr⟩ : ∃ r, q c' = m :: r := List.head?_eq_some_iff.mp ea
      by_cases hc : c = c'
      case pos => subst hc; simp [effect, hr]
      case neg => simp [effect, hc]
    case note    => rfl
    case timeout => rfl
  cases a
  case put => exact (hput hp.symm hb ha eb).symm
  case note    => rfl
  case timeout => rfl
  case get c m =>
    cases b
    case put     => exact hput hp ha hb ea
    case note    => rfl
    case timeout => rfl
    case get c' m' =>
      have hc : c ≠ c' := by
        rintro rfl
        exact hp (ha.symm.trans hb)
      simp [effect, hc, hc.symm, Function.update_comm hc]

end Act

namespace State

-- The state in which process `p` has done the action `a`, and has `t` left to do.
def after (s : State C M E) (p : Nat) (a : Act C M E) (t : List (Act C M E)) : State C M E where
  todo  := Function.update s.todo p t
  done  := Function.update s.done p (s.done p ++ [a])
  queue := a.effect s.queue

inductive Step (p : Nat) : State C M E → State C M E → Prop
  | act {s : State C M E} {a : Act C M E} {t : List (Act C M E)}
      (todo : s.todo p = a :: t) (enabled : a.Enabled s.queue) :
      Step p s (s.after p a t)

def Steps (s s' : State C M E) : Prop :=
  ∃ p, Step p s s'

abbrev Reaches : State C M E → State C M E → Prop :=
  Relation.ReflTransGen Steps

def Owned (w : Wiring C) (s : State C M E) : Prop :=
  ∀ p, ∀ a ∈ s.todo p, a.OwnedBy w p

def Finished (s : State C M E) : Prop :=
  ∀ p, s.todo p = []

def Completes (s : State C M E) : Prop :=
  ∃ s', Reaches s s' ∧ s'.Finished

variable {s s' s₁ s₂ : State C M E} {w : Wiring C} {p p₁ p₂ : Nat} {ch : C}

theorem Step.deterministic (h₁ : Step p s s₁) (h₂ : Step p s s₂) : s₁ = s₂ := by
  cases h₁ with | act t₁ _ =>
  cases h₂ with | act t₂ _ =>
  obtain ⟨rfl, rfl⟩ := List.cons.inj (t₁.symm.trans t₂)
  rfl

theorem Owned.step (o : s.Owned w) (h : Step p s s') : s'.Owned w := by
  cases h with | act todo _ =>
  intro p' b hb
  by_cases hp : p' = p
  case pos =>
    subst hp
    simp only [after, Function.update_self] at hb
    exact o p' b (todo ▸ List.mem_cons_of_mem _ hb)
  case neg =>
    simp only [after, Function.update_of_ne hp] at hb
    exact o p' b hb

theorem Owned.reaches (o : s.Owned w) (h : Reaches s s') : s'.Owned w := by
  induction h
  case refl         => exact o
  case tail _ st hi => exact Owned.step hi st.choose_spec

-- The steps of two processes commute.
theorem Step.diamond (o : s.Owned w) (h₁ : Step p₁ s s₁) (h₂ : Step p₂ s s₂) (hp : p₁ ≠ p₂) :
    ∃ s', Step p₂ s₁ s' ∧ Step p₁ s₂ s' := by
  cases h₁ with | @act a t₁ todo₁ en₁ =>
  cases h₂ with | @act b t₂ todo₂ en₂ =>
  have ha : a.OwnedBy w p₁ := o p₁ a (todo₁ ▸ List.mem_cons_self)
  have hb : b.OwnedBy w p₂ := o p₂ b (todo₂ ▸ List.mem_cons_self)
  have e₁ : (s.after p₁ a t₁).todo p₂ = b :: t₂ := by
    simp [after, Function.update_of_ne hp.symm, todo₂]
  have e₂ : (s.after p₂ b t₂).todo p₁ = a :: t₁ := by
    simp [after, Function.update_of_ne hp, todo₁]
  have he : (s.after p₁ a t₁).after p₂ b t₂ = (s.after p₂ b t₂).after p₁ a t₁ := by
    simp only [after, Function.update_of_ne hp, Function.update_of_ne hp.symm,
      Function.update_comm hp, Act.effect_comm ha hb hp en₁ en₂]
  exact ⟨_, .act e₁ (Act.enabled_effect ha hb hp en₂), he ▸ .act e₂ (Act.enabled_effect hb ha hp.symm en₁)⟩

-- A process cannot miss the way to the end.
theorem Completes.step (o : s.Owned w) (c : s.Completes) (h : Step p s s') : s'.Completes := by
  have ⟨t, r, f⟩ := c
  induction r using Relation.ReflTransGen.head_induction_on generalizing p s'
  case refl =>
    cases h with | act todo _ =>
    simp [f p] at todo
  case head s s₁ st r hi =>
    have ⟨p₁, st⟩ := st
    by_cases hp : p = p₁
    case pos =>
      subst hp
      exact ⟨t, h.deterministic st ▸ r, f⟩
    case neg =>
      have ⟨s₂, h₁, h₂⟩ := h.diamond o st hp
      have ⟨t', r', f'⟩ := hi (o.step st) ⟨t, r, f⟩ h₂
      exact ⟨t', .head ⟨p₁, h₁⟩ r', f'⟩

theorem Completes.reaches (o : s.Owned w) (c : s.Completes) (h : Reaches s s') : s'.Completes := by
  induction h
  case refl          => exact c
  case tail r st hi  => exact Completes.step (o.reaches r) hi st.choose_spec

theorem Completes.not_stuck (c : s.Completes) : s.Finished ∨ ∃ s', Steps s s' := by
  have ⟨_, r, f⟩ := c
  cases r using Relation.ReflTransGen.head_induction_on
  case refl      => exact .inl f
  case head st _ => exact .inr ⟨_, st⟩

def start (script : Nat → List (Act C M E)) : State C M E where
  todo    := script
  done _  := []
  queue _ := []

end State
end Script

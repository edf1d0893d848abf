import XdpCollectives.Script.Runs
import Mathlib.Algebra.BigOperators.Group.List.Basic
import Mathlib.Algebra.GroupWithZero.Nat

-- Bounds on what a process has done at any time, from its script.
namespace Script

def total (f : α → Nat) (t : List α) : Nat :=
  (t.map f).sum

section Total

variable {f : α → Nat} {t t₁ t₂ : List α}

@[simp]
theorem total_nil : total f [] = 0 := rfl

@[simp]
theorem total_cons : total f (a :: t) = f a + total f t := by
  simp [total]

@[simp]
theorem total_append : total f (t₁ ++ t₂) = total f t₁ + total f t₂ := by
  simp [total]

theorem total_eq_zero (h : ∀ a ∈ t, f a = 0) : total f t = 0 := by
  induction t <;> simp_all

end Total

-- `f` never counts more than `g` and a credit of `k`.
def Within (f g : α → Nat) : Nat → List α → Prop
  | _, []     => True
  | k, a :: t => f a ≤ g a + k ∧ Within f g (g a + k - f a) t

theorem Within.le {t : List α} (h : Within f g k t) (hu : u <+: t) : total f u ≤ total g u + k := by
  induction t generalizing k u
  case nil =>
    obtain rfl := List.prefix_nil.mp hu
    exact Nat.zero_le _
  case cons a t hi =>
    cases u with
    | nil      => exact Nat.zero_le _
    | cons b u =>
      have ⟨hb, hu⟩ := List.cons_prefix_cons.mp hu
      have hl := h.left
      have hr := hi h.right hu
      subst hb
      simp only [total_cons]
      omega

theorem Within.append {t₁ t₂ : List α} (h₁ : Within f g k t₁)
    (h₂ : Within f g (total g t₁ + k - total f t₁) t₂) : Within f g k (t₁ ++ t₂) := by
  induction t₁ generalizing k
  case nil => simpa [total] using h₂
  case cons a t hi =>
    have hl := h₁.left
    have hr := h₁.right.le List.prefix_rfl
    refine ⟨hl, hi h₁.right ?_⟩
    simp only [total_cons] at h₂
    rwa [show total g t + (g a + k - f a) - total f t = g a + total g t + k - (f a + total f t) by omega]

theorem Within.of_zero {t : List α} (h : ∀ a ∈ t, f a = 0) : Within f g k t := by
  induction t generalizing k
  case nil => trivial
  case cons a t hi =>
    have ha := h a List.mem_cons_self
    exact ⟨by omega, hi fun b hb => h b (List.mem_cons_of_mem _ hb)⟩

-- A part of a script that gives all its credit back.
structure Balanced (f g : α → Nat) (k : Nat) (t : List α) : Prop where
  within : Within f g k t
  total  : total f t = total g t

namespace Balanced

variable {f g : α → Nat} {t t₁ t₂ : List α}

theorem append (h₁ : Balanced f g k t₁) (h₂ : Balanced f g k t₂) : Balanced f g k (t₁ ++ t₂) where
  within := h₁.within.append (by rw [h₁.total, Nat.add_sub_cancel_left]; exact h₂.within)
  total  := by rw [total_append, total_append, h₁.total, h₂.total]

theorem flatten {L : List (List α)} (h : ∀ t ∈ L, Balanced f g k t) : Balanced f g k L.flatten := by
  induction L
  case nil => exact ⟨trivial, rfl⟩
  case cons t L hi =>
    exact (h t List.mem_cons_self).append (hi fun t' ht => h t' (List.mem_cons_of_mem _ ht))

-- Nothing in it counts.
theorem quiet (h : ∀ a ∈ t, f a = 0 ∧ g a = 0) : Balanced f g k t := by
  induction t
  case nil => exact ⟨trivial, rfl⟩
  case cons a t hi =>
    have ha := h a List.mem_cons_self
    have ht := hi fun b hb => h b (List.mem_cons_of_mem _ hb)
    refine ⟨⟨by omega, ?_⟩, by simp [ha, ht.total]⟩
    simpa [ha] using ht.within

end Balanced

variable {C M E : Type} [DecidableEq C]

-- The messages of a kind that an action puts into a channel, or gets from it.
def putting (c : C) (kind : M → Bool) (a : Act C M E) : Nat :=
  (a.puts c).countP kind

def getting (c : C) (kind : M → Bool) (a : Act C M E) : Nat :=
  (a.gets c).countP kind

section Kinds

variable {c c' : C} {kind : M → Bool}

theorem putting_put {outs : List (C × M)} :
    putting c kind (.put outs : Act C M E) = (outsOn c outs).countP kind := rfl

@[simp]
theorem putting_single : putting c kind (.put [(c', m)] : Act C M E) = if c' = c ∧ kind m then 1 else 0 := by
  by_cases hc : c' = c <;> simp [putting_put, outsOn, hc]

@[simp]
theorem putting_get : putting c kind (.get c' m : Act C M E) = 0 := rfl

@[simp]
theorem putting_note : putting c kind (.note e : Act C M E) = 0 := rfl

@[simp]
theorem putting_timeout : putting c kind (.timeout : Act C M E) = 0 := rfl

@[simp]
theorem getting_get : getting c kind (.get c' m : Act C M E) = if c' = c ∧ kind m then 1 else 0 := by
  by_cases hc : c' = c <;> simp [getting, Act.gets, hc]

@[simp]
theorem getting_put {outs : List (C × M)} : getting c kind (.put outs : Act C M E) = 0 := rfl

@[simp]
theorem getting_note : getting c kind (.note e : Act C M E) = 0 := rfl

@[simp]
theorem getting_timeout : getting c kind (.timeout : Act C M E) = 0 := rfl

end Kinds

variable {s : State C M E} {w : Wiring C} {c b : C} {kind : M → Bool}

theorem State.Conserves.total_putting (hc : s.Conserves w) (c : C) (kind : M → Bool) :
    total (putting c kind) (s.done (w.writer c)) =
      total (getting c kind) (s.done (w.reader c)) + (s.queue c).countP kind := by
  have h := congrArg (List.countP kind) (hc c)
  rwa [List.countP_append, List.countP_flatMap, List.countP_flatMap] at h

theorem State.Conserves.getting_le (hc : s.Conserves w) (c : C) (kind : M → Bool) :
    total (getting c kind) (s.done (w.reader c)) ≤ total (putting c kind) (s.done (w.writer c)) := by
  rw [hc.total_putting]
  omega

-- Where every message into `c` but for `k` has been answered through `b`, and every answer is one to a
-- message that has been got, there are `k` messages in `c` at most.
theorem State.Conserves.length_le {answer : M → Bool} (hc : s.Conserves w) (hr : w.reader b = w.writer c)
    (hw : w.writer b = w.reader c)
    (h₁ : total (putting c fun _ => true) (s.done (w.writer c)) ≤
      total (getting b answer) (s.done (w.writer c)) + k)
    (h₂ : total (putting b answer) (s.done (w.reader c)) ≤
      total (getting c fun _ => true) (s.done (w.reader c))) : (s.queue c).length ≤ k := by
  have hp := hc.total_putting c fun _ => true
  have hb := hc.getting_le b answer
  rw [hr, hw] at hb
  rw [List.countP_true] at hp
  omega

end Script

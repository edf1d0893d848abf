import XdpCollectives.Cycle.Basic
import Mathlib.Logic.Function.Basic

-- Queues in circular buffers. The positions of the first element and behind the last one run on, and count modulo the
-- size of the buffer.
namespace Circular

variable {α : Type} {size head tail head' tail' : Nat} {cells : Nat → α} {xs : List α} {x : α}

-- One cell stays free, so that a full buffer is not taken for an empty one.
structure Holds (size : Nat) (cells : Nat → α) (head tail : Nat) (xs : List α) : Prop where
  tail  : tail % size = (head + xs.length) % size
  room  : xs.length < size
  cells : ∀ i x, xs[i]? = some x → cells ((head + i) % size) = x

namespace Holds

theorem nil (h : 0 < size) (cells : Nat → α) (head : Nat) : Holds size cells head head [] :=
  ⟨rfl, h, nofun⟩

-- Only the remainders of the positions matter.
theorem congr (h : Holds size cells head tail xs) (hh : head' % size = head % size) (ht : tail' % size = tail % size) :
    Holds size cells head' tail' xs where
  tail := by rw [ht, h.tail, Nat.add_mod, ← hh, ← Nat.add_mod]
  room := h.room
  cells i x hx := by
    rw [Nat.add_mod, hh, ← Nat.add_mod]
    exact h.cells i x hx

-- And only the cells of the buffer.
theorem agree {cells' : Nat → α} (h : Holds size cells head tail xs) (hc : ∀ i < size, cells' i = cells i) :
    Holds size cells' head tail xs where
  tail := h.tail
  room := h.room
  cells i x hx := (hc _ (Nat.mod_lt _ (Nat.zero_lt_of_lt h.room))).trans (h.cells i x hx)

theorem full_iff (h : Holds size cells head tail xs) : (tail + 1) % size = head % size ↔ xs.length + 1 = size := by
  have hroom := h.room
  rw [Nat.add_mod, h.tail, ← Nat.add_mod, Nat.add_assoc]
  constructor
  · intro he
    by_contra hl
    have := Cycle.add_mod_injOn (k := 0) (show xs.length + 1 < size by omega) (by omega) he
    contradiction
  · intro hl
    rw [hl, Nat.add_mod_right]

theorem empty_iff (h : Holds size cells head tail xs) : head % size = tail % size ↔ xs = [] := by
  have hroom := h.room
  rw [h.tail]
  constructor
  · intro he
    exact List.length_eq_zero_iff.mp (Cycle.add_mod_injOn (j := 0) (by omega) hroom he).symm
  · rintro rfl
    rfl

theorem push (h : Holds size cells head tail xs) (hr : xs.length + 1 < size) (x : α) :
    Holds size (Function.update cells (tail % size) x) head (tail + 1) (xs ++ [x]) where
  tail := by rw [Nat.add_mod, h.tail, ← Nat.add_mod, List.length_append, List.length_singleton, Nat.add_assoc]
  room := by rwa [List.length_append, List.length_singleton]
  cells i y hy := by
    rw [h.tail]
    rcases Nat.lt_trichotomy i xs.length with hi | hi | hi
    · rw [List.getElem?_append_left hi] at hy
      rw [Function.update_of_ne (mt (Cycle.add_mod_injOn (by omega) h.room) (by omega))]
      exact h.cells i y hy
    · subst hi
      rw [List.getElem?_concat_length] at hy
      rw [Function.update_self]
      exact Option.some.inj hy
    · rw [List.getElem?_eq_none (by simp; omega)] at hy
      contradiction

theorem pop (h : Holds size cells head tail (x :: xs)) :
    cells (head % size) = x ∧ Holds size cells (head + 1) tail xs := by
  refine ⟨h.cells 0 x rfl, ?_, Nat.lt_of_succ_lt h.room, fun i y hy => ?_⟩
  · rw [h.tail, List.length_cons, Nat.add_comm xs.length, Nat.add_assoc]
  · rw [Nat.add_assoc, Nat.add_comm 1]
    exact h.cells (i + 1) y hy

end Holds

-- A queue of limited capacity, by itself.
structure Fifo (capacity : Nat) (α : Type) where
  elements : List α
  fits     : elements.length ≤ capacity

namespace Fifo

variable {capacity : Nat} (q : Fifo capacity α)

def empty : Fifo capacity α :=
  ⟨[], Nat.zero_le _⟩

def enqueue (x : α) : Option (Fifo capacity α) :=
  if h : q.elements.length < capacity then some {
    elements := q.elements ++ [x]
    fits     := by rwa [List.length_append, List.length_singleton] }
  else none

def dequeue : Option (α × Fifo capacity α) :=
  match q with
  | ⟨[], _⟩      => none
  | ⟨x :: xs, h⟩ => some (x, ⟨xs, Nat.le_of_succ_le h⟩)

end Fifo

end Circular

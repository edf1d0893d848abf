import XdpCollectives.Kernel.Queue

-- The queues in the maps are separate bounded queues.
namespace Kernel

open Circular Machine

variable {α : Type} {s : Queues α} {q : Fifos α} {qid : BitVec 32} {x y : BitVec 32}

theorem mask_toNat (x : BitVec 32) : (x &&& queueMask).toNat = x.toNat % queueSize := by
  rw [BitVec.toNat_and]
  exact Nat.and_two_pow_sub_one_eq_mod x.toNat 7

theorem mask_eq_iff : x &&& queueMask = y &&& queueMask ↔ x.toNat % queueSize = y.toNat % queueSize := by
  rw [← BitVec.toNat_inj, mask_toNat, mask_toNat]

-- The counters wrap around at a multiple of the size.
theorem succ_mod (x : BitVec 32) : (x + 1).toNat % queueSize = (x.toNat + 1) % queueSize := by
  rw [BitVec.toNat_add, Nat.mod_mod_of_dvd _ (by decide)]
  rfl

theorem flat_toNat (h : qid.toNat < numQueues) (pos : BitVec 32) :
    (flat qid pos).toNat = qid.toNat * queueSize + pos.toNat % queueSize := by
  have hp := Nat.mod_lt pos.toNat (show 0 < queueSize by decide)
  rw [flat, BitVec.toNat_add, mask_toNat, BitVec.toNat_mul, BitVec.toNat_ofNat]
  simp only [numQueues, queueSize] at *
  omega

theorem flat_lt (h : qid.toNat < numQueues) (pos : BitVec 32) :
    qid.toNat * queueSize + pos.toNat % queueSize < numQueues * queueSize := by
  have hp := Nat.mod_lt pos.toNat (show 0 < queueSize by decide)
  simp only [numQueues, queueSize] at *
  omega

-- The cells of a queue.
def Queues.cells (s : Queues α) (qid i : Nat) : α :=
  s.queueMap.values (qid * queueSize + i)

def Represents (s : Queues α) (q : Fifos α) : Prop :=
  ∀ qid : Fin numQueues, Holds queueSize (s.cells qid) (s.headMap.values qid).toNat (s.tailMap.values qid).toNat
    (q qid).elements

-- Nothing of the queue has changed.
structure Untouched (s s' : Queues α) (qid : Nat) : Prop where
  head  : s'.headMap.values qid = s.headMap.values qid
  tail  : s'.tailMap.values qid = s.tailMap.values qid
  cells : ∀ i < queueSize, s'.cells qid i = s.cells qid i

theorem Untouched.refl (s : Queues α) (qid : Nat) : Untouched s s qid :=
  ⟨rfl, rfl, fun _ _ => rfl⟩

theorem Untouched.holds {s' : Queues α} {qid : Nat} {xs : List α} (h : Untouched s s' qid)
    (hh : Holds queueSize (s.cells qid) (s.headMap.values qid).toNat (s.tailMap.values qid).toNat xs) :
    Holds queueSize (s'.cells qid) (s'.headMap.values qid).toNat (s'.tailMap.values qid).toNat xs := by
  rw [h.head, h.tail]
  exact hh.agree h.cells

-- What an element is put into, and what it leaves, in the three maps.
def Queues.pushed (s : Queues α) (qid : Nat) (val : α) : Queues α where
  queueMap := { values :=
    Function.update s.queueMap.values (qid * queueSize + (s.tailMap.values qid).toNat % queueSize) val }
  headMap  := s.headMap
  tailMap  := { values := Function.update s.tailMap.values qid (s.tailMap.values qid + 1) }

def Queues.popped (s : Queues α) (qid : Nat) : Queues α where
  queueMap := s.queueMap
  headMap  := { values := Function.update s.headMap.values qid (s.headMap.values qid + 1) }
  tailMap  := s.tailMap

variable (s) in
theorem pushed_untouched {r : Nat} (qid : Nat) (val : α) (hr : r ≠ qid) : Untouched s (s.pushed qid val) r where
  head := rfl
  tail := Function.update_of_ne hr ..
  cells i hi := by
    refine Function.update_of_ne ?_ ..
    have hp := Nat.mod_lt (s.tailMap.values qid).toNat (show 0 < queueSize by decide)
    simp only [queueSize] at hi hp ⊢
    omega

variable (s) in
theorem popped_untouched {r : Nat} (qid : Nat) (hr : r ≠ qid) : Untouched s (s.popped qid) r where
  head    := Function.update_of_ne hr ..
  tail    := rfl
  cells _ _ := rfl

variable (s) in
theorem pushed_holds {qid : Nat} {xs : List α} (val : α) (hr : xs.length + 1 < queueSize)
    (h : Holds queueSize (s.cells qid) (s.headMap.values qid).toNat (s.tailMap.values qid).toNat xs) :
    Holds queueSize ((s.pushed qid val).cells qid) ((s.pushed qid val).headMap.values qid).toNat
      ((s.pushed qid val).tailMap.values qid).toNat (xs ++ [val]) := by
  refine ((h.push hr val).congr rfl ?_).agree fun i _ => ?_
  · simp only [Queues.pushed, Function.update_self, succ_mod]
  · simp only [Queues.pushed, Queues.cells, Function.update_apply, Nat.add_left_cancel_iff]

variable (s) in
theorem popped_holds {qid : Nat} {xs : List α}
    (h : Holds queueSize (s.cells qid) ((s.headMap.values qid).toNat + 1) (s.tailMap.values qid).toNat xs) :
    Holds queueSize ((s.popped qid).cells qid) ((s.popped qid).headMap.values qid).toNat
      ((s.popped qid).tailMap.values qid).toNat xs := by
  refine h.congr ?_ rfl
  simp only [Queues.popped, Function.update_self, succ_mod]

-- A call with a number that is none of a queue.
theorem step_of_ge (h : numQueues ≤ qid.toNat) :
    (∀ val, queueEnqueue s qid val = (-1, s)) ∧ ∀ out, queueDequeue s qid out = (-1, out, s) := by
  simp [queueEnqueue, queueDequeue, ArrayMap.lookup, Nat.not_lt.mpr h]

section Inside

variable (h : qid.toNat < numQueues)
include h

theorem queueEnqueue_eq (s : Queues α) (val : α) : queueEnqueue s qid val =
    if ((s.tailMap.values qid.toNat).toNat + 1) % queueSize = (s.headMap.values qid.toNat).toNat % queueSize then
      (-1, s)
    else (0, s.pushed qid.toNat val) := by
  simp only [queueEnqueue, ArrayMap.lookup, ArrayMap.update, h, flat_lt h, if_true, mask_eq_iff, succ_mod, flat_toNat h]
  rfl

theorem queueDequeue_eq (s : Queues α) (out : α) : queueDequeue s qid out =
    if (s.headMap.values qid.toNat).toNat % queueSize = (s.tailMap.values qid.toNat).toNat % queueSize then (-1, out, s)
    else (0, s.cells qid.toNat ((s.headMap.values qid.toNat).toNat % queueSize), s.popped qid.toNat) := by
  simp only [queueDequeue, ArrayMap.lookup, ArrayMap.update, h, flat_lt h, if_true, mask_eq_iff, flat_toNat h]
  rfl

end Inside

theorem Represents.zeroed (queueMap : ArrayMap (numQueues * queueSize) α) :
    Represents (.zeroed queueMap) (Fifos.empty : Fifos α) :=
  fun _ => .nil (by decide) _ _

-- A queue has changed as it should, and the other ones have not changed.
theorem Represents.update {s' : Queues α} {r : Fin numQueues} {fifo : Fifo (queueSize - 1) α} (h : Represents s q)
    (hr : Holds queueSize (s'.cells r) (s'.headMap.values r).toNat (s'.tailMap.values r).toNat fifo.elements)
    (hne : ∀ r' : Nat, r' ≠ r → Untouched s s' r') : Represents s' (Function.update q r fifo) := by
  intro r'
  by_cases he : r' = r
  case pos =>
    subst he
    rw [Function.update_self]
    exact hr
  case neg =>
    rw [Function.update_of_ne he]
    exact (hne r' (mt Fin.ext he)).holds (h r')

theorem enqueue_simulates (h : Represents s q) (hq : qid.toNat < numQueues) (val : α) :
    (s.step (.enqueue qid val)).1 = (q.enqueue ⟨qid.toNat, hq⟩ val).1 ∧
      Represents (s.step (.enqueue qid val)).2 (q.enqueue ⟨qid.toNat, hq⟩ val).2 := by
  have hh := h ⟨qid.toNat, hq⟩
  have hfull := hh.full_iff
  rw [Queues.step, queueEnqueue_eq hq, Fifos.enqueue, Fifo.enqueue]
  by_cases hl : (q ⟨qid.toNat, hq⟩).elements.length < queueSize - 1
  case pos =>
    have hn := mt hfull.mp (by omega)
    simp only [hn, if_false, dif_pos hl]
    exact ⟨trivial, h.update (pushed_holds s val (by omega) hh) fun r' hr' => pushed_untouched s _ val hr'⟩
  case neg =>
    have hfits := (q ⟨qid.toNat, hq⟩).fits
    have hy := hfull.mpr (by have : queueSize = 128 := rfl; omega)
    simp only [hy, if_true, dif_neg hl]
    exact ⟨trivial, h⟩

theorem dequeue_simulates (h : Represents s q) (hq : qid.toNat < numQueues) (out : α) :
    (s.step (.dequeue qid out)).1 = (q.dequeue ⟨qid.toNat, hq⟩ out).1 ∧
      Represents (s.step (.dequeue qid out)).2 (q.dequeue ⟨qid.toNat, hq⟩ out).2 := by
  have hh := h ⟨qid.toNat, hq⟩
  have hempty := hh.empty_iff
  rw [Queues.step, queueDequeue_eq hq, Fifos.dequeue]
  generalize hf : q ⟨qid.toNat, hq⟩ = fifo at hh hempty
  match fifo with
  | ⟨[], _⟩ =>
    simp only [hempty.mpr rfl, if_true, Fifo.dequeue]
    exact ⟨trivial, h⟩
  | ⟨x :: xs, hl⟩ =>
    have ⟨hx, hpop⟩ := hh.pop
    have hn := mt hempty.mp (by simp)
    simp only [hn, if_false, Fifo.dequeue]
    exact ⟨by rw [hx], h.update (popped_holds s hpop) fun r' hr' => popped_untouched s _ hr'⟩

theorem step_simulates : Simulates (Represents (α := α)) Queues.step Fifos.step := by
  intro s q call h
  cases call with
  | enqueue qid val =>
    by_cases hq : qid.toNat < numQueues
    case pos =>
      rw [Fifos.step, dif_pos hq]
      exact enqueue_simulates h hq val
    case neg =>
      rw [Fifos.step, dif_neg hq, Queues.step, (step_of_ge (Nat.not_lt.mp hq)).left]
      exact ⟨rfl, h⟩
  | dequeue qid out =>
    by_cases hq : qid.toNat < numQueues
    case pos =>
      rw [Fifos.step, dif_pos hq]
      exact dequeue_simulates h hq out
    case neg =>
      rw [Fifos.step, dif_neg hq, Queues.step, (step_of_ge (Nat.not_lt.mp hq)).right]
      exact ⟨rfl, h⟩

variable (s) in
theorem step_untouched (call : QueueCall α) {r : Nat} (hr : r ≠ call.qid.toNat) : Untouched s (s.step call).2 r := by
  cases call with
  | enqueue qid val =>
    by_cases hq : qid.toNat < numQueues
    case pos =>
      simp only [Queues.step, queueEnqueue_eq hq]
      split
      · exact .refl s r
      · exact pushed_untouched s _ val hr
    case neg =>
      rw [Queues.step, (step_of_ge (Nat.not_lt.mp hq)).left]
      exact .refl s r
  | dequeue qid out =>
    by_cases hq : qid.toNat < numQueues
    case pos =>
      simp only [Queues.step, queueDequeue_eq hq]
      split
      · exact .refl s r
      · exact popped_untouched s _ hr
    case neg =>
      rw [Queues.step, (step_of_ge (Nat.not_lt.mp hq)).right]
      exact .refl s r

-- What can be seen of the calls, and of the maps after them.
structure Independent (queueMap : ArrayMap (numQueues * queueSize) α) (calls : List (QueueCall α)) : Prop where
  answers   : (run Queues.step (.zeroed queueMap) calls).1 = (run Fifos.step .empty calls).1
  untouched : ∀ call r, r ≠ call.qid.toNat →
    Untouched (run Queues.step (.zeroed queueMap) calls).2 ((run Queues.step (.zeroed queueMap) calls).2.step call).2 r
  outside   : ∀ call, numQueues ≤ call.qid.toNat →
    ((run Queues.step (.zeroed queueMap) calls).2.step call).1.ret = -1 ∧
      ((run Queues.step (.zeroed queueMap) calls).2.step call).2 = (run Queues.step (.zeroed queueMap) calls).2

theorem queues_independent (queueMap : ArrayMap (numQueues * queueSize) α) (calls : List (QueueCall α)) :
    Independent queueMap calls where
  answers             := (step_simulates.run (.zeroed queueMap) calls).left
  untouched call r hr := step_untouched _ call hr
  outside call hq     := by
    cases call with
    | enqueue qid val =>
      have hq : numQueues ≤ qid.toNat := hq
      rw [Queues.step, (step_of_ge hq).left]
      exact ⟨rfl, rfl⟩
    | dequeue qid out =>
      have hq : numQueues ≤ qid.toNat := hq
      rw [Queues.step, (step_of_ge hq).right]
      exact ⟨rfl, rfl⟩

end Kernel

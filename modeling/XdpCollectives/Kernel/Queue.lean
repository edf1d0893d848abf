import XdpCollectives.Circular.Basic
import XdpCollectives.Machine.Basic

open Circular

namespace Kernel

def numQueues : Nat := 1024
def queueSize : Nat := 128
def queueMask : BitVec 32 := BitVec.ofNat 32 (queueSize - 1)

-- A map of the type `BPF_MAP_TYPE_ARRAY`.
structure ArrayMap (maxEntries : Nat) (V : Type) where
  values : Nat → V

namespace ArrayMap

variable {maxEntries : Nat} {V : Type} (m : ArrayMap maxEntries V)

def lookup (key : BitVec 32) : Option V :=
  if key.toNat < maxEntries then some (m.values key.toNat) else none

def update (key : BitVec 32) (v : V) : ArrayMap maxEntries V :=
  if key.toNat < maxEntries then { values := Function.update m.values key.toNat v } else m

end ArrayMap

-- The elements are of any type, as the source says of `packet_info`.
structure Queues (α : Type) where
  queueMap : ArrayMap (numQueues * queueSize) α
  headMap  : ArrayMap numQueues (BitVec 32)
  tailMap  : ArrayMap numQueues (BitVec 32)

variable {α : Type}

def flat (qid pos : BitVec 32) : BitVec 32 :=
  qid * BitVec.ofNat 32 queueSize + (pos &&& queueMask)

def queueEnqueue (s : Queues α) (qid : BitVec 32) (val : α) : Int × Queues α :=
  match s.headMap.lookup qid, s.tailMap.lookup qid with
  | some head, some tail =>
    let nextTail := (tail + 1) &&& queueMask
    if nextTail = head &&& queueMask then (-1, s)
    else (0, { s with
      queueMap := s.queueMap.update (flat qid tail) val
      tailMap  := s.tailMap.update qid (tail + 1) })
  | _, _ => (-1, s)

-- With what `*out` is afterwards.
def queueDequeue (s : Queues α) (qid : BitVec 32) (out : α) : Int × α × Queues α :=
  match s.headMap.lookup qid, s.tailMap.lookup qid with
  | some head, some tail =>
    if head &&& queueMask = tail &&& queueMask then (-1, out, s)
    else
      match s.queueMap.lookup (flat qid head) with
      | none     => (-1, out, s)
      | some val => (0, val, { s with headMap := s.headMap.update qid (head + 1) })
  | _, _ => (-1, out, s)

inductive QueueCall (α : Type)
  | enqueue (qid : BitVec 32) (val : α)
  | dequeue (qid : BitVec 32) (out : α)

def QueueCall.qid : QueueCall α → BitVec 32
  | enqueue qid _ | dequeue qid _ => qid

-- The value of a call, and the variable of the caller where it has one.
structure Answer (α : Type) where
  ret : Int
  out : Option α

def Queues.step (s : Queues α) : QueueCall α → Answer α × Queues α
  | .enqueue qid val =>
    let r := queueEnqueue s qid val
    ({ ret := r.1, out := none }, r.2)
  | .dequeue qid out =>
    let r := queueDequeue s qid out
    ({ ret := r.1, out := some r.2.1 }, r.2.2)

-- `head_map` and `tail_map` are full of zeros at first. What is in `queue_map` does not matter.
def Queues.zeroed (queueMap : ArrayMap (numQueues * queueSize) α) : Queues α where
  queueMap := queueMap
  headMap  := { values := fun _ => 0 }
  tailMap  := { values := fun _ => 0 }

-- What the queues are for: a family of separate queues.
abbrev Fifos (α : Type) := Fin numQueues → Fifo (queueSize - 1) α

namespace Fifos

def enqueue (q : Fifos α) (qid : Fin numQueues) (val : α) : Answer α × Fifos α :=
  match (q qid).enqueue val with
  | none      => ({ ret := -1, out := none }, q)
  | some fifo => ({ ret := 0, out := none }, Function.update q qid fifo)

def dequeue (q : Fifos α) (qid : Fin numQueues) (out : α) : Answer α × Fifos α :=
  match (q qid).dequeue with
  | none             => ({ ret := -1, out := some out }, q)
  | some (val, fifo) => ({ ret := 0, out := some val }, Function.update q qid fifo)

def step (q : Fifos α) : QueueCall α → Answer α × Fifos α
  | .enqueue qid val =>
    if h : qid.toNat < numQueues then q.enqueue ⟨qid.toNat, h⟩ val else ({ ret := -1, out := none }, q)
  | .dequeue qid out =>
    if h : qid.toNat < numQueues then q.dequeue ⟨qid.toNat, h⟩ out else ({ ret := -1, out := some out }, q)

def empty : Fifos α :=
  fun _ => .empty

end Fifos
end Kernel

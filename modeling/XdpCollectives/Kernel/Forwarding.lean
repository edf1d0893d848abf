import XdpCollectives.Kernel.Xdp
import XdpCollectives.Kernel.Tc
import XdpCollectives.Kernel.Theorems.Frame
import Mathlib.Logic.Relation

open Memory Wire

namespace Kernel

-- What becomes of one packet that arrives without a mark: the packets that go out of the interface
-- and those that the local UDP stack is handed.
structure Outcome where
  sent   : List Frame := []
  handed : List Frame := []

namespace Outcome

def append (o₁ o₂ : Outcome) : Outcome where
  sent   := o₁.sent ++ o₂.sent
  handed := o₁.handed ++ o₂.handed

def concat (os : List Outcome) : Outcome where
  sent   := os.flatMap sent
  handed := os.flatMap handed

end Outcome

namespace Xdp

-- The driver acts on the verdict on a copy. A copy is never cloned again.
def copyOutcome : Action × Frame → Outcome
  | (.pass, f) | (.clonePass _, f) => { handed := [f] }
  | (.tx, f)                       => { sent := [f] }
  | (.aborted, _) | (.drop, _)     => {}

-- `XDP_CLONE_PASS(k)` passes the packet and reruns the program on the copies `1`, ..., `k` of it.
def handle (maps : Maps) (f : Frame) : Outcome :=
  match kfunc maps ⟨f, none⟩ with
  | (.clonePass k, g) =>
    let copies := (List.range k.toNat).map fun i =>
      copyOutcome (kfunc maps ⟨f, some (BitVec.ofNat 32 (i + 1))⟩)
    Outcome.append { handed := [g] } (Outcome.concat copies)
  | r => copyOutcome r

end Xdp

namespace Tc

def Run.own (r : Run) : Outcome where
  sent   := r.egress ++ if r.action = .redirect then [r.skb.frame] else []
  handed := if r.action = .ok then [r.skb.frame] else []

-- The clones that were sent back to the ingress hook run through the program again.
def handle (maps : Maps) (f : Frame) : Outcome :=
  let r := kfunc maps 0 ⟨f, 0#32⟩
  Outcome.append (Outcome.concat (r.ingress.map fun c => (kfunc maps 0 c).own)) r.own

end Tc

inductive Program
  | xdp
  | tc

def Program.handle : Program → Maps → Frame → Outcome
  | xdp => Xdp.handle
  | tc  => Tc.handle

-- The packets on their way to the program, and those that have arrived at it, that it has
-- transmitted and that the local UDP stack was handed so far.
structure World where
  flight  : List Frame
  arrived : List Frame := []
  sent    : List Frame := []
  handed  : List Frame := []

namespace World

variable (handle : Frame → Outcome)

-- Any packet on its way may be the next to arrive, and what is transmitted comes back.
inductive Step : World → World → Prop
  | arrive {w : World} {l r : List Frame} {f : Frame} {bs : List Frame}
      (flight : w.flight = l ++ f :: r)
      (reflected : List.Forall₂ Frame.Reflected (handle f).sent bs) :
      Step w
        { flight  := l ++ r ++ bs
          arrived := w.arrived ++ [f]
          sent    := w.sent ++ (handle f).sent
          handed  := w.handed ++ (handle f).handed }

abbrev Reaches : World → World → Prop :=
  Relation.ReflTransGen (Step handle)

variable {handle}

theorem exists_reflected {ts bs : List Frame} (h : List.Forall₂ Frame.Reflected ts bs) (hb : b ∈ bs) :
    ∃ t ∈ ts, t.Reflected b := by
  induction h
  case nil => contradiction
  case cons t _ _ _ hr _ hi =>
    cases List.mem_cons.mp hb with
    | inl he => exact ⟨t, List.mem_cons_self, he ▸ hr⟩
    | inr hm =>
      have ⟨t, ht, hr⟩ := hi hm
      exact ⟨t, List.mem_cons_of_mem _ ht, hr⟩

-- The packets may come back with no other change than that of their source address.
theorem exists_forall₂_reflected (ts : List Frame) : ∃ bs, List.Forall₂ Frame.Reflected ts bs := by
  induction ts
  case nil => exact ⟨[], .nil⟩
  case cons t _ hi =>
    have ⟨bs, hbs⟩ := hi
    refine ⟨{ t with data := t.data.store (w := 4) 26 (bpfHtonl grecaleIp) } :: bs, .cons ?_ hbs⟩
    exact {
      len   := rfl
      data  := fun j _ _ => Mem.store_outside (by omega)
      saddr := Mem.load_store_same .. }

theorem Step.exists_of_flight {w : World} (h : w.flight ≠ []) : ∃ w', Step handle w w' := by
  have ⟨f, r, hf⟩ := List.exists_cons_of_ne_nil h
  have ⟨bs, hbs⟩ := exists_forall₂_reflected (handle f).sent
  exact ⟨_, .arrive (l := []) hf hbs⟩

theorem Step.flight_ne_nil {w w' : World} (s : Step handle w w') : w.flight ≠ [] := by
  have ⟨h, _⟩ := s
  simp [h]

end World

-- `num_process` holds `n` and `proc_to_address` has an entry for the pairs of distinct ranks. The
-- ranks are non-negative values of the type `int`.
structure Maps.Complete (maps : Maps) (n : Nat) : Prop where
  fits          : n ≤ 2 ^ 31
  numProcess    : ∃ v, maps.numProcess 0#32 = some v ∧ v.toNat = n
  procToAddress : ∀ s < n, ∀ d < n,
    (maps.procToAddress ⟨BitVec.ofNat 32 s, BitVec.ofNat 32 d⟩).isSome ↔ s ≠ d

end Kernel

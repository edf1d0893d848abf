import XdpCollectives.Mpi.Theorems.Agreement
import XdpCollectives.Mpi.Theorems.Doubled

-- Whether the connections carry nothing over from one call to the next.
namespace Mpi

open Memory Wire Process Script

-- What two ranks have sent and received in a call is the same, a rank that begins a call finds nothing
-- of earlier ones in its connections, and it does not wait for a rank that has left the call.
structure Aligned (n : Nat) (s : Net Note) : Prop where
  paired : ∀ p < n, ∀ q < n, ∀ i, Left i (s.events p) → Left i (s.events q) →
    sentTo q (during opens i (s.events p)) = recvFrom p (during opens i (s.events q))
  fresh  : ∀ p < n, ∀ q < n, ∀ i, (s.events q).getLast? = some (.note (.enter i)) →
    s.tcp p q = (sentTo q (since opens i (s.events p))).flatten
  served : ∀ p < n, ∀ q < n, ∀ i len k, Left i (s.events p) → ¬Left i (s.events q) → s.prog q = .recv p len k →
    s.tcp p q ≠ []

variable {n root : Nat} {f : Forwarder} {garbage : Nat → Mem} {bufs : Nat → Nat → Mem} {s : Net Note}

section Plans

variable {source : Nat → Nat} {cs : List Call} {os : List Outcome} {P' : Nat → ProcessInfo} {a : Process.Plan Note}
  {i p q : Nat}

theorem round_tail_flatMap {o : Outcome} {g : Process.Act Note → List Bytes} (hg : ∀ e, g (.note e) = []) (hr : p < n) :
    (round n i o p).tail.flatMap g = (round n i o p).flatMap g := by
  rw [round, if_pos hr, List.tail_cons, List.flatMap_cons, hg, List.nil_append]

variable (h : Plan (lossless n f) n source bufs 0 cs (Plan.ranks n garbage) os P')
  (ra : (State.start (Plan.script n os)).Reaches a) (hsim : Sim (lossless n f) (fun _ => .ret ()) s a)
include h ra hsim

theorem plan_paired (hp : p < n) (hq : q < n) (hlp : Left i (s.events p)) (hlq : Left i (s.events q)) :
    sentTo q (during opens i (s.events p)) = recvFrom p (during opens i (s.events q)) := by
  have ⟨o, ho, hdp⟩ := Plan.during_of_left h.conducted (ra.done_prefix p) (hsim.events p) hp hlp
  have ⟨o', ho', hdq⟩ := Plan.during_of_left h.conducted (ra.done_prefix q) (hsim.events q) hq hlq
  obtain rfl : o = o' := Option.some.inj (ho.symm.trans ho')
  have hm : round n i o ∈ rounds n 0 os := by
    apply List.mem_of_getElem? (i := i)
    rw [rounds_getElem?, ho, Option.map_some, Nat.zero_add]
  rw [sentTo_eq (during_matches (hsim.events p) i), recvFrom_eq (during_matches (hsim.events q) i), hdp, hdq,
    round_tail_flatMap (fun _ => rfl) hp, round_tail_flatMap (fun _ => rfl) hq]
  exact (h.drains _ hm).puts_eq_gets (h.owned _ hm) (.tcp p q)

theorem plan_fresh (hp : p < n) (hq : q < n) (hl : (s.events q).getLast? = some (.note (.enter i))) :
    s.tcp p q = (sentTo q (since opens i (s.events p))).flatten := by
  have ⟨t, ht⟩ := List.getLast?_eq_some_iff.mp <| (getLast?_matches (hsim.events q)).mp hl
  have hupto : t = upto (rounds n 0 os) i q := by
    have := (h.sections hq).opened (ht ▸ ra.done_prefix q) (i := i) rfl
    rwa [← List.map_take] at this
  have hg : (a.done q).flatMap (Act.gets (.tcp p q)) = (upto (rounds n 0 os) i q).flatMap (Act.gets (.tcp p q)) := by
    rw [ht, hupto, List.flatMap_append, List.flatMap_singleton]
    exact List.append_nil _
  have hqueue := queue_eq (w := wiring source) (c := .tcp p q) h.drains h.owned (h.conserves ra) (ra.done_prefix p) hg
  have hsince := (h.sections hp).since_eq (ra.done_prefix p) i
  rw [← List.map_take] at hsince
  rw [hsim.tcp, hqueue, sentTo_eq (since_matches (hsim.events p) i), hsince]
  rfl

theorem plan_served (hp : p < n) (hq : q < n) {len : Nat} {k : Bytes → Program Unit} (hlp : Left i (s.events p))
    (hlq : ¬Left i (s.events q)) (hk : s.prog q = .recv p len k) : s.tcp p q ≠ [] := by
  obtain ⟨hi, hup⟩ := Plan.upto_of_left h.conducted (ra.done_prefix p) (hsim.events p) hp hlp
  obtain ⟨m, u, ht, hm⟩ : ∃ m u, a.todo q = .get (.tcp p q) m :: u ∧ 0 < m.length := by
    have hpr := hsim.prog q
    rw [hk] at hpr
    generalize a.todo q = t at hpr
    generalize hy : (Prog.ret () : Program Unit) = y at hpr
    cases hpr with
    | refl => contradiction
    | recv hlen hpos _ => exact ⟨_, _, rfl, by omega⟩
  have hr : a.done q ++ [.get (.tcp p q) m] <+: upto (rounds n 0 os) (i + 1) q := by
    have hs : a.done q ++ a.todo q = Plan.script n os q := congrFun ra.script_eq q
    have h₁ : a.done q ++ [.get (.tcp p q) m] <+: Plan.script n os q := by
      rw [← hs, ht]
      exact ⟨u, by simp⟩
    have h₂ : upto (rounds n 0 os) (i + 1) q <+: Plan.script n os q := upto_isPrefix _ _ _
    refine (List.prefix_or_prefix_of_prefix h₁ h₂).resolve_right fun hpre => hlq ?_
    have hmem : .note (.leave i 0 (os[i].buf q)) ∈ upto (rounds n 0 os) (i + 1) q := by
      rw [upto, List.take_add_one, rounds_getElem?, List.getElem?_eq_getElem hi]
      simp [round, hq]
    have := hpre.subset hmem
    rw [List.mem_append, List.mem_singleton] at this
    exact ⟨_, _, (note_mem_iff (hsim.events q)).mpr (this.resolve_right (by simp))⟩
  have hne := queue_ne_nil (w := wiring source) (c := .tcp p q) h.drains h.owned (h.conserves ra) hup hr
  obtain ⟨x, r, hx⟩ := List.exists_cons_of_ne_nil hne
  have hag := (h.completes.agrees h.start_owned .start).reaches (w := wiring source) ra
  have hhead := hag.head (h.start_owned.reaches ra) (h.conserves ra) ht hx
  rw [hsim.tcp, hx, hhead]
  intro he
  have := congrArg List.length he
  rw [List.flatten_cons, List.length_append, List.length_nil] at this
  omega

end Plans

theorem Plan.aligned {source : Nat → Nat} {cs : List Call} {os : List Outcome} {P' : Nat → ProcessInfo}
    (h : Plan (lossless n f) n source bufs 0 cs (Plan.ranks n garbage) os P')
    (hr : Net.Reaches (lossless n f) (network n garbage bufs cs) s) : Aligned n s := by
  have ⟨a, ra, hsim⟩ := h.reaches hr
  exact ⟨fun p hp q hq i => plan_paired h ra hsim hp hq, fun p hp q hq i => plan_fresh h ra hsim hp hq,
    fun p hp q hq i len k => plan_served h ra hsim hp hq⟩

end Mpi

import XdpCollectives.Mpi.Theorems.Barrier
import XdpCollectives.Mpi.Theorems.Observed

-- Which ranks know that all others have entered a barrier when they leave it.
namespace Mpi

open Memory Wire Process Script

-- How often a rank has passed the token on, and taken it.
def passes (n r : Nat) : Process.Act Note → Nat :=
  putting (.tcp r ((r + 1) % n)) fun _ => true

def takes (n r : Nat) : Process.Act Note → Nat :=
  getting (.tcp (if r = 0 then n - 1 else r - 1) r) fun _ => true

section Counts

variable {n r j : Nat} {P : Nat → ProcessInfo} {o : Outcome}

theorem leaves_passes (hn : 2 ≤ n) (hr : r < n) (ho : o.flow = barrierFlow n P) :
    Balanced leaves (passes n r) 0 (round n j o r) := by
  rw [round, if_pos hr, ho, proj_barrierFlow]
  by_cases h0 : r = 0
  case pos =>
    subst h0
    constructor <;> simp [Within, leaves, passes, closing, Nat.mod_eq_of_lt hn]
  case neg => constructor <;> simp [Within, leaves, passes, closing, h0, hr]

theorem passes_enters (hn : 2 ≤ n) (hr : r < n) (ho : o.flow = barrierFlow n P) :
    Balanced (passes n r) enters 0 (round n j o r) := by
  rw [round, if_pos hr, ho, proj_barrierFlow]
  by_cases h0 : r = 0
  case pos =>
    subst h0
    constructor <;> simp [Within, enters, passes, opening, Nat.mod_eq_of_lt hn]
  case neg => constructor <;> simp [Within, enters, passes, opening, h0, hr]

theorem leaves_takes (hr : r < n) (ho : o.flow = barrierFlow n P) :
    Balanced leaves (takes n r) 0 (round n j o r) := by
  rw [round, if_pos hr, ho, proj_barrierFlow]
  by_cases h0 : r = 0
  case pos =>
    subst h0
    constructor <;> simp [Within, leaves, takes, closing]
  case neg => constructor <;> simp [Within, leaves, takes, closing, h0, hr]

-- Rank 0 passes the token on before it takes it.
theorem passes_takes (h0 : r ≠ 0) (hr : r < n) (ho : o.flow = barrierFlow n P) :
    Balanced (passes n r) (takes n r) 0 (round n j o r) := by
  rw [round, if_pos hr, ho, proj_barrierFlow]
  constructor <;> simp [Within, passes, takes, h0, hr]

end Counts

-- No rank has entered fewer barriers than rank `r` has left.
def Waits (n r : Nat) (s : Net Note) : Prop :=
  ∀ p < n, returns (s.events r) ≤ entries (s.events p)

variable {n r K : Nat} {f : Forwarder} {garbage : Nat → Mem} {bufs : Nat → Nat → Mem} {s : Net Note}

theorem waits_of_last (hn : 2 ≤ n) (hr : r = 0 ∨ r + 1 = n)
    (h : Net.Reaches (lossless n f) (network n garbage bufs (List.replicate K .barrier)) s) : Waits n r s := by
  have ⟨os, hp, _, hf⟩ := barriers_plan (lossless n f) id hn (Plan.ranks_ranked n garbage) bufs 0 K
  have ⟨a, ra, hs⟩ := hp.reaches h
  have hc := hp.conserves ra
  have hle {f g : Process.Act Note → Nat} {q : Nat} (hb : ∀ j, ∀ o ∈ os, Balanced f g 0 (round n j o q)) :
      total f (a.done q) ≤ total g (a.done q) :=
    (Plan.rounds_balanced hb).within.le (ra.done_prefix q)
  -- The token comes from the rank before, and the first one to have it is rank 0.
  have hstep q (hq : q + 1 < n) : total (passes n (q + 1)) (a.done (q + 1)) ≤ total (passes n q) (a.done q) := by
    have h₁ := hle fun j o ho => passes_takes (j := j) (Nat.succ_ne_zero q) hq (hf o ho)
    have h₂ := hc.getting_le (.tcp q (q + 1)) fun _ => true
    simp only [passes, Nat.mod_eq_of_lt hq] at h₁ ⊢
    exact h₁.trans h₂
  have hdown k q (hq : q + k < n) : total (passes n (q + k)) (a.done (q + k)) ≤ total (passes n q) (a.done q) := by
    induction k with
    | zero => exact Nat.le_refl _
    | succ k hi => exact (hstep (q + k) hq).trans (hi (by omega))
  have hlast : total leaves (a.done r) ≤ total (passes n (n - 1)) (a.done (n - 1)) := by
    rcases hr with rfl | hr
    · have h₁ := hle fun j o ho => leaves_takes (j := j) (show 0 < n by omega) (hf o ho)
      have h₂ := hc.getting_le (.tcp (n - 1) 0) fun _ => true
      simp only [passes, Nat.sub_add_cancel (show 1 ≤ n by omega), Nat.mod_self]
      exact h₁.trans h₂
    · obtain rfl : r = n - 1 := by omega
      exact hle fun j o ho => leaves_passes hn (by omega) (hf o ho)
  intro p hp
  have he := hle fun j o ho => passes_enters (j := j) hn hp (hf o ho)
  have hd := hdown (n - 1 - p) p (by omega)
  rw [show p + (n - 1 - p) = n - 1 by omega] at hd
  rw [returns_eq (hs.events r), entries_eq (hs.events p)]
  exact hlast.trans (hd.trans he)

-- The ranks behind `r` have done nothing yet, and `r` leaves the barrier.
def earlyFlow (n : Nat) (P : Nat → ProcessInfo) (r : Nat) (buf : Mem) : List (Nat × Process.Act Note) :=
  tag 0 [.note (.enter 0), .put [(.tcp 0 1, token (P 0))]] ++
  (((List.range' 1 r).flatMap fun q =>
    tag q [.note (.enter 0), .get (.tcp (q - 1) q) (token (P (q - 1))), .put [(.tcp q ((q + 1) % n), token (P q))]]) ++
  tag r [.note (.leave 0 0 buf)])

theorem proj_earlyFlow (P : Nat → ProcessInfo) (h0 : r ≠ 0) (buf : Mem) (q : Nat) :
    proj q (earlyFlow n P r buf) =
      if q = 0 then [.note (.enter 0), .put [(.tcp 0 1, token (P 0))]]
      else if q ≤ r then
        [.note (.enter 0), .get (.tcp (q - 1) q) (token (P (q - 1))),
          .put [(.tcp q ((q + 1) % n), token (P q))]] ++ if q = r then [.note (.leave 0 0 buf)] else []
      else [] := by
  rw [earlyFlow, proj_append, proj_append, proj_each List.nodup_range', proj_tag, proj_tag]
  have hm : q ∈ List.range' 1 r ↔ q ≠ 0 ∧ q ≤ r := by
    simp only [List.mem_range'_1]
    omega
  by_cases hq : q = 0
  case pos =>
    subst hq
    simp [h0, hm]
  case neg =>
    by_cases hle : q ≤ r
    case pos => simp [hq, Ne.symm hq, hle, hm, eq_comm]
    case neg => simp [hq, Ne.symm hq, hle, hm, show r ≠ q by omega]

theorem earlyFlow_flow (P : Nat → ProcessInfo) (hr : r + 1 < n) (buf : Mem) :
    Flow (fun _ => []) (earlyFlow n P r buf) (only (.tcp r ((r + 1) % n)) (token (P r))) := by
  have h₁ := (Flow.note (fun _ => []) 0 (Note.enter 0)).append (Flow.puts _ 0 (Chan.tcp 0 1) [token (P 0)])
  have h₂ k : k ≤ r → Flow (only (.tcp 0 (1 % n)) (token (P 0)))
      ((List.range' 1 k).flatMap fun q => tag q [.note (Note.enter 0), .get (.tcp (q - 1) q) (token (P (q - 1))),
        .put [(.tcp q ((q + 1) % n), token (P q))]])
      (only (.tcp k ((k + 1) % n)) (token (P k))) := by
    induction k with
    | zero => exact fun _ => rfl
    | succ k hi =>
      intro hk
      rw [List.range'_concat, List.flatMap_append, List.flatMap_singleton]
      refine (hi (by omega)).append ?_
      rw [Nat.mod_eq_of_lt (by omega), show 1 + 1 * k = k + 1 by omega]
      exact (Flow.note _ _ _).append (pass_flow _ _ _ _ _)
  have h₂ := h₂ r (Nat.le_refl r)
  rw [Nat.mod_eq_of_lt (show 1 < n by omega)] at h₂
  exact h₁.append (h₂.append (Flow.note _ r _))

-- A rank in between goes on when it has passed the token on, whatever the ranks behind it do.
theorem returns_early (f : Forwarder) (garbage : Nat → Mem) (bufs : Nat → Nat → Mem) (hK : 0 < K)
    (h0 : r ≠ 0) (hr : r + 1 < n) :
    ∃ s, Net.Reaches (lossless n f) (network n garbage bufs (List.replicate K .barrier)) s ∧
      returns (s.events r) = 1 ∧ entries (s.events (r + 1)) = 0 := by
  obtain ⟨os, hp, hl, hf⟩ := barriers_plan (lossless n f) id (by omega) (Plan.ranks_ranked n garbage) bufs 0 K
  cases os with
  | nil => simp at hl; omega
  | cons o os =>
    have hpre q : proj q (earlyFlow n (Plan.ranks n garbage) r (o.buf r)) <+: Plan.script n (o :: os) q := by
      have hs : round n 0 o q <+: Plan.script n (o :: os) q := by
        rw [Plan.script, rounds, List.map_cons, List.flatten_cons]
        exact List.prefix_append _ _
      refine List.IsPrefix.trans ?_ hs
      rw [proj_earlyFlow _ h0, round, hf o List.mem_cons_self, proj_barrierFlow]
      by_cases hq : q = 0
      case pos =>
        subst hq
        simp [show 0 < n by omega]
      case neg =>
        by_cases hle : q ≤ r
        case pos => by_cases hr' : q = r <;> simp [hq, hle, show q < n by omega, hr', h0, show r < n by omega]
        case neg => simp [hq, hle]
    obtain ⟨s, rs, he⟩ := hp.lift (earlyFlow_flow _ hr (o.buf r)) hpre
    refine ⟨s, rs, ?_, ?_⟩
    · rw [returns_eq (he r), proj_earlyFlow _ h0]
      simp [h0, leaves, closing]
    · rw [entries_eq (he (r + 1)), proj_earlyFlow _ h0]
      simp

-- Only the first and the last rank can rely on the barrier.
theorem barrier_waits_iff (f : Forwarder) (garbage : Nat → Mem) (bufs : Nat → Nat → Mem) (hn : 2 ≤ n)
    (hK : 0 < K) (hr : r < n) :
    (∀ s, Net.Reaches (lossless n f) (network n garbage bufs (List.replicate K .barrier)) s → Waits n r s) ↔
      r = 0 ∨ r + 1 = n := by
  refine ⟨fun h => ?_, fun h s => waits_of_last hn h⟩
  by_contra hne
  have ⟨s, rs, hs, he⟩ := returns_early f garbage bufs hK (r := r) (n := n) (by omega) (by omega)
  have := h s rs (r + 1) (by omega)
  omega

theorem barrier_waits_two :
    (∀ s, Net.Reaches (lossless 2 .id) (network 2 (fun _ _ => 0) (fun _ _ _ => 0) [.barrier]) s → Waits 2 1 s) ↔
      1 = 0 ∨ 1 + 1 = 2 :=
  barrier_waits_iff .id (fun _ _ => 0) (fun _ _ _ => 0) (K := 1) (by decide) (by decide) (by decide)

theorem barrier_waits_not_three :
    ∃ s, Net.Reaches (lossless 3 .id) (network 3 (fun _ _ => 0) (fun _ _ _ => 0) [.barrier]) s ∧
      returns (s.events 1) = 1 ∧ entries (s.events 2) = 0 :=
  returns_early .id (fun _ _ => 0) (fun _ _ _ => 0) (K := 1) (by decide) (by decide) (by decide)

end Mpi

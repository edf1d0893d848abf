import XdpCollectives.Mpi.Theorems.Plans
import XdpCollectives.Mpi.Theorems.Parts
import XdpCollectives.Cycle.Basic

namespace Mpi

open Memory Wire Process Script

namespace ProcessInfo

variable {p : ProcessInfo}

theorem next_lt (hn : 2 ≤ p.size) : p.next < p.size :=
  Nat.mod_lt _ (by omega)

theorem prev_lt (hn : 2 ≤ p.size) : p.prev < p.size :=
  Nat.mod_lt _ (by omega)

theorem next_ne (hp : p.rank < p.size) (hn : 2 ≤ p.size) : p.next ≠ p.rank :=
  Cycle.add_mod_ne hp (by omega) (by omega)

theorem prev_ne (hp : p.rank < p.size) (hn : 2 ≤ p.size) : p.prev ≠ p.rank := by
  rw [prev, Nat.add_sub_assoc (by omega)]
  exact Cycle.add_mod_ne hp (by omega) (by omega)

end ProcessInfo

-- What goes round: a header and an `int`.
def token (p : ProcessInfo) : Bytes :=
  (notice p .int p.next 9999).encode ++ List.replicate 4 0

theorem token_length (p : ProcessInfo) : (token p).length = 52 := by
  rw [token, List.length_append, Header.encode_length, List.length_replicate]
  rfl

theorem mpiBarrierRing_performs {μ : Medium} {p : ProcessInfo} (hp : p.rank < p.size) (hn : 2 ≤ p.size)
    (q : ProcessInfo) :
    Performs μ p.rank (mpiBarrierRing p)
      (if p.rank = 0 then
        [.put [(.tcp p.rank p.next, token p)], .get (.tcp p.prev p.rank) (token q)]
      else [.get (.tcp p.prev p.rank) (token q), .put [(.tcp p.rank p.next, token p)]])
      (.ret 0) := by
  have hs (dummy : Mem) (hd : payload 4 1 dummy = List.replicate 4 0) :
      Performs μ p.rank (_mpiSendTcp p dummy 1 .int p.rank p.next 9999 .send)
        [.put [(.tcp p.rank p.next, token p)]] (.ret 1) := by
    rw [token, ← hd]
    exact _mpiSendTcp_performs _ hp (ProcessInfo.next_lt hn) (ProcessInfo.next_ne hp hn) rfl
      Nat.one_pos (by decide) 9999
  have hr : Performs μ p.rank (_mpiRecvTcp p (fun _ => 0) 1 .int p.prev)
      [.get (.tcp p.prev p.rank) (token q)]
      (.ret (1, restored 4 1 .int (List.replicate 4 0) fun _ => 0)) :=
    _mpiRecvTcp_performs (ProcessInfo.prev_lt hn) (ProcessInfo.prev_ne hp hn) rfl Nat.one_pos
      (by decide) (List.length_replicate ..)
  rw [mpiBarrierRing]
  split
  · exact (hs _ (by decide)).seq <| hr.map rfl
  · exact hr.seq <| (hs _ (by decide)).map rfl

-- The token starts at rank 0 and ends there.
def barrierFlow (n : Nat) (P : Nat → ProcessInfo) : List (Nat × Process.Act Note) :=
  tag 0 [.put [(.tcp 0 1, token (P 0))]] ++
  (((List.range' 1 (n - 1)).flatMap fun r =>
    tag r [.get (.tcp (r - 1) r) (token (P (r - 1))), .put [(.tcp r ((r + 1) % n), token (P r))]]) ++
  tag 0 [.get (.tcp (n - 1) 0) (token (P (n - 1)))])

def barrierOutcome (n : Nat) (P : Nat → ProcessInfo) (b : Nat → Mem) : Outcome where
  flow := barrierFlow n P
  buf  := b
  proc := P

variable {n : Nat} {P : Nat → ProcessInfo}

theorem proj_barrierFlow (P : Nat → ProcessInfo) (r : Nat) :
    proj r (barrierFlow n P) =
      if r = 0 then
        [.put [(.tcp 0 1, token (P 0))], .get (.tcp (n - 1) 0) (token (P (n - 1)))]
      else if r < n then
        [.get (.tcp (r - 1) r) (token (P (r - 1))), .put [(.tcp r ((r + 1) % n), token (P r))]]
      else [] := by
  rw [barrierFlow, proj_append, proj_append, proj_each List.nodup_range', proj_tag, proj_tag]
  by_cases hr : r = 0
  case pos =>
    subst hr
    simp
  case neg =>
    have hm : r ∈ List.range' 1 (n - 1) ↔ r < n := by
      simp only [List.mem_range'_1]
      omega
    simp [hr, Ne.symm hr, hm]

-- A queue with one message, and no other ones.
def only (c : Chan) (m : Bytes) : Queues Chan Bytes :=
  Function.update (fun _ => []) c [m]

theorem pass_flow (r : Nat) (c c' : Chan) (m m' : Bytes) :
    Flow (only c m) (tag r [.get c m, (.put [(c', m')] : Process.Act Note)]) (only c' m') := by
  have h₁ := Flow.gets [m] [] (E := Note) (q := only c m) (c := c) r (by simp [only])
  have h₂ := Flow.puts (E := Note) (fun _ => []) r c' [m']
  have he : Function.update (only c m) c [] = fun _ => [] := by
    rw [only, Function.update_idem]
    exact Function.update_eq_self c _
  rw [he] at h₁
  exact h₁.append h₂

theorem barrier_flow (hn : 2 ≤ n) (P : Nat → ProcessInfo) :
    Flow (fun _ => []) (barrierFlow n P) fun _ => [] := by
  have h₁ := Flow.puts (E := Note) (fun _ => []) 0 (Chan.tcp 0 1) [token (P 0)]
  have h₃ := Flow.gets ([token (P (n - 1))]) [] (E := Note) (q := only (.tcp (n - 1) 0) (token (P (n - 1))))
    (c := .tcp (n - 1) 0) 0 (by simp [only])
  have he : Function.update (only (.tcp (n - 1) 0) (token (P (n - 1)))) (.tcp (n - 1) 0) [] = fun _ => [] := by
    rw [only, Function.update_idem]
    exact Function.update_eq_self (Chan.tcp (n - 1) 0) _
  rw [he] at h₃
  -- The ranks from 1 on pass the token on, one after the other.
  have h₂ k : k < n → Flow (only (.tcp 0 (1 % n)) (token (P 0)))
      ((List.range' 1 k).flatMap fun r =>
        tag r [.get (.tcp (r - 1) r) (token (P (r - 1))),
          (.put [(.tcp r ((r + 1) % n), token (P r))] : Process.Act Note)])
      (only (.tcp k ((k + 1) % n)) (token (P k))) := by
    induction k with
    | zero => exact fun _ => rfl
    | succ k hi =>
      intro hk
      rw [List.range'_concat, List.flatMap_append, List.flatMap_singleton]
      refine (hi (by omega)).append ?_
      rw [Nat.mod_eq_of_lt hk, show 1 + 1 * k = k + 1 by omega]
      exact pass_flow _ _ _ _ _
  have h₂ := h₂ (n - 1) (by omega)
  rw [Nat.mod_eq_of_lt hn, Nat.sub_add_cancel (by omega), Nat.mod_self] at h₂
  exact h₁.append (h₂.append h₃)

-- A rank puts its own token and gets the one of another rank, both over TCP.
theorem mem_barrierFlow {r : Nat} {a : Process.Act Note} (ha : a ∈ proj r (barrierFlow n P)) :
    (∃ q, a = .put [(.tcp r q, token (P r))]) ∨ ∃ q, a = .get (.tcp q r) (token (P q)) := by
  rw [proj_barrierFlow] at ha
  split at ha
  case isTrue h =>
    simp only [List.mem_cons, List.not_mem_nil, or_false] at ha
    rcases ha with rfl | rfl
    · exact .inl ⟨1, by rw [h]⟩
    · exact .inr ⟨n - 1, by rw [h]⟩
  case isFalse =>
    split at ha
    case isTrue  =>
      simp only [List.mem_cons, List.not_mem_nil, or_false] at ha
      rcases ha with rfl | rfl
      · exact .inr ⟨r - 1, rfl⟩
      · exact .inl ⟨(r + 1) % n, rfl⟩
    case isFalse => contradiction

-- The token is longer than an acknowledgement.
theorem barrierFlow_polite (P : Nat → ProcessInfo) (source : Nat → Nat) :
    Polite source (barrierFlow n P) where
  owned r a ha := by
    rcases mem_barrierFlow ha with ⟨_, rfl⟩ | ⟨_, rfl⟩ <;> simp [Act.OwnedBy, wiring]
  spends q := by
    apply Balanced.quiet
    intro a ha
    rcases mem_barrierFlow ha with ⟨_, rfl⟩ | ⟨_, rfl⟩ <;> simp [isHeader, token_length, mpiHeader]
  answers q := by
    apply Balanced.quiet
    intro a ha
    rcases mem_barrierFlow ha with ⟨_, rfl⟩ | ⟨_, rfl⟩ <;> simp [isHeader, token_length, mpiHeader]

theorem barrier_plays (μ : Medium) (source : Nat → Nat) (hn : 2 ≤ n) (hP : Ranked n P) (b : Nat → Mem) :
    Plays μ n source .barrier P b (barrierOutcome n P b) where
  performs := by
    intro r hr
    have ⟨hrank, hsize⟩ := hP r hr
    have hnext : (P r).next = (r + 1) % n := by rw [ProcessInfo.next, hrank, hsize]
    have hprev : (P r).prev = if r = 0 then n - 1 else r - 1 := by
      rw [ProcessInfo.prev, hrank, hsize]
      split
      case isTrue h => rw [h, Nat.zero_add, Nat.mod_eq_of_lt (by omega)]
      case isFalse h =>
        rw [show r + n - 1 = r - 1 + n by omega, Nat.add_mod_right, Nat.mod_eq_of_lt (by omega)]
    have h := mpiBarrierRing_performs (μ := μ) (p := P r) (by omega) (by omega) (P (P r).prev)
    rw [hrank, hnext, hprev] at h
    rw [barrierOutcome, proj_barrierFlow]
    refine .map ?_ rfl
    by_cases h0 : r = 0
    case pos =>
      subst h0
      rw [Nat.zero_add, Nat.mod_eq_of_lt (by omega)] at h
      exact h
    case neg =>
      simp only [h0, hr, if_false, if_true] at h ⊢
      exact h
  idle r hr := by
    rw [barrierOutcome, proj_barrierFlow, if_neg (by omega), if_neg (by omega)]
  quiet r e he := by
    rw [barrierOutcome, proj_barrierFlow] at he
    split at he
    · simp at he
    · split at he <;> simp at he
  drains := barrier_flow hn P
  polite := barrierFlow_polite P source
  ranked := hP

theorem barriers_plan (μ : Medium) (source : Nat → Nat) (hn : 2 ≤ n) (hP : Ranked n P)
    (bufs : Nat → Nat → Mem) (i K : Nat) :
    ∃ os, Plan μ n source bufs i (List.replicate K .barrier) P os P ∧ os.length = K ∧
      ∀ o ∈ os, o.flow = barrierFlow n P := by
  induction K generalizing i with
  | zero => exact ⟨[], .nil, rfl, by simp⟩
  | succ K hi =>
    have ⟨os, h, hl, hf⟩ := hi (i + 1)
    have hb := barrier_plays μ source hn hP fun r => bufs r i
    refine ⟨barrierOutcome n P (fun r => bufs r i) :: os, .cons hb h, by simp [hl], ?_⟩
    simp only [List.forall_mem_cons]
    exact ⟨rfl, hf⟩

end Mpi

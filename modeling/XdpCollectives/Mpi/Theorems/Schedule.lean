import XdpCollectives.Mpi.Theorems.BinomialLaw

-- The calls of `mpi_bcast`.
namespace Mpi

open Memory Wire Process

-- What a rank does in a round of `mpi_bcast`.
inductive Turn
  | send (dest : Nat)
  | recv (source : Nat)
  | idle
  deriving DecidableEq, Repr

def turn (root rel size step : Nat) : Turn :=
  if rel < step then
    if rel + step < size then .send ((rel + step + root) % size) else .idle
  else if rel < step * 2 then .recv ((rel - step + root) % size)
  else .idle

def turns (root rel size : Nat) : (fuel step : Nat) → List Turn
  | 0,        _    => []
  | fuel + 1, step => if size ≤ step then [] else turn root rel size step :: turns root rel size fuel (step * 2)

-- A rank stops when it has not received what it should.
def takeTurns (count : Int) (datatype : MPIDatatype) : List Turn → Mem → ProcessInfo → Program (Int × Mem × ProcessInfo)
  | [],                 buf, p => return (0, buf, p)
  | .send dest :: ts,   buf, p => do
    let (_, p) ← mpiSend p buf count datatype dest 1
    takeTurns count datatype ts buf p
  | .recv source :: ts, buf, p => do
    let (err, buf, p) ← mpiRecv p buf count datatype source 1
    if err < 0 then return (-1, buf, p)
    takeTurns count datatype ts buf p
  | .idle :: ts,        buf, p => takeTurns count datatype ts buf p

-- The turns of rank `r`, one for each round.
def schedule (n root r : Nat) : List Turn :=
  turns root (Cycle.distance n root r) n n 1

variable {n root rel size fuel step k a b r : Nat}

theorem bcastRounds_turns (count : Int) (datatype : MPIDatatype) (buf : Mem) (p : ProcessInfo) :
    bcastRounds count datatype root rel size fuel step buf p =
      takeTurns count datatype (turns root rel size fuel step) buf p := by
  induction fuel generalizing step buf p
  case zero => rfl
  case succ fuel hi =>
    rw [bcastRounds, turns]
    by_cases hn : size ≤ step
    case pos =>
      rw [if_pos hn, if_pos hn]
      rfl
    case neg =>
      rw [if_neg hn, if_neg hn, turn]
      simp only [hi]
      split_ifs <;> rfl

theorem mpiBcast_schedule (p : ProcessInfo) (buf : Mem) (count : Int) (datatype : MPIDatatype) (root : Nat) :
    mpiBcast p buf count datatype root = takeTurns count datatype (schedule p.size root p.rank) buf p :=
  bcastRounds_turns ..

theorem turns_getElem? (hs : 0 < step) (hf : size ≤ step * 2 ^ fuel) (k : Nat) : (turns root rel size fuel step)[k]? =
    if step * 2 ^ k < size then some (turn root rel size (step * 2 ^ k)) else none := by
  induction fuel generalizing step k
  case zero =>
    have hk : step * 2 ^ 0 ≤ step * 2 ^ k := Nat.mul_le_mul_left _ (Nat.pow_le_pow_right Nat.two_pos (Nat.zero_le k))
    rw [if_neg (by omega)]
    rfl
  case succ fuel hi =>
    rw [turns]
    by_cases hn : size ≤ step
    case pos =>
      have hk : step * 1 ≤ step * 2 ^ k := Nat.mul_le_mul_left _ Nat.one_le_two_pow
      rw [if_pos hn, if_neg (by omega)]
      rfl
    case neg =>
      rw [if_neg hn]
      cases k with
      | zero   => simp [Nat.not_le.mp hn]
      | succ k =>
        rw [List.getElem?_cons_succ, hi (by omega) (by rwa [Nat.mul_assoc, ← pow_succ']), Nat.mul_assoc, ← pow_succ']

-- The turn of round `k`, which is a round as long as `step` is smaller than the number of ranks.
theorem schedule_getElem? (n root r k : Nat) : (schedule n root r)[k]? =
    if 2 ^ k < n then some (turn root (Cycle.distance n root r) n (2 ^ k)) else none := by
  rw [schedule, turns_getElem? Nat.one_pos (by rw [Nat.one_mul]; exact Nat.lt_two_pow_self.le), Nat.one_mul]

theorem sends_iff : (schedule n root a)[k]? = some (.send b) ↔
    Cycle.distance n root a < 2 ^ k ∧ Cycle.distance n root a + 2 ^ k < n ∧
      b = place n root (Cycle.distance n root a + 2 ^ k) := by
  rw [schedule_getElem?, turn, place, Nat.add_comm root]
  split_ifs <;> simp <;> omega

variable (hroot : root < n)
include hroot

theorem receives_iff : (schedule n root b)[k]? = some (.recv a) ↔
    2 ^ k ≤ Cycle.distance n root b ∧ Cycle.distance n root b < 2 ^ k * 2 ∧
      a = place n root (Cycle.distance n root b - 2 ^ k) := by
  have hlt := Cycle.distance_lt hroot b
  rw [schedule_getElem?, turn, place, Nat.add_comm root]
  split_ifs <;> simp <;> omega

-- A turn to send meets a turn to receive in the same round.
theorem turns_match (ha : a < n) (hb : b < n) (k : Nat) :
    (schedule n root a)[k]? = some (.send b) ↔ (schedule n root b)[k]? = some (.recv a) := by
  rw [sends_iff, receives_iff hroot]
  constructor
  · rintro ⟨hk, hn, rfl⟩
    rw [place, Cycle.distance_add hroot hn, Nat.add_sub_cancel, place, Cycle.add_distance hroot ha]
    exact ⟨by omega, by omega, rfl⟩
  · rintro ⟨hk, hk2, rfl⟩
    have hlt := Cycle.distance_lt hroot b
    rw [place, Cycle.distance_add hroot (by omega), Nat.sub_add_cancel hk, place, Cycle.add_distance hroot hb]
    exact ⟨by omega, hlt, rfl⟩

-- The round in which a rank receives is that of the highest bit of its distance from the root.
theorem receives_once (hb : b < n) (hne : b ≠ root) :
    ∃! e : Nat × Nat, (schedule n root b)[e.1]? = some (.recv e.2) := by
  have hpos := Cycle.distance_pos hroot hb (Ne.symm hne)
  have hlog {k : Nat} : 2 ^ k ≤ Cycle.distance n root b ∧ Cycle.distance n root b < 2 ^ k * 2 ↔
      (Cycle.distance n root b).log2 = k := by
    rw [Nat.log2_eq_iff (by omega), pow_succ]
  have ⟨hk, hk2⟩ := hlog.mpr rfl
  refine ⟨((Cycle.distance n root b).log2, place n root (Cycle.distance n root b - 2 ^ (Cycle.distance n root b).log2)),
    (receives_iff hroot).mpr ⟨hk, hk2, rfl⟩, ?_⟩
  rintro ⟨k, a⟩ h
  have ⟨hk, hk2, ha⟩ := (receives_iff hroot).mp h
  dsimp only at hk hk2 ha
  rw [ha, hlog.mp ⟨hk, hk2⟩]

theorem root_silent (k a : Nat) : (schedule n root root)[k]? ≠ some (.recv a) := by
  intro h
  have ⟨hk, _⟩ := (receives_iff hroot).mp h
  rw [Cycle.distance_self] at hk
  exact absurd hk (Nat.not_le.mpr (Nat.two_pow_pos k))

theorem sends_after (hr : (schedule n root r)[k]? = some (.recv a)) (hs : (schedule n root r)[j]? = some (.send b)) :
    k < j := by
  have ⟨hk, _⟩ := (receives_iff hroot).mp hr
  have ⟨hj, _⟩ := sends_iff.mp hs
  exact (Nat.pow_lt_pow_iff_right Nat.one_lt_two).mp (hk.trans_lt hj)

omit hroot in
-- The numbers that a rank computes in a round are `int`s.
theorem turn_fits (hn : n ≤ 2 ^ 30) (hroot : root < n) (r : Nat) (hk : 2 ^ k < n) :
    2 ^ k * 2 < 2 ^ 31 ∧ Cycle.distance n root r + 2 ^ k < 2 ^ 31 ∧
      (Cycle.distance n root r + 2 ^ k < n → Cycle.distance n root r + 2 ^ k + root < 2 ^ 31) := by
  have hlt := Cycle.distance_lt hroot r
  omega

-- The turns of all ranks carry the message from the root to every other rank.
structure Spans (n root : Nat) (turns : Nat → List Turn) : Prop where
  matched : ∀ a b k : Nat, a < n → b < n → ((turns a)[k]? = some (.send b) ↔ (turns b)[k]? = some (.recv a))
  once    : ∀ b < n, b ≠ root → ∃! e : Nat × Nat, (turns b)[e.1]? = some (.recv e.2)
  silent  : ∀ k a : Nat, (turns root)[k]? ≠ some (.recv a)
  after   : ∀ r j k a b : Nat, r < n → (turns r)[k]? = some (.recv a) → (turns r)[j]? = some (.send b) → k < j

theorem mpiBcast_spans (hn : n ≤ 2 ^ 30) :
    (∀ (p : ProcessInfo) (buf : Mem) (count : Int) (datatype : MPIDatatype), p.size = n →
      mpiBcast p buf count datatype root = takeTurns count datatype (schedule n root p.rank) buf p) ∧
    (∀ r < n, ∀ k, 2 ^ k < n → 2 ^ k * 2 < 2 ^ 31 ∧ Cycle.distance n root r + 2 ^ k < 2 ^ 31 ∧
      (Cycle.distance n root r + 2 ^ k < n → Cycle.distance n root r + 2 ^ k + root < 2 ^ 31)) ∧
    Spans n root (schedule n root) := by
  refine ⟨?_, fun r _ k hk => turn_fits hn hroot r hk, ?_⟩
  · rintro p buf count datatype rfl
    exact mpiBcast_schedule ..
  · exact {
      matched := fun a b k ha hb => turns_match hroot ha hb k
      once    := fun b hb hne => receives_once hroot hb hne
      silent  := root_silent hroot
      after   := fun r j k a b _ => sends_after hroot }

omit hroot in
theorem mpiBcast_spans_five : Spans 5 3 (schedule 5 3) :=
  (mpiBcast_spans (by decide) (by decide)).right.right

end Mpi

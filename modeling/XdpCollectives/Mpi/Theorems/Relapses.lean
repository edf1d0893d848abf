import XdpCollectives.Mpi.Theorems.Losses

-- Broadcasts one after the other, over a network that loses all datagrams for some of the ranks.
namespace Mpi

open Memory Wire Process Script

section Halves

variable {α : Type} (h : Nat → α) (K : Nat)

theorem range_prefix {m : Nat} (hm : m ≤ K) : (List.range m).map h <+: (List.range K).map h := by
  obtain ⟨d, rfl⟩ := Nat.exists_eq_add_of_le hm
  rw [List.range_add, List.map_append]
  exact List.prefix_append _ _

theorem pairs_eq : ((List.range K).flatMap fun k => [h (2 * k), h (2 * k + 1)]) = (List.range (2 * K)).map h := by
  induction K with
  | zero      => rfl
  | succ K hi =>
    rw [List.range_succ, List.flatMap_append, hi, show 2 * (K + 1) = 2 * K + 1 + 1 by omega, List.range_succ,
      List.range_succ]
    simp

theorem evens_eq : ((List.range K).flatMap fun j => if j % 2 = 0 then [h j] else []) =
    (List.range ((K + 1) / 2)).map fun k => h (2 * k) := by
  induction K with
  | zero      => rfl
  | succ K hi =>
    rw [List.range_succ, List.flatMap_append, hi, List.flatMap_singleton]
    by_cases he : K % 2 = 0
    case pos =>
      rw [if_pos he, show (K + 1 + 1) / 2 = (K + 1) / 2 + 1 by omega, List.range_succ, List.map_append,
        List.map_singleton, show 2 * ((K + 1) / 2) = K by omega]
    case neg => rw [if_neg he, List.append_nil, show (K + 1 + 1) / 2 = (K + 1) / 2 by omega]

end Halves

-- The call of the root whose message rank `r` has after call `k`.
def served (root : Nat) (lost : Nat → Bool) (r k : Nat) : Nat :=
  if r ≠ root ∧ lost r then 2 * k else k

-- `calls` times `mpi_bcast_linear`. No datagram reaches the ranks in `lost`.
structure Relapse where
  n       : Nat
  root    : Nat
  count   : Nat
  calls   : Nat
  lost    : Nat → Bool
  garbage : Nat → Mem
  bufs    : Nat → Nat → Mem
  root_lt : root < n
  int     : n < 2 ^ 31
  single  : Single 1 count

namespace Relapse

variable (y : Relapse)

def star : Cascade :=
  .star y.n y.root y.root_lt

-- What the ranks have counted before a call.
def procs : Nat → Nat → ProcessInfo
  | 0     => Plan.ranks y.n y.garbage
  | j + 1 => Relay.ends y.star (procs j)

-- What rank `q` tells to the root. One that has lost the datagram speaks twice in a call.
def tells (q j : Nat) : Header :=
  if y.lost q then
    if j % 2 = 0 then Relay.nack y.star (y.procs (j / 2)) q else Relay.ack y.star (y.procs (j / 2)) q
  else Relay.ack y.star (y.procs j) q

-- What the root sends it once more in a call.
def parcel (q j : Nat) : Bytes :=
  (Relay.again y.star (y.procs j) q).encode ++ payload 1 y.count (y.bufs y.root j)

def mem (j r : Nat) : Mem :=
  if r = y.root then y.bufs r j
  else if y.lost r then restored 1 y.count .char (payload 1 y.count (y.bufs y.root (2 * j))) (y.bufs r j)
  else stored 1 y.count .char (payload 1 y.count (y.bufs y.root j)) (y.bufs r j)

theorem procs_ranked (j : Nat) : Ranked y.n (y.procs j) := by
  induction j with
  | zero      => exact Plan.ranks_ranked _ _
  | succ j hi => exact Relay.ends_ranked (t := y.star) hi

theorem tells_root {q j : Nat} (hq : q < y.n) (h : (y.tells q j).datatype.toNat = MPIDatatype.nack.code) :
    (y.tells q j).root.toInt = q := by
  rw [tells] at h ⊢
  split at h
  case isTrue hl =>
    rw [if_pos hl]
    split at h
    case isTrue he =>
      rw [if_pos he]
      exact Relay.nack_root (t := y.star) y.int (y.procs_ranked _) hq
    case isFalse => exact absurd h (ack_code _ _ _)
  case isFalse => exact absurd h (ack_code _ _ _)

theorem mem_root (j : Nat) : y.mem j y.root = y.bufs y.root j := if_pos rfl

theorem mem_above {r : Nat} (j : Nat) (hne : r ≠ y.root) : y.mem j r =
    if y.lost r then restored 1 y.count .char (payload 1 y.count (y.bufs y.root (2 * j))) (y.bufs r j)
    else stored 1 y.count .char (payload 1 y.count (y.mem j y.root)) (y.bufs r j) := by
  rw [mem_root, mem, if_neg hne]

def relay (j : Nat) : Relay y.star where
  count      := y.count
  lost       := y.lost
  P          := y.procs j
  b r        := y.bufs r j
  mem        := y.mem j
  heard q    := y.tells q j
  given      := Relay.again y.star (y.procs (2 * j))
  content _  := payload 1 y.count (y.bufs y.root (2 * j))
  int        := y.int
  ranked     := y.procs_ranked j
  single     := y.single
  mem_root   := y.mem_root j
  mem_above  := fun _ _ hne => y.mem_above j hne
  length     := fun _ => Relay.payload_len _ _
  heard_root := fun _ => y.tells_root

variable {y : Relapse} {f : Process.Act Note → List Bytes} {j p q r : Nat}

theorem star_above : y.star.above q = y.root := rfl

theorem relay_lost : (y.relay j).lost = y.lost := rfl

theorem relay_heard : (y.relay j).heard q = y.tells q j := rfl

theorem script_root : (y.relay j).script y.root = (y.star.below y.root).flatMap (y.relay j).deals := by
  rw [Relay.script, if_neg (fun h => h.right rfl)]
  rfl

-- What the root does for rank `q` concerns no other rank.
theorem root_flatMap (hf : ∀ p ≠ q, ((y.relay j).deals p).flatMap f = []) :
    ((y.relay j).script y.root).flatMap f = if q < y.n ∧ q ≠ y.root then ((y.relay j).deals q).flatMap f else [] := by
  have hm : q ∈ y.star.below y.root ↔ q < y.n ∧ q ≠ y.root := by
    rw [Cascade.mem_below]
    exact ⟨fun h => ⟨h.left, h.right.left⟩, fun h => ⟨h.left, h.right, rfl⟩⟩
  rw [script_root, List.flatMap_assoc,
    flatMap_only (i := q) (A := ((y.relay j).deals q).flatMap f) (Cascade.below_nodup _) fun p _ => ?_]
  · simp only [hm]
  · by_cases hp : p = q
    case pos => rw [hp, if_pos rfl]
    case neg => rw [if_neg hp, hf p hp]

theorem script_other (hr : r < y.n) (hne : r ≠ y.root) : (y.relay j).script r = (y.relay j).answers r := by
  have hb : y.star.below r = [] := Cascade.star_below_leaf hne
  rw [Relay.script, if_pos ⟨hr, hne⟩, hb]
  exact List.append_nil _

theorem root_puts_udp (q : Nat) : ((y.relay j).script y.root).flatMap (Act.puts (.udp q)) =
    if q < y.n ∧ q ≠ y.root then if y.lost q then [] else (y.relay j).data q else [] := by
  have hd p : ((y.relay j).deals p).flatMap (Act.puts (.udp q)) =
      if p = q then if y.lost q then [] else (y.relay j).data q else [] := by
    obtain ⟨d, _, hd, _⟩ := (y.relay j).data_eq p
    have hs : ((y.relay j).settles p).flatMap (Act.puts (.udp q)) = [] := by
      rw [Relay.settles]
      split <;> simp [Act.puts, outsOn]
    rw [Relay.deals, List.flatMap_append, hs, List.append_nil, Relay.emits, hd, relay_lost]
    by_cases hp : p = q
    case pos =>
      subst hp
      cases hl : y.lost p <;> simp [Act.puts, outsOn, hd]
    case neg => cases hl : y.lost p <;> simp [Act.puts, outsOn, hp]
  rw [root_flatMap (q := q) fun p hp => by rw [hd, if_neg hp], hd, if_pos rfl]

theorem root_gets (q : Nat) : ((y.relay j).script y.root).flatMap (Act.gets (.tcp q y.root)) =
    if q < y.n ∧ q ≠ y.root then [(y.tells q j).encode] else [] := by
  have hd p : ((y.relay j).deals p).flatMap (Act.gets (.tcp q y.root)) =
      if p = q then [(y.tells q j).encode] else [] := by
    have he : ((y.relay j).emits p).flatMap (Act.gets (.tcp q y.root)) = [] := by
      rw [Relay.emits]
      cases (y.relay j).lost p <;> simp [Act.gets]
    rw [Relay.deals, List.flatMap_append, he, List.nil_append, Relay.settles, star_above, relay_heard]
    by_cases hp : p = q
    case pos =>
      subst hp
      split <;> simp [Act.gets]
    case neg => split <;> simp [Act.gets, hp]
  rw [root_flatMap (q := q) fun p hp => by rw [hd, if_neg hp], hd, if_pos rfl]

theorem root_puts_tcp (q : Nat) : ((y.relay j).script y.root).flatMap (Act.puts (.tcp y.root q)) =
    if q < y.n ∧ q ≠ y.root then
      if (y.tells q j).datatype.toNat = MPIDatatype.nack.code then [y.parcel q j] else []
    else [] := by
  have hd p : ((y.relay j).deals p).flatMap (Act.puts (.tcp y.root q)) =
      if p = q then if (y.tells q j).datatype.toNat = MPIDatatype.nack.code then [y.parcel q j] else [] else [] := by
    have he : ((y.relay j).emits p).flatMap (Act.puts (.tcp y.root q)) = [] := by
      rw [Relay.emits]
      cases (y.relay j).lost p <;> simp [Act.puts, outsOn]
    have hm : (y.relay j).mem y.root = y.bufs y.root j := y.mem_root j
    rw [Relay.deals, List.flatMap_append, he, List.nil_append, Relay.settles, star_above, hm, relay_heard]
    by_cases hp : p = q
    case pos =>
      subst hp
      split <;> simp [Act.puts, outsOn, parcel, relay]
    case neg => split <;> simp [Act.puts, outsOn, hp]
  rw [root_flatMap (q := q) fun p hp => by rw [hd, if_neg hp], hd, if_pos rfl]

section Others

variable (hr : r < y.n) (hne : r ≠ y.root)
include hr hne

theorem other_gets_udp : ((y.relay j).script r).flatMap (Act.gets (.udp r)) =
    if y.lost r then [] else (y.relay j).data r := by
  obtain ⟨d, _, hd, _⟩ := (y.relay j).data_eq r
  rw [script_other hr hne, Relay.answers, Relay.takes, hd]
  cases hl : y.lost r <;> simp [Act.gets, relay, hl]

theorem other_gets_tcp : ((y.relay j).script r).flatMap (Act.gets (.tcp y.root r)) =
    if y.lost r then [y.parcel r (2 * j)] else [] := by
  rw [script_other hr hne, Relay.answers, Relay.takes, star_above]
  cases hl : y.lost r <;> simp [Act.gets, relay, hl, parcel]

theorem other_puts (q : Nat) : ((y.relay j).script r).flatMap (Act.puts (.tcp r q)) =
    if q = y.root then
      if y.lost r then [(y.tells r (2 * j)).encode, (y.tells r (2 * j + 1)).encode] else [(y.tells r j).encode]
    else [] := by
  have h₁ : (2 * j + 1) / 2 = j := by omega
  rw [script_other hr hne, Relay.answers, Relay.takes, star_above]
  by_cases hq : q = y.root
  case pos => cases hl : y.lost r <;> simp [Act.puts, outsOn, relay, hl, hq, tells, h₁]
  case neg => cases hl : y.lost r <;> simp [Act.puts, outsOn, relay, hl, hq, Ne.symm hq]

end Others

theorem tells_nack : (y.tells q j).datatype.toNat = MPIDatatype.nack.code ↔ y.lost q ∧ j % 2 = 0 := by
  rw [tells]
  split
  case isTrue hl =>
    split
    case isTrue he  => exact iff_of_true rfl ⟨hl, he⟩
    case isFalse he => exact iff_of_false (ack_code _ _ _) fun h => he h.right
  case isFalse hl => exact iff_of_false (ack_code _ _ _) fun h => hl h.left

-- The whole program.
def outcomes (y : Relapse) : List Outcome :=
  (List.range y.calls).map fun j => (y.relay j).outcome

def script (y : Relapse) : Nat → List (Process.Act Note) :=
  Plan.script y.n y.outcomes

def program (y : Relapse) : List Call :=
  List.replicate y.calls (.bcast .linear y.count .char y.root)

theorem outcomes_quiet : ∀ o ∈ y.outcomes, ∀ e, .note e ∈ proj r o.flow → ∃ buf, e = .stored buf := by
  intro o ho e he
  obtain ⟨j, _, rfl⟩ := List.mem_map.mp ho
  exact Relay.outcome_quiet he

theorem rounds_flatMap (hf : ∀ e, f (.note e) = []) (hr : r < y.n) (m i : Nat) :
    ((rounds y.n i ((List.range' i m).map fun j => (y.relay j).outcome)).map (· r)).flatten.flatMap f =
      (List.range' i m).flatMap fun j => ((y.relay j).script r).flatMap f := by
  induction m generalizing i with
  | zero      => rfl
  | succ m hi =>
    rw [List.range'_succ, List.map_cons, rounds, List.map_cons, List.flatten_cons, List.flatMap_append, hi,
      List.flatMap_cons, round_flatMap hf i hr, Relay.proj_outcome]

theorem script_flatMap (hf : ∀ e, f (.note e) = []) (hr : r < y.n) :
    (y.script r).flatMap f = (List.range y.calls).flatMap fun j => ((y.relay j).script r).flatMap f := by
  rw [script, Plan.script, outcomes, List.range_eq_range']
  exact rounds_flatMap hf hr _ _

theorem script_idle (hr : y.n ≤ r) : y.script r = [] :=
  Plan.script_idle hr

theorem performs (f : Forwarder) (hr : r < y.n) (m i : Nat) :
    Performs (medium y.n f y.lost) r
      (performCalls (y.bufs r) i (List.replicate m (.bcast .linear y.count .char y.root)) (y.procs i r))
      ((rounds y.n i ((List.range' i m).map fun j => (y.relay j).outcome)).map (· r)).flatten (.ret ()) := by
  induction m generalizing i with
  | zero      => exact .refl
  | succ m hi =>
    have hp : Performs (medium y.n f y.lost) r
        (Call.perform (y.procs i r) (y.bufs r i) (.bcast .linear y.count .char y.root))
        (proj r (y.relay i).outcome.flow) (.ret (0, (y.relay i).outcome.buf r, (y.relay i).outcome.proc r)) := by
      rw [Relay.proj_outcome]
      exact mpiBcastLinear_relays f hr (y.relay i)
    rw [List.range'_succ, List.map_cons, rounds, List.map_cons, List.flatten_cons, List.replicate_succ]
    exact round_performs y.bufs _ (P := y.procs i) (o := (y.relay i).outcome) hr hp (hi (i + 1))

theorem sim (f : Forwarder) : Sim (medium y.n f y.lost) (fun _ => .ret ()) (network y.n y.garbage y.bufs y.program)
    (.start y.script) := by
  apply Sim.start
  intro r
  by_cases hr : r < y.n
  case pos =>
    rw [if_pos hr, script, Plan.script, outcomes, List.range_eq_range']
    exact performs f hr y.calls 0
  case neg =>
    rw [if_neg hr, script_idle (by omega)]
    exact .refl

theorem owned : (State.start y.script).Owned (wiring fun _ => y.root) := by
  intro r a ha
  obtain ⟨l, hl, ha⟩ := List.mem_flatten.mp (show a ∈ Plan.script y.n y.outcomes r from ha)
  obtain ⟨t, ht, rfl⟩ := List.mem_map.mp hl
  obtain ⟨i, o, ho, rfl⟩ := mem_rounds ht
  obtain ⟨j, _, rfl⟩ := List.mem_map.mp (List.mem_of_getElem? ho)
  rw [round] at ha
  split at ha
  · simp only [List.mem_cons, List.mem_append, List.not_mem_nil, or_false] at ha
    rcases ha with rfl | ha | rfl
    · trivial
    · exact Relay.script_owned r a (Relay.proj_outcome (x := y.relay j) r ▸ ha)
    · trivial
  · contradiction

section Channels

theorem script_puts_udp (q : Nat) : (y.script y.root).flatMap (Act.puts (.udp q)) =
    if q < y.n ∧ q ≠ y.root ∧ y.lost q = false then (List.range y.calls).flatMap fun j => (y.relay j).data q
    else [] := by
  rw [script_flatMap (fun _ => rfl) y.root_lt]
  simp only [root_puts_udp]
  by_cases hq : q < y.n ∧ q ≠ y.root
  case pos => cases hl : y.lost q <;> simp [hq]
  case neg =>
    rw [if_neg fun h => hq ⟨h.left, h.right.left⟩]
    simp [hq]

theorem script_puts_tcp (hq : q < y.n) (hne : q ≠ y.root) (hl : y.lost q) :
    (y.script y.root).flatMap (Act.puts (.tcp y.root q)) =
      (List.range ((y.calls + 1) / 2)).map fun k => y.parcel q (2 * k) := by
  rw [script_flatMap (fun _ => rfl) y.root_lt, ← evens_eq]
  simp only [root_puts_tcp, tells_nack, hq, hne, hl, ne_eq, not_false_eq_true, and_self, if_true, true_and]

theorem calls_nil : ((List.range y.calls).flatMap fun _ => ([] : List Bytes)) = [] :=
  List.flatMap_eq_nil_iff.mpr fun _ _ => rfl

theorem udp_leads (q : Nat) :
    (y.script y.root).flatMap (Act.puts (.udp q)) <+: (y.script q).flatMap (Act.gets (.udp q)) := by
  rw [script_puts_udp]
  split
  case isTrue h =>
    rw [script_flatMap (fun _ => rfl) h.left]
    simp only [other_gets_udp h.left h.right.left, h.right.right, Bool.false_eq_true, if_false]
    exact List.prefix_rfl
  case isFalse => exact List.nil_prefix

-- A rank that loses all datagrams waits for more than the root sends it.
theorem below_leads (q : Nat) :
    (y.script y.root).flatMap (Act.puts (.tcp y.root q)) <+: (y.script q).flatMap (Act.gets (.tcp y.root q)) := by
  by_cases hq : q < y.n ∧ q ≠ y.root
  case pos =>
    obtain ⟨hq, hne⟩ := hq
    cases hl : y.lost q with
    | false =>
      rw [script_flatMap (fun _ => rfl) y.root_lt]
      simp [root_puts_tcp, tells_nack, hl, calls_nil]
    | true  =>
      rw [script_puts_tcp hq hne hl, script_flatMap (fun _ => rfl) hq]
      simp only [other_gets_tcp hq hne, hl, if_true, ← List.map_eq_flatMap]
      exact range_prefix (fun k => y.parcel q (2 * k)) _ (by omega)
  case neg =>
    rw [script_flatMap (fun _ => rfl) y.root_lt]
    simp [root_puts_tcp, hq, calls_nil]

-- And it tells the root more than the root waits for.
theorem above_leads (hp : p < y.n) (hne : p ≠ y.root) :
    (y.script y.root).flatMap (Act.gets (.tcp p y.root)) <+: (y.script p).flatMap (Act.puts (.tcp p y.root)) := by
  rw [script_flatMap (fun _ => rfl) y.root_lt, script_flatMap (fun _ => rfl) hp]
  simp only [root_gets, other_puts hp hne, hp, hne, ne_eq, not_false_eq_true, and_self, if_true,
    ← List.map_eq_flatMap]
  cases hl : y.lost p with
  | false =>
    simp only [Bool.false_eq_true, if_false, ← List.map_eq_flatMap]
    exact List.prefix_rfl
  | true  =>
    simp only [if_true]
    rw [pairs_eq fun j => (y.tells p j).encode]
    exact range_prefix (fun j => (y.tells p j).encode) _ (by omega)

-- Nobody gets a message in place of another one.
theorem agrees : (State.start y.script).Agrees (wiring fun _ => y.root) := by
  intro c
  cases c with
  | udp q   => exact .inl (udp_leads q)
  | tcp p q =>
    show (y.script p).flatMap (Act.puts (.tcp p q)) <+: (y.script q).flatMap (Act.gets (.tcp p q)) ∨
      (y.script q).flatMap (Act.gets (.tcp p q)) <+: (y.script p).flatMap (Act.puts (.tcp p q))
    by_cases hp : p = y.root
    case pos =>
      subst hp
      exact .inl (below_leads q)
    case neg =>
      by_cases hlt : p < y.n
      case neg =>
        rw [script_idle (Nat.le_of_not_lt hlt)]
        exact .inl List.nil_prefix
      case pos =>
        by_cases hq : q = y.root
        case pos =>
          subst hq
          exact .inr (above_leads hlt hp)
        case neg =>
          refine .inl ?_
          rw [script_flatMap (fun _ => rfl) hlt]
          simp [other_puts hlt hp, hq, calls_nil]

end Channels

section Runs

variable {a : Process.Plan Note} {s : Net Note}

theorem rounds_balanced {f g : Process.Act Note → Nat} (hn : ∀ e, f (.note e) = 0 ∧ g (.note e) = 0) {p k : Nat}
    (h : ∀ j, Balanced f g k ((y.relay j).script p)) : Balanced f g k (y.script p) := by
  refine Plan.rounds_balanced fun j o ho => Plan.round_balanced hn ?_ j
  obtain ⟨i, _, rfl⟩ := List.mem_map.mp ho
  rw [Relay.proj_outcome]
  exact h i

-- The root waits for the acknowledgement of a datagram that arrives before it sends the next one.
theorem spends (hl : y.lost q = false) : Balanced (putting (.udp q) fun _ => true)
    (getting (.tcp q y.root) fun _ => true) 1 (y.script y.root) := by
  refine rounds_balanced (fun _ => ⟨rfl, rfl⟩) fun j => ?_
  rw [script_root, List.flatMap_def]
  refine Balanced.flatten fun l hm => ?_
  obtain ⟨p, _, rfl⟩ := List.mem_map.mp hm
  obtain ⟨d, _, hd, _⟩ := (y.relay j).data_eq p
  rw [Relay.deals, Relay.emits, Relay.settles, hd, relay_lost, relay_heard, star_above]
  simp only [tells_nack]
  by_cases hp : p = q
  case pos =>
    subst hp
    constructor <;> simp [hl, Within]
  case neg =>
    refine Balanced.quiet fun act hact => ?_
    simp only [List.map_cons, List.map_nil, List.cons_append, List.nil_append, List.mem_cons] at hact
    rcases hact with rfl | rfl | hact
    · split <;> simp [putting, getting, Act.puts, Act.gets, outsOn, hp]
    · simp [putting, getting, Act.puts, Act.gets, hp]
    · split at hact
      · rw [List.mem_singleton.mp hact]
        simp [putting, getting, Act.puts, Act.gets, outsOn]
      · contradiction

theorem answers (hq : q < y.n) (hne : q ≠ y.root) (hl : y.lost q = false) :
    Balanced (putting (.tcp q y.root) fun _ => true) (getting (.udp q) fun _ => true) 0 (y.script q) := by
  refine rounds_balanced (fun _ => ⟨rfl, rfl⟩) fun j => ?_
  obtain ⟨d, _, hd, _⟩ := (y.relay j).data_eq q
  rw [script_other hq hne, Relay.answers, Relay.takes, hd, relay_lost, hl, star_above]
  constructor <;> simp [Within]

theorem orderly (f : Forwarder) (hr : (State.start y.script).Reaches a) : Orderly (medium y.n f y.lost) a := by
  intro q
  have hc := State.Conserves.start.reaches owned hr
  by_cases hq : q < y.n ∧ q ≠ y.root ∧ y.lost q = false
  case pos =>
    obtain ⟨hlt, hne, hl⟩ := hq
    have hlen := hc.length_le (c := .udp q) (b := .tcp q y.root) rfl rfl
      ((spends hl).within.le (hr.done_prefix _)) ((answers hlt hne hl).within.le (hr.done_prefix _))
    show (a.queue (.udp q)).length ≤ if y.lost q then 0 else 1
    rw [hl]
    exact hlen
  case neg =>
    have hp := script_puts_udp (y := y) q
    have hcq : (a.done y.root).flatMap (Act.puts (.udp q)) =
        (a.done q).flatMap (Act.gets (.udp q)) ++ a.queue (.udp q) := hc (.udp q)
    obtain ⟨u, hu⟩ := hr.done_prefix y.root
    rw [if_neg hq, ← hu, List.flatMap_append, hcq, List.append_eq_nil_iff, List.append_eq_nil_iff] at hp
    rw [hp.left.right]
    exact Nat.zero_le _

theorem reaches (f : Forwarder) (hr : Net.Reaches (medium y.n f y.lost) (network y.n y.garbage y.bufs y.program) s) :
    ∃ a, (State.start y.script).Reaches a ∧ Sim (medium y.n f y.lost) (fun _ => .ret ()) s a :=
  (sim f).reaches (fun _ => trivial) owned .start agrees (fun _ => orderly f) rfl hr

theorem length_flatMap {L : List (List (Process.Act Note))} (h : ∀ l ∈ L, (l.flatMap f).length = 1) :
    (L.flatten.flatMap f).length = L.length := by
  induction L with
  | nil         => rfl
  | cons l L hi =>
    obtain ⟨hl, hL⟩ := List.forall_mem_cons.mp h
    rw [List.flatten_cons, List.flatMap_append, List.length_append, hl, hi hL, List.length_cons, Nat.add_comm]

section Lost

variable (hr : r < y.n) (hne : r ≠ y.root) (hl : y.lost r)
include hr hne hl

-- The rank needs the data once more in every call.
theorem rounds_gets {m : Nat} (hm : m ≤ y.calls) :
    ((((rounds y.n 0 y.outcomes).map (· r)).take m).flatten.flatMap (Act.gets (.tcp y.root r))).length = m := by
  have hone : ∀ l ∈ (rounds y.n 0 y.outcomes).map (· r), (l.flatMap (Act.gets (.tcp y.root r))).length = 1 := by
    intro l hl'
    obtain ⟨t, ht, rfl⟩ := List.mem_map.mp hl'
    obtain ⟨i, o, ho, rfl⟩ := mem_rounds ht
    obtain ⟨j, _, rfl⟩ := List.mem_map.mp (List.mem_of_getElem? ho)
    rw [round_flatMap (fun _ => rfl) _ hr, Relay.proj_outcome, other_gets_tcp hr hne, if_pos hl, List.length_singleton]
  rw [length_flatMap fun l hl' => hone l (List.mem_of_mem_take hl'), List.length_take]
  simp only [List.length_map, rounds_length, outcomes, List.length_range]
  omega

-- But the root sends it in every second call only.
theorem gets_le (ra : (State.start y.script).Reaches a) :
    ((a.done r).flatMap (Act.gets (.tcp y.root r))).length ≤ (y.calls + 1) / 2 := by
  have hc : (a.done y.root).flatMap (Act.puts (.tcp y.root r)) =
      (a.done r).flatMap (Act.gets (.tcp y.root r)) ++ a.queue (.tcp y.root r) :=
    State.Conserves.start.reaches owned ra _
  obtain ⟨u, hu⟩ := ra.done_prefix y.root
  have hput := congrArg List.length (script_puts_tcp hr hne hl)
  rw [← hu, List.flatMap_append, hc, List.length_append, List.length_append, List.length_map,
    List.length_range] at hput
  omega

end Lost

-- A rank that has left a call has got everything that it gets in it.
theorem leaves_lt (ra : (State.start y.script).Reaches a) (hr : r < y.n) {k : Nat} {ret : Int} {buf : Mem}
    (hm : .note (.leave k ret buf) ∈ a.done r) : served y.root y.lost r k < y.calls := by
  have hs := Plan.quiet_sections (outcomes_quiet (y := y) (r := r)) hr
  obtain ⟨hk, hu⟩ := hs.closed (ra.done_prefix r) hm rfl
  rw [List.length_map, rounds_length, outcomes, List.length_map, List.length_range] at hk
  rw [served]
  split
  case isFalse => exact hk
  case isTrue h =>
    obtain ⟨hne, hl⟩ := h
    have hlen := rounds_gets hr hne hl (Nat.succ_le_of_lt hk)
    have hle := gets_le hr hne hl ra
    obtain ⟨v, hv⟩ := hu
    rw [← hv, List.flatMap_append, List.length_append, hlen] at hle
    omega

theorem mem_read (hz : ∀ k, y.bufs y.root k (y.count - 1) = 0) (j r : Nat) :
    (y.mem j r).read 0 y.count = (y.bufs y.root (served y.root y.lost r j)).read 0 y.count := by
  rw [mem, served]
  by_cases hr : r = y.root
  case pos => rw [if_pos hr, if_neg (fun h => h.left hr), hr]
  case neg =>
    rw [if_neg hr]
    cases hl : y.lost r with
    | false =>
      rw [if_neg Bool.false_ne_true, if_neg (fun h => Bool.false_ne_true h.right)]
      exact stored_read_char y.single.left rfl (read_drop_last y.single.left (hz j))
    | true  =>
      rw [if_pos rfl, if_pos ⟨hr, rfl⟩]
      exact Relay.restored_read_char _ _ _

-- A rank that loses two datagrams waits for the second one for ever.
theorem stuck (f : Forwarder) (hr : Net.Reaches (medium y.n f y.lost) (network y.n y.garbage y.bufs y.program) s)
    (hk : 2 ≤ y.calls) (hq : q < y.n) (hne : q ≠ y.root) (hl : y.lost q) :
    ∃ s', Net.Reaches (medium y.n f y.lost) s s' ∧ Net.Stuck (medium y.n f y.lost) y.n s' := by
  obtain ⟨a, ra, hsim⟩ := reaches f hr
  have hidle : ∀ r, y.n ≤ r → a.todo r = [] := fun r hr => by
    have hs : a.script r = y.script r := congrFun ra.script_eq r
    rw [script_idle hr] at hs
    exact (List.append_eq_nil_iff.mp hs).right
  obtain ⟨a', ra', hrest⟩ := a.exists_quiescent hidle
  obtain ⟨s', rs', hsim'⟩ := hsim.lift_reaches ra'
  have ra' : (State.start y.script).Reaches a' := ra.trans ra'
  have hend : ¬(s'.prog q).Ended := by
    rw [hsim'.ended_iff (fun _ => trivial)]
    intro ht
    have hs : a'.script q = y.script q := congrFun ra'.script_eq q
    rw [State.script, ht, List.append_nil] at hs
    have ho : y.outcomes[y.calls - 1]? = some (y.relay (y.calls - 1)).outcome := by
      rw [outcomes, List.getElem?_map, List.getElem?_range (by omega)]
      rfl
    have hm : .note (.leave (y.calls - 1) 0 ((y.relay (y.calls - 1)).outcome.buf q)) ∈ a'.done q := by
      rw [hs]
      exact Plan.leave_mem_script hq ho
    have hlt := leaves_lt ra' hq hm
    rw [served, if_pos ⟨hne, hl⟩] at hlt
    omega
  refine ⟨s', rs', ⟨q, hq, hend⟩, fun s'' hs => ?_⟩
  obtain ⟨l, hs⟩ := hs
  obtain ⟨a'', st, _⟩ := hsim'.step (fun _ => trivial) (owned.reaches ra') (State.Conserves.start.reaches owned ra')
    (agrees.reaches ra') (orderly f ra') rfl hs
  exact hrest a'' st

end Runs

end Relapse

variable {n root count : Nat}

end Mpi

import XdpCollectives.Mpi.Theorems.Binomial
import Mathlib.Data.Nat.Log

-- When `mpi_bcast` comes to an end.
namespace Mpi

open Memory Wire Process Script

-- The rank that gives the message to rank `q`: the highest bit of the place of `q` is its round.
def parent (n root q : Nat) : Nat :=
  let y := Cycle.distance n root q
  place n root (y - 2 ^ y.log2)

variable {n root count k fuel x y q r : Nat} {P : Nat → ProcessInfo} {b : Nat → Mem}

theorem parent_child (hroot : root < n) (hx : x < 2 ^ k) (hn : x + 2 ^ k < n) :
    parent n root (child n root k x) = place n root x := by
  have hd : Cycle.distance n root (child n root k x) = x + 2 ^ k := Cycle.distance_add hroot hn
  have hl : (x + 2 ^ k).log2 = k := (Nat.log2_eq_iff (by omega)).mpr ⟨by omega, by rw [pow_succ]; omega⟩
  rw [parent, hd, hl, Nat.add_sub_cancel]

-- What holds of all actions of all branches holds of the whole.
theorem binomial_forall {Q : Nat × Process.Act Note → Prop}
    (h : ∀ k P b x, x < 2 ^ k → x + 2 ^ k < n → ∀ e ∈ branch n root count k P b x, Q e) :
    ∀ e ∈ binomialFlow n root count fuel k P b, Q e := by
  induction fuel generalizing k P b
  case zero => exact fun _ he => absurd he List.not_mem_nil
  case succ fuel hi =>
    intro e he
    rw [binomialFlow] at he
    split at he
    case isTrue => contradiction
    case isFalse =>
      rcases List.mem_append.mp he with he | he
      · obtain ⟨x, hx, he⟩ := List.mem_flatMap.mp he
        split at he
        case isTrue hn => exact h k P b x (List.mem_range.mp hx) hn e he
        case isFalse   => contradiction
      · exact hi e he

-- Where the branches put as much into a channel as they get from it, the whole does.
theorem binomial_flatMap {f g : Nat × Process.Act Note → List Bytes}
    (h : ∀ k P b x, x < 2 ^ k → x + 2 ^ k < n →
      (branch n root count k P b x).flatMap f = (branch n root count k P b x).flatMap g) :
    (binomialFlow n root count fuel k P b).flatMap f = (binomialFlow n root count fuel k P b).flatMap g := by
  induction fuel generalizing k P b
  case zero => rfl
  case succ fuel hi =>
    rw [binomialFlow]
    split
    case isTrue => rfl
    case isFalse =>
      rw [List.flatMap_append, List.flatMap_append, hi, roundFlow, List.flatMap_assoc, List.flatMap_assoc]
      congr 1
      apply List.flatMap_congr
      intro x hx
      split
      case isTrue hn => exact h k P b x (List.mem_range.mp hx) hn
      case isFalse   => rfl

theorem mem_branch {e : Nat × Process.Act Note} (he : e ∈ branch n root count k P b x) :
    (∃ d, e = (place n root x, .put [(.udp (child n root k x), d)])) ∨
    (∃ d, e = (child n root k x, .get (.udp (child n root k x)) d)) ∨
    (∃ buf, e = (child n root k x, .note (.stored buf))) ∨
    (∃ a ∈ acks count (branchAck n root k P x).encode,
      e = (child n root k x, .put [(.tcp (child n root k x) (place n root x), a)])) ∨
    e = (place n root x, .get (.tcp (child n root k x) (place n root x)) (branchAck n root k P x).encode) := by
  simp only [branch, receipt, tag, List.mem_append, List.mem_map, List.mem_cons, List.not_mem_nil, or_false] at he
  grind

section Flow

variable (hroot : root < n)
include hroot

theorem binomial_owned : ∀ e ∈ binomialFlow n root count fuel k P b, e.2.OwnedBy (wiring (parent n root)) e.1 := by
  refine binomial_forall fun k P b x hx hn e he => ?_
  have hp := parent_child hroot hx hn
  rcases mem_branch he with ⟨d, rfl⟩ | ⟨d, rfl⟩ | ⟨buf, rfl⟩ | ⟨a, _, rfl⟩ | rfl <;> simp [Act.OwnedBy, wiring, hp]

theorem binomial_idle (hr : n ≤ r) : proj r (binomialFlow n root count fuel k P b) = [] := by
  have h : ∀ e ∈ binomialFlow n root count fuel k P b, e.1 < n := by
    refine binomial_forall fun k P b x _ _ e he => ?_
    rcases mem_branch he with ⟨d, rfl⟩ | ⟨d, rfl⟩ | ⟨buf, rfl⟩ | ⟨a, _, rfl⟩ | rfl <;> exact place_lt hroot _
  rw [List.eq_nil_iff_forall_not_mem]
  exact fun a ha => absurd (h _ (mem_proj.mp ha)) (by omega)

-- What a channel takes in and gives out can be counted over all ranks.
theorem binomial_puts (c : Chan) :
    (proj ((wiring (parent n root)).writer c) (binomialFlow n root count fuel k P b)).flatMap (Act.puts c) =
      (binomialFlow n root count fuel k P b).flatMap fun e => e.2.puts c :=
  flatMap_proj fun e he hne => Act.puts_eq_nil (binomial_owned hroot e he) (Ne.symm hne)

theorem binomial_gets (c : Chan) :
    (proj ((wiring (parent n root)).reader c) (binomialFlow n root count fuel k P b)).flatMap (Act.gets c) =
      (binomialFlow n root count fuel k P b).flatMap fun e => e.2.gets c :=
  flatMap_proj fun e he hne => Act.gets_eq_nil (binomial_owned hroot e he) (Ne.symm hne)

omit hroot in
theorem branch_settles (q : Nat) : (branch n root count k P b x).flatMap (fun e => e.2.puts (.udp q)) =
    (branch n root count k P b x).flatMap fun e => e.2.gets (.udp q) := by
  have hnil (ds : List Bytes) : ds.flatMap (fun _ => ([] : List Bytes)) = [] :=
    List.flatMap_eq_nil_iff.mpr fun _ _ => rfl
  by_cases hq : child n root k x = q
  case pos => simp [branch, receipt, tag, List.flatMap_map, Act.puts, outsOn, Act.gets, hq, hnil]
  case neg => simp [branch, receipt, tag, List.flatMap_map, Act.puts, outsOn, Act.gets, hq, hnil]

theorem binomial_settles : Settles (wiring (parent n root))
    (.start fun r => proj r (binomialFlow n root count fuel k P b)) := by
  refine fun q => ⟨rfl, (binomial_puts hroot (.udp q)).trans ?_⟩
  exact (binomial_flatMap fun _ _ _ _ _ _ => branch_settles q).trans (binomial_gets hroot (.udp q)).symm

-- Every message is acknowledged where it takes several datagrams.
omit hroot in
theorem binomial_drains (hc : maxPayload < mpiHeader + count) :
    Flow (fun _ => []) (binomialFlow n root count fuel k P b) fun _ => [] := by
  induction fuel generalizing k P b
  case zero => rfl
  case succ fuel hi =>
    rw [binomialFlow]
    split
    case isTrue => rfl
    case isFalse =>
      refine Flow.append (.flatMap fun x _ => ?_) hi
      split
      case isTrue =>
        have he : branch n root count k P b x = hop (place n root x) (child n root k x)
            (branchData n root count k P b x) (branchMem n root count k b x) (branchAck n root k P x).encode [] := by
          rw [branch, acks, if_pos hc]
          rfl
        rw [he]
        exact hop_drains rfl rfl
      case isFalse => rfl

-- None is where it takes one.
theorem binomial_silent (hc : ¬maxPayload < mpiHeader + count) (p q : Nat) :
    (proj p (binomialFlow n root count fuel k P b)).flatMap (Act.puts (.tcp p q)) = [] := by
  refine (binomial_puts hroot (.tcp p q)).trans ?_
  rw [List.flatMap_eq_nil_iff]
  refine binomial_forall fun k P b x _ _ e he => ?_
  rcases mem_branch he with ⟨d, rfl⟩ | ⟨d, rfl⟩ | ⟨buf, rfl⟩ | ⟨a, ha, rfl⟩ | rfl
  · simp [Act.puts, outsOn]
  · rfl
  · rfl
  · simp [acks, hc] at ha
  · rfl

end Flow

section Runs

variable {garbage : Nat → Mem} {bufs : Nat → Mem} {f : Forwarder} {s : Net Note}

def binomial (n root count : Nat) (garbage bufs : Nat → Mem) : List (Nat × Process.Act Note) :=
  binomialFlow n root count n 0 (Plan.ranks n garbage) bufs

variable (count garbage bufs) in
theorem bcastNetwork_prog (hr : r < n) : (bcastNetwork n garbage bufs count root).prog r =
    (bcastRounds count .char root (Cycle.distance n root r) n n (2 ^ 0) (bufs r) (Plan.ranks n garbage r) >>=
      fun _ => .ret ()) :=
  if_pos hr

theorem bcastNetwork_idle (hr : n ≤ r) : (bcastNetwork n garbage bufs count root).prog r = .ret () :=
  if_neg (by omega)

variable (garbage bufs f) in
-- What every rank does, with the datagrams of its message in any order.
theorem bcastNetwork_gathers (hroot : root < n) (hint : n < 2 ^ 31) (h0 : 0 < count) (hl : mpiHeader + count < 2 ^ 31)
    (r : Nat) :
    ∃ ds t, proj r (binomial n root count garbage bufs) = ds.map (.get (.udp r)) ++ t ∧
      (∀ d, .get (.udp r) d ∉ t) ∧ (¬maxPayload < mpiHeader + count → ds.length ≤ 1) ∧
      Gathers (lossless n f) r ((bcastNetwork n garbage bufs count root).prog r) ds t (.ret ()) := by
  by_cases hr : r < n
  case neg =>
    rw [bcastNetwork_idle (by omega), binomial, binomial_idle hroot (by omega)]
    exact ⟨[], [], rfl, fun _ => List.not_mem_nil, fun _ => Nat.zero_le _, .of_performs .refl⟩
  case pos =>
    have hP := Plan.ranks_ranked n garbage
    have hy : Cycle.distance n root r < n := Cycle.distance_lt hroot r
    have hplace : place n root (Cycle.distance n root r) = r := Cycle.add_distance hroot hr
    rw [bcastNetwork_prog count garbage bufs hr, binomial]
    by_cases hz : Cycle.distance n root r = 0
    case pos =>
      have hk : Cycle.distance n root r < 2 ^ 0 := by simp [hz]
      have ⟨v, h⟩ := sender_performs n hroot hP h0 (by omega) f (b := bufs) hy hk
      have hs := sender_silent root count n (Plan.ranks n garbage) bufs hy hk
      rw [hplace] at h hs
      have := Gathers.of_performs (h.seq (f := fun _ => .ret ()) .refl)
      rw [List.append_nil] at this
      exact ⟨[], _, rfl, hs r, fun _ => Nat.zero_le _, this⟩
    case neg =>
      have ⟨ds, t, v, he, hs, h1, h⟩ := receiver_gathers n hroot hP h0 f hint hl (k := 0) (b := bufs) hy (by omega)
      rw [hplace] at he hs h
      have := h.seq (f := fun _ => .ret ()) .refl
      rw [List.append_nil] at this
      exact ⟨ds, t, he, hs, h1, this⟩

theorem binomial_not_stuck (hroot : root < n) (hint : n < 2 ^ 31) (hc : maxPayload < mpiHeader + count)
    (hl : mpiHeader + count < 2 ^ 31) (hr : Net.Reaches (lossless n f) (bcastNetwork n garbage bufs count root) s) :
    ¬Net.Stuck (lossless n f) n s := by
  have h0 : 0 < count := by
    simp only [maxPayload, mpiHeader] at hc
    omega
  let g := binomial n root count garbage bufs
  have hall : Settles (wiring (parent n root)) (.start fun r => proj r g) := binomial_settles hroot
  have o : (State.start fun r => proj r g).Owned (wiring (parent n root)) :=
    fun r a ha => binomial_owned hroot (r, a) (mem_proj.mp ha)
  have c : (State.start fun r => proj r g).Completes := Flow.completes (fun _ => rfl) (binomial_drains hc)
  have h := Loose.start hall fun r => by
    obtain ⟨ds, t, he, hs, _, hp⟩ := bcastNetwork_gathers garbage bufs f hroot hint h0 hl r
    exact ⟨ds, t, he, hs, hp⟩
  obtain ⟨a, ra, h⟩ := h.reaches hall .start (fun _ => rfl) o (fun _ => trivial) (c.agrees o .start) rfl hr
  exact h.not_stuck (hall.reaches ra) (State.Conserves.start.reaches o ra) (fun _ => rfl) (fun _ => trivial)
    (c.reaches o ra) n

variable (count garbage bufs) in
-- The root sends to one rank and waits for it, before anything else.
theorem binomial_root (hn : 2 ≤ n) (hroot : root < n) :
    ∃ ds ack t, proj root (binomial n root count garbage bufs) = dispatch root (child n root 0 0) ds ack ++ t := by
  have ⟨m, hm⟩ := Nat.exists_eq_add_of_le' hn
  subst hm
  have h : proj (place (m + 2) root 0) (roundFlow (m + 2) root count 0 (Plan.ranks (m + 2) garbage) bufs) = _ :=
    proj_round (by omega)
  rw [if_pos (by omega), if_pos (by omega), place_zero hroot] at h
  rw [binomial, binomialFlow, if_neg (by omega), proj_append, h]
  exact ⟨_, _, _, rfl⟩

variable (count garbage bufs f) in
theorem binomial_starves (hn : 2 ≤ n) (hroot : root < n) (hint : n < 2 ^ 31) (h0 : 0 < count)
    (hc : ¬maxPayload < mpiHeader + count) :
    ∃ s, Net.Reaches (lossless n f) (bcastNetwork n garbage bufs count root) s ∧ Net.Stuck (lossless n f) n s := by
  have hl : mpiHeader + count < 2 ^ 31 := by
    simp only [maxPayload] at hc
    omega
  let g := binomial n root count garbage bufs
  have hall : Settles (wiring (parent n root)) (.start fun r => proj r g) := binomial_settles hroot
  have o : (State.start fun r => proj r g).Owned (wiring (parent n root)) :=
    fun r a ha => binomial_owned hroot (r, a) (mem_proj.mp ha)
  have hg := bcastNetwork_gathers garbage bufs f hroot hint h0 hl
  have h : Sim (lossless n f) (fun _ => .ret ()) (bcastNetwork n garbage bufs count root)
      (.start fun r => proj r g) := .start fun r => by
    obtain ⟨ds, t, he, _, _, hp⟩ := hg r
    exact he ▸ hp ds (.refl ds)
  have ha : (State.start fun r => proj r g).Agrees (wiring (parent n root)) := by
    intro c
    cases c with
    | udp q   => exact .inl ((hall q).right ▸ List.prefix_refl _)
    | tcp p q => exact .inl (binomial_silent hroot hc p q ▸ List.nil_prefix)
  obtain ⟨ds, ack, t, he⟩ := binomial_root count garbage bufs hn hroot
  refine h.starves (fun _ => trivial) o .start ha (fun a r q => ?_) rfl (fun _ hp => binomial_idle hroot hp)
    (.tcp (child n root 0 0) root) ?_ (binomial_silent hroot hc _ _)
  · obtain ⟨ds, t, he, hs, h1, _⟩ := hg q
    have hle := (hall.reaches r).queue_length_le (State.Conserves.start.reaches o r) q
    rw [r.script_eq, State.start_script, he, List.flatMap_append, gets_datagrams, gets_eq_nil hs,
      List.append_nil] at hle
    exact hle.trans (h1 hc)
  · rw [State.start_script, show (wiring (parent n root)).reader (.tcp (child n root 0 0) root) = root from rfl]
    simp only [g, he]
    simp [dispatch, Act.gets]

variable (root fuel) in
-- The ranks that do not have the message do not wait for it.
theorem receiver_overflows (hl : 2 ^ 31 ≤ mpiHeader + count) (hc : count < 2 ^ 31) (p : ProcessInfo) (buf : Mem)
    (hk : 2 ^ k ≤ y) : ∃ v, bcastRounds count .char root y n fuel (2 ^ k) buf p = .ret v := by
  induction fuel generalizing k
  case zero => exact ⟨_, rfl⟩
  case succ fuel hi =>
    rw [bcastRounds]
    by_cases hp : n ≤ 2 ^ k
    case pos =>
      rw [if_pos hp]
      exact ⟨_, rfl⟩
    case neg =>
      rw [if_neg hp, if_neg (by omega)]
      by_cases hy : y < 2 ^ k * 2
      case pos =>
        rw [if_pos hy]
        dsimp only
        rw [mpiRecv_overflow _ _ _ hl hc]
        exact ⟨_, rfl⟩
      case neg =>
        rw [if_neg hy]
        exact hi (show 2 ^ (k + 1) ≤ y by rw [pow_succ]; omega)

variable (garbage bufs f) in
theorem binomial_abandons (hn : 2 ≤ n) (hroot : root < n) (hl : 2 ^ 31 ≤ mpiHeader + count) (hc : count < 2 ^ 31) :
    ∃ s, Net.Reaches (lossless n f) (bcastNetwork n garbage bufs count root) s ∧ Net.Stuck (lossless n f) n s := by
  have h0 : 0 < count := by
    simp only [mpiHeader] at hl
    omega
  obtain ⟨ds, ack, t, he⟩ := binomial_root count garbage bufs hn hroot
  obtain ⟨v, h⟩ := sender_performs (y := 0) (k := 0) n hroot (Plan.ranks_ranked n garbage) h0 hc f (b := bufs)
    (by omega) (by omega)
  rw [place_zero hroot, ← binomial, he, dispatch, List.append_assoc] at h
  obtain ⟨y, hy, hrest⟩ := h.split
  obtain ⟨len, k, hrecv⟩ := hrest.eq_recv
  let puts : List (Process.Act Note) := ds.map fun d => .put [(.udp (child n root 0 0), d)]
  let stop (r : Nat) : Program Unit := if r = root then y >>= fun _ => .ret () else .ret ()
  have hs : Sim (lossless n f) stop (bcastNetwork n garbage bufs count root)
      (.start fun r => proj r (tag root puts)) := .start fun r => by
    show Performs _ r ((bcastNetwork n garbage bufs count root).prog r) _ (stop r)
    rw [proj_tag]
    by_cases hr : root = r
    case pos =>
      subst hr
      rw [if_pos rfl, bcastNetwork_prog count garbage bufs hroot, Cycle.distance_self]
      have := hy.bind (f := fun _ => .ret ()) .refl
      rw [List.append_nil] at this
      simp only [stop, if_true, Prog.bind_eq]
      exact this
    case neg =>
      rw [if_neg hr]
      simp only [stop, if_neg (Ne.symm hr)]
      by_cases hlt : r < n
      case pos =>
        have hd := Cycle.distance_pos hroot hlt hr
        obtain ⟨v, hv⟩ := receiver_overflows (k := 0) root n hl hc (Plan.ranks n garbage r) (bufs r) (n := n) hd
        rw [bcastNetwork_prog count garbage bufs hlt, hv]
        exact .refl
      case neg =>
        rw [bcastNetwork_idle (by omega)]
        exact .refl
  have hf := Flow.puts (E := Note) (fun _ => []) root (Chan.udp (child n root 0 0)) ds
  have hr := hf.reaches (fun _ => []) fun _ => []
  simp only [List.append_nil] at hr
  obtain ⟨s, rs, hs'⟩ := hs.lift_reaches hr
  have hprog r : s.prog r = stop r := (hs'.prog r).eq_of_nil
  have hroot' : s.prog root = .recv (child n root 0 0) len fun m => k m >>= fun _ => .ret () := by
    rw [hprog]
    simp only [stop, if_true, hrecv]
    rfl
  refine ⟨s, rs, ⟨root, hroot, ?_⟩, fun s' => Net.not_steps (fun r => ?_) rfl⟩
  · rw [hroot']
    exact id
  · by_cases hr : r = root
    case pos =>
      subst hr
      exact .inr ⟨_, _, _, hroot', by rw [hs'.tcp]; simp⟩
    case neg =>
      rw [hprog]
      exact .inl (by simp only [stop, if_neg hr]; trivial)

-- A rank alone has nothing to do.
theorem bcastNetwork_one (hr : Net.Reaches (lossless 1 f) (bcastNetwork 1 garbage bufs count root) s) :
    ¬Net.Stuck (lossless 1 f) 1 s := by
  have he p : ((bcastNetwork 1 garbage bufs count root).prog p).Ended := by
    by_cases hp : p < 1
    case pos =>
      rw [bcastNetwork_prog count garbage bufs hp]
      trivial
    case neg =>
      rw [bcastNetwork_idle (by omega)]
      trivial
  rcases Relation.ReflTransGen.cases_head hr with rfl | ⟨s', hs, _⟩
  · exact fun ⟨⟨p, _, hp⟩, _⟩ => hp (he p)
  · exact absurd hs (Net.not_steps (fun p => .inl (he p)) rfl)

end Runs

-- The broadcast comes to an end, whatever the network does with the order of the datagrams, where a message takes
-- several of them: one that takes a single datagram is not acknowledged. `step` is an `int`, which holds powers of 2
-- up to 2 ^ 30.
theorem binomial_terminates_iff (f : Forwarder) (garbage bufs : Nat → Mem) (hn : 1 ≤ n) (hint : n ≤ 2 ^ 30)
    (hroot : root < n) (h0 : 1 ≤ count) (hc : count < 2 ^ 31) :
    (∀ s, Net.Reaches (lossless n f) (bcastNetwork n garbage bufs count root) s → ¬Net.Stuck (lossless n f) n s) ↔
      n = 1 ∨ maxPayload < mpiHeader + count ∧ mpiHeader + count < 2 ^ 31 := by
  constructor
  case mp =>
    intro h
    by_contra hcon
    have ⟨hn1, hs⟩ := not_or.mp hcon
    by_cases hd : maxPayload < mpiHeader + count
    case pos =>
      have ⟨s, rs, hs⟩ := binomial_abandons garbage bufs f (show 2 ≤ n by omega) hroot (by omega) hc
      exact h s rs hs
    case neg =>
      have ⟨s, rs, hs⟩ := binomial_starves count garbage bufs f (show 2 ≤ n by omega) hroot (by omega) h0 hd
      exact h s rs hs
  case mpr =>
    rintro (rfl | ⟨hd, hl⟩) s rs
    · exact bcastNetwork_one rs
    · exact binomial_not_stuck hroot (by omega) hd hl rs

theorem binomial_terminates_iff_three :
    (∀ s, Net.Reaches (lossless 3 .id) (bcastNetwork 3 (fun _ _ => 0) (fun _ _ => 0) 3000 1) s →
      ¬Net.Stuck (lossless 3 .id) 3 s) ↔ 3 = 1 ∨ maxPayload < mpiHeader + 3000 ∧ mpiHeader + 3000 < 2 ^ 31 :=
  binomial_terminates_iff .id (fun _ _ => 0) (fun _ _ => 0) (by decide) (by decide) (by decide) (by decide) (by decide)

theorem binomial_deadlocks_two :
    ¬∀ (n root count : Nat) (f : Forwarder) (garbage bufs : Nat → Mem) (s : Net Note),
      1 ≤ n → root < n → 1 ≤ count → count < 2 ^ 31 →
      Net.Reaches (lossless n f) (bcastNetwork n garbage bufs count root) s → ¬Net.Stuck (lossless n f) n s := by
  intro h
  have ⟨s, rs, hs⟩ := binomial_starves 1 (fun _ _ => 0) (fun _ _ => 0) .id (show 2 ≤ 2 by decide) (show 0 < 2 by decide)
    (by decide) (by decide) (by decide)
  exact h 2 0 1 .id _ _ s (by decide) (by decide) (by decide) (by decide) rs hs

end Mpi

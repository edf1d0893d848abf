import XdpCollectives.Mpi.Theorems.Recovery

-- When a broadcast with the help of the kernel survives the loss of datagrams.
namespace Mpi

open Memory Wire Process Script

def isNack (m : Bytes) : Bool :=
  (Header.decode m).datatype.toNat = MPIDatatype.nack.code

-- What a broadcast of `data` that the datagrams of the ranks in `lost` do not get through ought to do.
structure Recovers (n root : Nat) (lost : Nat → Bool) (μ : Medium) (data : Bytes) (s : Net Note) : Prop where
  free     : ¬Net.Stuck μ n s
  same     : ∀ r < n, ∀ buf, .note (.leave 0 0 buf) ∈ s.events r → buf.read 0 data.length = data
  asks     : ∀ r < n, r ≠ root → lost r → Left 0 (s.events r) → ∃ q m, .send q m ∈ s.events r ∧ isNack m
  answered : ∀ r < n, Left 0 (s.events r) → ∀ q m, .send q m ∈ s.events r → isNack m →
    .recv r m ∈ s.events q ∧ ∃ m', .send r m' ∈ s.events q ∧ .recv q m' ∈ s.events r

-- When it does.
structure Survives (n root es count : Nat) (datatype : MPIDatatype) (lost : Nat → Bool) (data : Bytes) : Prop where
  single : es = 1 ∨ mpiHeader + es * count ≤ payloadSize
  next   : ∀ r < n, r ≠ root → lost r → (r + n - 1) % n = root
  twice  : genericNtoh es count (genericHton es count data) = data
  last   : datatype.isChar → data.drop (es * (count - 1)) = List.replicate es 0 ∨ ∀ r < n, r ≠ root → lost r

theorem isChar_size {t : MPIDatatype} {es : Nat} (hs : t.sizeof? = some es) (hc : t.isChar) : es ≠ 16 := by
  cases t <;> simp_all [MPIDatatype.sizeof?, MPIDatatype.isChar] <;> omega

namespace XdpCall

variable {x : XdpCall} {garbage : Nat → Mem} {bufs : Nat → Nat → Mem} {call : Call} {f : Forwarder} {s : Net Note}
  {a : Process.Plan Note} {r : Nat}

theorem sendable_iff : Sendable x.es x.count ↔ x.es = 1 ∨ mpiHeader + x.es * x.count ≤ payloadSize := by
  have ⟨h0, hc⟩ := x.single
  rw [Sendable]
  constructor
  · rintro ⟨_, h | h⟩
    · exact .inr h
    · exact .inl h.left
  · rintro (h | h)
    · rw [h] at hc
      simp only [maxPayload] at hc
      exact ⟨h0, .inr ⟨h, by omega⟩⟩
    · exact ⟨h0, .inl h⟩

theorem left_done (hr : (State.start (round x.n 0 x.outcome)).Reaches a) (hlt : r < x.n)
    (hl : .note (.leave 0 ret buf) ∈ a.done r) : a.done r = round x.n 0 x.outcome r :=
  eq_round_of_leave (fun _ he => ⟨_, outcome_quiet he⟩) hlt (hr.done_prefix r) hl

theorem completes (hx : x.Recoverable) : (State.start (round x.n 0 x.outcome)).Completes := by
  have ⟨_, hf, _⟩ := outcome_flow hx
  have ⟨_, hp, hg⟩ := round_flow (fun _ => outcome_idle) hf 0
  exact hg.completes hp

-- A rank that has the message from the root has asked it.
theorem mended (hr : (State.start (round x.n 0 x.outcome)).Reaches a) (hlt : r < x.n) (hne : r ≠ x.root)
    (hl : x.lost r) (hp : x.prev r = x.root) (hd : a.done r = round x.n 0 x.outcome r) :
    .get (.tcp r x.root) (x.nack r).encode ∈ a.done x.root ∧
      .put [(.tcp x.root r, x.retransmission r)] ∈ a.done x.root := by
  let c : Chan := .tcp x.root r
  have ⟨l₁, l₂, hl₁⟩ := List.append_of_mem (List.mem_range.mpr hlt)
  have hr₁ : r ∉ l₁ := by
    have hn := List.nodup_range (n := x.n)
    rw [hl₁, List.nodup_append] at hn
    exact fun h => hn.right.right r h r List.mem_cons_self rfl
  let settle (i : Nat) : List (Process.Act Note) := if i = x.root then [] else x.settles i
  let pre : List (Process.Act Note) :=
    .note (.enter 0) :: (x.scatter ++ l₁.flatMap settle) ++ [.get (.tcp r x.root) (x.nack r).encode]
  let ask : Process.Act Note := .put [(c, x.retransmission r)]
  let post : List (Process.Act Note) := l₂.flatMap settle ++ [.note (.leave 0 0 (x.outcome.buf x.root))]
  have hs : round x.n 0 x.outcome x.root = pre ++ ask :: post := by
    rw [round, if_pos x.root_lt, proj_root, hl₁]
    simp only [List.flatMap_append, List.flatMap_cons, if_neg hne]
    rw [show x.settles r = [.get (.tcp r x.root) (x.nack r).encode, ask] by rw [settles, if_pos ⟨hl, hp⟩]]
    simp [pre, post, settle]
  have hpre : pre.flatMap (Act.puts c) = [] := by
    have h₁ : (l₁.flatMap settle).flatMap (Act.puts c) = [] := by
      rw [List.flatMap_assoc, List.flatMap_eq_nil_iff]
      intro i hi
      have hir : i ≠ r := fun he => hr₁ (he ▸ hi)
      simp only [settle]
      split
      · rfl
      · rw [settles]
        split <;> simp [Act.puts, outsOn, c, hir]
    have h₂ : x.scatter.flatMap (Act.puts c) = [] := by
      rw [scatter, List.flatMap_singleton, Act.puts, outsOn_scatter x.audience_nodup]
      simp [c]
    simp only [pre, List.cons_append, List.flatMap_cons, List.flatMap_append, h₁, h₂]
    rfl
  have hlen : (pre.flatMap (Act.puts c)).length < ((a.done x.root).flatMap (Act.puts c)).length := by
    have hg : (a.done r).flatMap (Act.gets c) = [x.retransmission r] := by
      rw [hd, round_flatMap (fun _ => rfl) 0 hlt, proj_other hne, if_pos hlt, gets_answers, if_pos hl,
        if_pos (by rw [hp])]
    have hc : (a.done x.root).flatMap (Act.puts c) = (a.done r).flatMap (Act.gets c) ++ a.queue c :=
      State.Conserves.start.reaches (w := wiring fun _ => x.root) (fun p => x.round_owned p) hr c
    rw [hc, hg, hpre]
    simp
  have hin := (done_prefix_of_puts _ (hs ▸ hr.done_prefix x.root) hlen).subset
  exact ⟨hin (by simp [pre]), hin (by simp [ask, c])⟩

theorem not_isNack_ack : ¬isNack (x.ack r).encode := by
  have h := Header.decode_encode (x.ack r) []
  rw [List.append_nil] at h
  simp only [isNack, h, decide_eq_true_eq]
  exact ack_code _ _ _

theorem isNack_nack : isNack (x.nack r).encode := by
  have h := Header.decode_encode (x.nack r) []
  rw [List.append_nil] at h
  simp only [isNack, h, decide_eq_true_eq]
  rfl

theorem not_isNack_retransmission : ¬isNack (x.retransmission r) := by
  have hs := x.sized
  rw [retransmission, parcel]
  simp only [isNack, Header.decode_encode, decide_eq_true_eq, notice, header]
  generalize x.datatype = t at hs
  cases t <;> simp [MPIDatatype.sizeof?] at hs <;> decide

-- The request of a rank without the datagram is the only one.
theorem isNack_put (hlt : r < x.n) (h : .put [(.tcp r q, m)] ∈ round x.n 0 x.outcome r) (hm : isNack m) :
    r ≠ x.root ∧ x.lost r ∧ q = x.prev r ∧ m = (x.nack r).encode := by
  rw [round, if_pos hlt] at h
  simp only [List.mem_cons, reduceCtorEq, List.mem_append, List.not_mem_nil, or_false, false_or] at h
  by_cases hr : r = x.root
  case pos =>
    subst hr
    rw [proj_root, List.mem_append, List.mem_flatMap] at h
    rcases h with h | ⟨i, _, h⟩
    · simp only [scatter, List.mem_singleton, Act.put.injEq] at h
      have : (Chan.tcp x.root q, m) ∈ x.audience.map fun r => (Chan.udp r, x.datagram) := h ▸ List.mem_singleton_self _
      simp at this
    · split at h
      · contradiction
      · rw [settles] at h
        split at h <;> simp at h
        exact absurd (h.right ▸ hm) not_isNack_retransmission
  case neg =>
    rw [proj_other hr, if_pos hlt, answers] at h
    split at h
    case isTrue hl =>
      simp [asks, mends] at h
      rcases h with ⟨rfl, rfl⟩ | ⟨rfl, rfl⟩
      · exact ⟨hr, hl, rfl, rfl⟩
      · exact absurd hm not_isNack_ack
    case isFalse =>
      simp [receipt] at h
      exact absurd (h.right ▸ hm) not_isNack_ack

section Contents

def message (x : XdpCall) : Bytes :=
  (x.b x.root).read 0 (x.es * x.count)

theorem mem_read (r : Nat) : (x.mem r).read 0 (x.es * x.count) =
    if ¬x.lost r ∧ x.datatype.isChar then
      (genericNtoh x.es x.count (genericHton x.es x.count x.message)).take (x.es * (x.count - 1)) ++
        List.replicate x.es 0
    else genericNtoh x.es x.count (genericHton x.es x.count x.message) := by
  have he := MPIDatatype.sizeof?_elementSize x.sized
  have hd : converted x.es x.count (x.b x.root) = genericNtoh x.es x.count (genericHton x.es x.count x.message) := rfl
  rw [mem, ← hd]
  by_cases hl : x.lost r
  case pos => simpa [hl] using restored_read he
  case neg => simpa [hl] using stored_read _ he x.single.left

-- When all ranks have the message of the root.
theorem same_iff : (∀ r < x.n, (x.outcome.buf r).read 0 (x.es * x.count) = x.message) ↔
    genericNtoh x.es x.count (genericHton x.es x.count x.message) = x.message ∧
      (x.datatype.isChar → x.message.drop (x.es * (x.count - 1)) = List.replicate x.es 0 ∨
        ∀ r < x.n, r ≠ x.root → x.lost r) := by
  have hbuf {r} (hne : r ≠ x.root) : x.outcome.buf r = x.mem r := if_neg hne
  constructor
  · intro h
    have hmem r (hlt : r < x.n) (hne : r ≠ x.root) := (mem_read r).symm.trans (hbuf hne ▸ h r hlt)
    have htwice : genericNtoh x.es x.count (genericHton x.es x.count x.message) = x.message := by
      by_cases hc : x.datatype.isChar
      case pos => exact converted_eq (MPIDatatype.sizeof?_elementSize x.sized) (isChar_size x.sized hc)
      case neg => simpa [hc] using hmem x.next x.next_lt x.next_ne
    refine ⟨htwice, fun hc => ?_⟩
    by_cases hl : ∀ r < x.n, r ≠ x.root → x.lost r
    case pos => exact .inr hl
    case neg =>
      simp only [not_forall] at hl
      have ⟨r, hlt, hne, hl⟩ := hl
      have hr := hmem r hlt hne
      rw [if_pos ⟨hl, hc⟩, htwice] at hr
      refine .inl ?_
      have hlen : (x.message.take (x.es * (x.count - 1))).length = x.es * (x.count - 1) := by
        have := Nat.mul_le_mul_left x.es (Nat.sub_le x.count 1)
        simp [message, this]
      conv_lhs => rw [← hr]
      rw [List.drop_left' hlen]
  · intro ⟨htwice, hlast⟩ r hlt
    by_cases hne : r = x.root
    case pos =>
      subst hne
      simp [outcome, message]
    case neg =>
      rw [hbuf hne, mem_read, htwice]
      split
      case isTrue hc =>
        rcases hlast hc.right with hd | hl
        · rw [← hd, List.take_append_drop]
        · exact absurd (hl r hlt hne) hc.left
      case isFalse => rfl

end Contents

section Runs

variable (h : x.Describes garbage bufs call) (f : Forwarder)
include h

theorem recovers (he : x.Emits) (hx : x.Recoverable)
    (hs : ∀ r < x.n, (x.outcome.buf r).read 0 (x.es * x.count) = x.message)
    (hr : Net.Reaches (medium x.n f x.lost) (network x.n garbage bufs [call]) s) :
    Recovers x.n x.root x.lost (medium x.n f x.lost) x.message s := by
  obtain ⟨a, ra, hsim⟩ := h.reaches f he hr
  have hdone {r} (hlt : r < x.n) (hl : Left 0 (s.events r)) : a.done r = round x.n 0 x.outcome r := by
    obtain ⟨_, _, hl⟩ := hl
    exact left_done ra hlt <| (note_mem_iff (hsim.events r)).mp hl
  have howned : (State.start (round x.n 0 x.outcome)).Owned (wiring fun _ => x.root) := fun p => x.round_owned p
  constructor
  case free =>
    exact hsim.not_stuck (stops_ended trivial) ((completes hx).reaches howned ra) x.n
  case same =>
    intro r hlt buf hm
    have hm := (ra.done_prefix r).subset <| (note_mem_iff (hsim.events r)).mp hm
    obtain ⟨_, _, hb⟩ := round_leave (fun e he => ⟨_, outcome_quiet he⟩) hm
    have hlen : x.message.length = x.es * x.count := by simp [message]
    rw [hb, hlen, hs r hlt]
  case asks =>
    intro r hlt hne hl hleft
    refine ⟨x.prev r, (x.nack r).encode, (send_mem_iff (hsim.events r)).mpr ?_, isNack_nack⟩
    rw [hdone hlt hleft, round, if_pos hlt, proj_other hne, if_pos hlt, answers, if_pos hl]
    simp [asks]
  case answered =>
    intro r hlt hleft q m hm hn
    have hm := (send_mem_iff (hsim.events r)).mp hm
    have hd := hdone hlt hleft
    obtain ⟨hne, hl, rfl, rfl⟩ := isNack_put hlt (hd ▸ hm) hn
    have hp := hx r hlt hne hl
    obtain ⟨h₁, h₂⟩ := mended ra hlt hne hl hp hd
    rw [hp]
    refine ⟨(recv_mem_iff (hsim.events x.root)).mpr h₁, x.retransmission r, (send_mem_iff (hsim.events x.root)).mpr h₂,
      (recv_mem_iff (hsim.events r)).mpr ?_⟩
    rw [hd, round, if_pos hlt, proj_other hne, if_pos hlt, answers, if_pos hl]
    simp [mends, hp]

-- Nothing that the root could do would help.
theorem stuck_of_unrecoverable (he : x.Emits) (hx : ¬x.Recoverable) :
    ∃ s, Net.Reaches (medium x.n f x.lost) (network x.n garbage bufs [call]) s ∧
      Net.Stuck (medium x.n f x.lost) x.n s := by
  simp only [Recoverable, not_forall] at hx
  have ⟨r, hlt, hne, hl, hp⟩ := hx
  refine h.stuck f x.round_partial (h.round_performs f x.root_lt fun rest => root_performs he f rest) trivial
    (.tcp (x.prev r) r) ?_ ?_
  · show (x.scripts _ r).flatMap _ ≠ []
    rw [scripts_other hne fun _ => rfl, if_pos hlt, gets_answers, if_pos hl, if_pos rfl]
    simp
  · show (x.scripts _ (x.prev r)).flatMap _ = []
    have hpp := prev_prev_ne hlt hne hp
    rw [scripts_other hp fun _ => rfl, if_pos x.prev_lt, puts_answers]
    simp [Ne.symm hpp, hne]

theorem stuck_of_unsendable (hs : ¬Sendable x.es x.count) :
    ∃ s, Net.Reaches (medium x.n f x.lost) (network x.n garbage bufs [call]) s ∧
      Net.Stuck (medium x.n f x.lost) x.n s := by
  rw [sendable_iff, not_or] at hs
  have hfault : Performs (medium x.n f x.lost) x.root
      (performCalls (bufs x.root) 0 [call] (.init x.n x.root (garbage x.root))) [.note (.enter 0)] .fault := by
    have ⟨rest, hc⟩ := h.call
    have hc := hc x.root
    have ⟨hrank, hsize⟩ := x.ranked x.root x.root_lt
    have hnext : (x.P x.root).next = x.next := by rw [ProcessInfo.next, hrank, hsize]; rfl
    have hf := _mpiSend_fault (x.b x.root) 1 x.collective (p := x.P x.root)
      (hsize ▸ x.root_lt) (hsize ▸ x.next_lt) x.sized x.single hs.left (Nat.lt_of_not_le hs.right)
    rw [bcastXdp, if_pos hrank, hnext, hf] at hc
    rw [h.ranks, h.bufs] at hc
    refine .note ?_
    rw [show Call.perform (.init x.n x.root (garbage x.root)) (bufs x.root 0) call = _ from hc]
    exact .refl
  have hn := x.next_ne
  by_cases hl : x.lost x.next
  case pos =>
    refine h.stuck f x.enter_partial hfault trivial (.tcp (x.prev x.next) x.next) ?_ ?_
    · show (x.scripts _ x.next).flatMap _ ≠ []
      rw [scripts_other hn fun _ => rfl, if_pos x.next_lt, gets_answers, if_pos hl, if_pos rfl]
      simp
    · show (x.scripts _ (x.prev x.next)).flatMap _ = []
      have hp : x.prev x.next = x.root := by
        have hroot := x.root_lt
        rw [prev, next, Cycle.add_mod_pred (by omega) x.root 0, Nat.add_zero, Nat.mod_eq_of_lt hroot]
      rw [hp, scripts_root]
      rfl
  case neg =>
    refine h.stuck f x.enter_partial hfault trivial (.udp x.next) ?_ ?_
    · show (x.scripts _ x.next).flatMap _ ≠ []
      rw [scripts_other hn fun _ => rfl, if_pos x.next_lt, gets_answers, if_neg hl, if_pos rfl]
      simp
    · show (x.scripts _ x.root).flatMap _ = []
      rw [scripts_root]
      rfl

-- A run to the end, in which all ranks leave the broadcast.
theorem leaves_all (he : x.Emits) (hx : x.Recoverable) :
    ∃ s, Net.Reaches (medium x.n f x.lost) (network x.n garbage bufs [call]) s ∧
      ∀ r < x.n, .note (.leave 0 0 (x.outcome.buf r)) ∈ s.events r := by
  have ⟨a, ra, hend⟩ := completes hx
  have ⟨s, rs, hsim⟩ := (h.sim_round f he).lift_reaches ra
  refine ⟨s, rs, fun r hlt => (note_mem_iff (hsim.events r)).mpr ?_⟩
  have hs : a.script r = round x.n 0 x.outcome r := congrFun ra.script_eq r
  rw [State.script, hend r, List.append_nil] at hs
  rw [hs, round, if_pos hlt]
  simp

theorem recovers_iff (hem : Sendable x.es x.count → x.Emits) :
    (∀ s, Net.Reaches (medium x.n f x.lost) (network x.n garbage bufs [call]) s →
      Recovers x.n x.root x.lost (medium x.n f x.lost) x.message s) ↔
        Survives x.n x.root x.es x.count x.datatype x.lost x.message := by
  constructor
  · intro hall
    have hsend : Sendable x.es x.count := by
      by_contra hs
      have ⟨s, rs, hst⟩ := stuck_of_unsendable h f hs
      exact (hall s rs).free hst
    have he := hem hsend
    have hx : x.Recoverable := by
      by_contra hx
      have ⟨s, rs, hst⟩ := stuck_of_unrecoverable h f he hx
      exact (hall s rs).free hst
    have ⟨s, rs, hl⟩ := leaves_all h f he hx
    have hsame : ∀ r < x.n, (x.outcome.buf r).read 0 (x.es * x.count) = x.message := by
      intro r hlt
      have := (hall s rs).same r hlt _ (hl r hlt)
      rwa [show x.message.length = x.es * x.count by simp [message]] at this
    have ⟨htwice, hlast⟩ := same_iff.mp hsame
    exact ⟨sendable_iff.mp hsend, hx, htwice, hlast⟩
  · intro hs s rs
    exact recovers h f (hem (sendable_iff.mpr hs.single)) hs.next (same_iff.mpr ⟨hs.twice, hs.last⟩) rs

end Runs

end XdpCall

section Calls

variable {n root es count : Nat} {datatype : MPIDatatype} {b : Bcast} {lost : Nat → Bool}

variable (root es count datatype) in
theorem exists_xdpCall (hb : b = .ringXdp ∨ b = .linearXdp) (hn : 2 ≤ n) (hi : n < 2 ^ 31) (hroot : root < n)
    (hs : datatype.sizeof? = some es) (hc : Single es count) (garbage : Nat → Mem) (bufs : Nat → Nat → Mem)
    (lost : Nat → Bool) :
    ∃ x : XdpCall, x.Describes garbage bufs (.bcast b count datatype root) ∧
      (Sendable x.es x.count → x.Emits) ∧ x.n = n ∧ x.root = root ∧ x.es = es ∧ x.count = count ∧
      x.datatype = datatype ∧ x.lost = lost := by
  let collective : MPICollective := if b = .ringXdp then .bcastRing else .bcastLinear
  have ⟨datagram, head, carries, he⟩ : ∃ d h, Carries d h (payload es count (bufs root 0)) ∧
      (Sendable es count → datagrams (Plan.ranks n garbage root) (bufs root 0) es count datatype root ((root + 1) % n)
        1 collective = [d]) := by
    by_cases hsend : Sendable es count
    case pos =>
      have ⟨d, h, hd, hh, _⟩ := datagrams_single root _ (bufs root 0) 1 collective (p := Plan.ranks n garbage root)
        (r := (root + 1) % n) hs hsend hc
      exact ⟨d, h, hh, fun _ => hd⟩
    case neg => exact ⟨_, notice (Plan.ranks n garbage root) datatype root 1, ⟨[], rfl⟩, fun h => absurd h hsend⟩
  let x : XdpCall := {
    n, root, es, count, datatype, collective, lost, P := Plan.ranks n garbage, b := fun r => bufs r 0
    two := hn, root_lt := hroot, ranked := Plan.ranks_ranked n garbage, sized := hs, single := hc, datagram, head,
      carries
    forwarded := by by_cases h : b = .ringXdp <;> simp [collective, h], int := fun _ _ => hi }
  refine ⟨x, ⟨rfl, rfl, ?_⟩, fun hs => ⟨hs, he hs⟩, rfl, rfl, rfl, rfl, rfl, rfl⟩
  rcases hb with rfl | rfl
  · exact ⟨fun _ _ => 0, fun _ => rfl⟩
  · exact ⟨garbage, fun _ => rfl⟩

-- A broadcast with the help of the kernel gets over the loss of a datagram only at the rank behind the
-- root.
theorem broadcast_recovers_iff (hb : b = .ringXdp ∨ b = .linearXdp) (hn : 2 ≤ n) (hi : n < 2 ^ 31) (hroot : root < n)
    (hs : datatype.sizeof? = some es) (hc : Single es count) (f : Forwarder) (garbage : Nat → Mem)
    (bufs : Nat → Nat → Mem) (lost : Nat → Bool) :
    (∀ s, Net.Reaches (medium n f lost) (network n garbage bufs [.bcast b count datatype root]) s →
      Recovers n root lost (medium n f lost) ((bufs root 0).read 0 (es * count)) s) ↔
        Survives n root es count datatype lost ((bufs root 0).read 0 (es * count)) := by
  obtain ⟨x, h, he, rfl, rfl, rfl, rfl, rfl, rfl⟩ := exists_xdpCall _ _ _ _ hb hn hi hroot hs hc garbage bufs lost
  have hm : x.message = (bufs x.root 0).read 0 (x.es * x.count) := by rw [XdpCall.message, h.bufs]
  exact hm ▸ x.recovers_iff h f he

theorem broadcast_recovers_two :
    (∀ s, Net.Reaches (medium 2 .id fun _ => true)
        (network 2 (fun _ _ => 0) (texts 0 2) [.bcast .ringXdp (3 : Nat) .char 0]) s →
      Recovers 2 0 (fun _ => true) (medium 2 .id fun _ => true) ((texts 0 2 0 0).read 0 (1 * 3)) s) ↔
        Survives 2 0 1 3 .char (fun _ => true) ((texts 0 2 0 0).read 0 (1 * 3)) :=
  broadcast_recovers_iff (.inl rfl) (by decide) (by decide) (by decide) rfl ⟨by decide, by decide⟩ .id (fun _ _ => 0)
    (texts 0 2) fun _ => true

-- Rank 2 asks rank 1, which does not listen.
theorem broadcast_stuck_three :
    ∃ s, Net.Reaches (medium 3 .id (· = 2))
        (network 3 (fun _ _ => 0) (fun _ _ _ => 0) [.bcast .ringXdp (3 : Nat) .char 0]) s ∧
      Net.Stuck (medium 3 .id (· = 2)) 3 s := by
  obtain ⟨x, h, he, hn, hroot, hes, hcount, _, hlost⟩ := exists_xdpCall 0 1 3 .char (b := .ringXdp) (n := 3) (.inl rfl)
    (by decide) (by decide) (by decide) rfl ⟨by decide, by decide⟩ (fun _ _ => 0)
    (fun _ _ _ => 0) (· = 2)
  have hx : ¬x.Recoverable := by
    intro hx
    have := hx 2 (by omega) (by omega) (by simp [hlost])
    simp [XdpCall.prev, hn, hroot] at this
  have := x.stuck_of_unrecoverable h .id (he (by simp [hes, hcount, Sendable, payloadSize, maxPayload, mpiHeader])) hx
  rwa [hn, hlost] at this

end Calls

end Mpi

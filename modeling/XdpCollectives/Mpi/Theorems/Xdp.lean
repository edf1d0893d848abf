import XdpCollectives.Mpi.Theorems.Linear

-- `mpi_bcast_ring_xdp` and `mpi_bcast_linear_xdp` with messages of one datagram.
namespace Mpi

open Memory Wire Process Script

-- A call of one of the two by the ranks `P`, with the buffers `b`. The datagram with the message does
-- not get to the ranks in `lost`.
structure XdpCall where
  n          : Nat
  root       : Nat
  es         : Nat
  count      : Nat
  datatype   : MPIDatatype
  collective : MPICollective
  lost       : Nat → Bool
  P          : Nat → ProcessInfo
  b          : Nat → Mem
  two        : 2 ≤ n
  root_lt    : root < n
  ranked     : Ranked n P
  sized      : datatype.sizeof? = some es
  single     : Single es count
  datagram   : Bytes
  head       : Header
  carries    : Carries datagram head (payload es count (b root))
  forwarded  : collective = .bcastRing ∨ collective = .bcastLinear
  -- A rank is an `int`, which matters when it is read from a header.
  int        : ∀ i, lost i → n < 2 ^ 31

namespace XdpCall

variable (x : XdpCall)

def next : Nat := (x.root + 1) % x.n

def prev (i : Nat) : Nat := (i + x.n - 1) % x.n

def rootProc : ProcessInfo :=
  (x.P x.root).countId x.root x.next

def proc (i : Nat) : ProcessInfo :=
  (x.P i).countId (x.prev i) i

-- The root sends that datagram, and no other one.
structure Emits : Prop where
  sendable  : Sendable x.es x.count
  datagrams :
    datagrams (x.P x.root) (x.b x.root) x.es x.count x.datatype x.root x.next 1 x.collective = [x.datagram]

-- The ranks that the kernel forwards a datagram of the root to, and that get it.
def audience : List Nat :=
  ((List.range x.n).filter (· ≠ x.root)).filter fun r => !x.lost r

-- A rank has the message from a datagram, or from a connection.
def mem (i : Nat) : Mem :=
  if x.lost i then restored x.es x.count x.datatype (payload x.es x.count (x.b x.root)) (x.b i)
  else stored x.es x.count x.datatype (payload x.es x.count (x.b x.root)) (x.b i)

def ack (i : Nat) : Header :=
  notice (x.proc i) .ack x.root 1

def nack (i : Nat) : Header :=
  notice (x.P i) .nack (x.prev i) 1

def retransmission (i : Nat) : Bytes :=
  parcel x.rootProc x.es x.count x.datatype (x.b x.root) i 1

-- A rank without a datagram turns to the rank before it.
def asks (i : Nat) : List (Process.Act Note) :=
  [.timeout, .put [(.tcp i (x.prev i), (x.nack i).encode)]]

def mends (i : Nat) : List (Process.Act Note) :=
  [.get (.tcp (x.prev i) i) (x.retransmission i), .note (.stored (x.mem i)),
    .put [(.tcp i x.root, (x.ack i).encode)]]

-- What the root does about rank `i`, and all that rank `i` does.
def settles (i : Nat) : List (Process.Act Note) :=
  if x.lost i ∧ x.prev i = x.root then
    [.get (.tcp i x.root) (x.nack i).encode, .put [(.tcp x.root i, x.retransmission i)]]
  else [.get (.tcp i x.root) (x.ack i).encode]

def answers (i : Nat) : List (Process.Act Note) :=
  if x.lost i then x.asks i ++ x.mends i else receipt x.root i [x.datagram] (x.mem i) [(x.ack i).encode]

def part (i : Nat) : List (Nat × Process.Act Note) :=
  if i = x.root then []
  else if x.lost i then
    tag i (x.asks i) ++ (tag x.root (x.settles i) ++ tag i (x.mends i))
  else serve x.root i [x.datagram] (x.mem i) (x.ack i).encode []

def scatter : List (Process.Act Note) :=
  [.put (x.audience.map fun r => (.udp r, x.datagram))]

def outcome : Outcome where
  flow   := tag x.root x.scatter ++ (List.range x.n).flatMap x.part
  buf r  := if r = x.root then x.b x.root else x.mem r
  proc r := if r = x.root then x.rootProc else x.proc r

variable {x} {i r : Nat}

theorem proj_part (hne : i ≠ x.root) (r : Nat) :
    proj r (x.part i) = if r = i then x.answers i else if r = x.root then x.settles i else [] := by
  rw [part, if_neg hne, answers]
  by_cases hl : x.lost i
  case pos =>
    simp only [hl, if_true, proj_append, proj_tag]
    by_cases h₁ : r = i
    case pos => simp [h₁, Ne.symm hne]
    case neg =>
      by_cases h₂ : r = x.root
      case pos => simp [h₂, Ne.symm hne, hne]
      case neg => simp [h₁, h₂, Ne.symm h₁, Ne.symm h₂]
  case neg =>
    by_cases h₁ : r = i
    case pos =>
      subst h₁
      simpa [hl] using proj_serve_receiver (Ne.symm hne)
    case neg =>
      by_cases h₂ : r = x.root
      case pos =>
        subst h₂
        simpa [settles, hl, h₁] using proj_serve_sender h₁
      case neg => simpa [hl, h₁, h₂] using proj_serve_other (Ne.symm h₂) (Ne.symm h₁)

theorem proj_root :
    proj x.root x.outcome.flow =
      x.scatter ++ (List.range x.n).flatMap fun i => if i = x.root then [] else x.settles i := by
  rw [outcome, proj_append, proj_tag, if_pos rfl, proj_flatMap]
  congr 2
  funext i
  by_cases hi : i = x.root
  case pos => simp [part, hi]
  case neg => rw [proj_part hi, if_neg (Ne.symm hi), if_pos rfl, if_neg hi]

theorem proj_other (hne : r ≠ x.root) :
    proj r x.outcome.flow = if r < x.n then x.answers r else [] := by
  rw [outcome, proj_append, proj_tag, if_neg (Ne.symm hne), List.nil_append, proj_flatMap,
    flatMap_only (i := r) (A := x.answers r) List.nodup_range fun j _ => ?_]
  · simp only [List.mem_range]
  · by_cases hj : j = x.root
    case pos => simp [part, hj, Ne.symm hne]
    case neg =>
      rw [proj_part hj]
      by_cases hr : r = j
      case pos => simp [hr]
      case neg => simp [hr, Ne.symm hr, hne]

theorem outs_forwarded (he : x.Emits) (f : Forwarder) (dest : Nat) :
    (medium x.n f x.lost).outs x.root dest x.datagram = x.audience.map fun r => (.udp r, x.datagram) := by
  have hc := datagrams_collective (he.datagrams ▸ List.mem_singleton_self x.datagram)
  simp only [Medium.outs, medium, recipients, hc, MPICollective.ofCode_code]
  rcases x.forwarded with h | h <;> simp only [h, audience]

theorem next_lt : x.next < x.n :=
  Nat.mod_lt _ (Nat.zero_lt_of_lt x.root_lt)

theorem next_ne : x.next ≠ x.root :=
  Cycle.add_mod_ne x.root_lt Nat.one_pos x.two

theorem prev_lt : x.prev i < x.n :=
  Nat.mod_lt _ (Nat.zero_lt_of_lt x.root_lt)

theorem prev_ne (hi : i < x.n) : x.prev i ≠ i := by
  have := x.two
  rw [prev, Nat.add_sub_assoc (by omega)]
  exact Cycle.add_mod_ne hi (by omega) (by omega)

theorem length_lt : mpiHeader + x.es * x.count < 2 ^ 31 := by
  have := x.single.right
  simp only [maxPayload] at this
  omega

theorem payload_len (m : Mem) : (payload x.es x.count m).length = x.es * x.count :=
  payload_length (MPIDatatype.sizeof?_elementSize x.sized)

theorem nack_root (hi : i < x.n) (hl : x.lost i) : (x.nack i).root.toInt = i := by
  have hn := x.int i hl
  have hr := (x.ranked i hi).left
  simp only [nack, notice, header, hr]
  exact BitVec.toInt_ofInt_eq_self (by decide) (by omega) (by omega)

theorem rootProc_rank : x.rootProc.rank = x.root := (x.ranked x.root x.root_lt).left

theorem rootProc_size : x.rootProc.size = x.n := (x.ranked x.root x.root_lt).right

theorem proc_rank (hi : i < x.n) : (x.proc i).rank = i := (x.ranked i hi).left

theorem proc_size (hi : i < x.n) : (x.proc i).size = x.n := (x.ranked i hi).right

-- The root takes a header from one rank after the other.
theorem recvAcks_performs (f : Forwarder) (rest : Mem) (l : List Nat) (hl : ∀ i ∈ l, i < x.n) :
    Performs (medium x.n f x.lost) x.root
      (recvAcks x.rootProc (x.b x.root) x.count x.datatype 1 rest l)
      (l.flatMap fun i => if i = x.root then [] else x.settles i) (.ret ()) := by
  have hrank := x.rootProc_rank
  have hsize := x.rootProc_size
  have hroot := x.root_lt
  induction l with
  | nil => exact .refl
  | cons i l hi =>
    have hlt := hl i List.mem_cons_self
    have h := hi fun j hj => hl j (List.mem_cons_of_mem _ hj)
    rw [recvAcks, List.flatMap_cons]
    by_cases he : i = x.root
    case pos =>
      rw [if_neg (by simp [hrank, he]), if_pos he]
      exact h
    case neg =>
      have hget (h : Header) := recvHeader_performs (μ := medium x.n f x.lost) (p := x.rootProc) (r := i)
        (by omega) (by omega) h rest
      rw [hrank] at hget
      rw [if_pos (by omega), if_neg he]
      by_cases hn : x.lost i ∧ x.prev i = x.root
      case pos =>
        have hs := _mpiSendTcp_performs (x.b x.root) (μ := medium x.n f x.lost) (p := x.rootProc) (r := i)
          (by omega) (by omega) (by omega) x.sized x.single.left x.length_lt 1
        have hc : (x.nack i).datatype.toNat = MPIDatatype.nack.code := rfl
        rw [hrank] at hs
        rw [settles, if_pos hn]
        refine (hget (x.nack i)).seq ?_
        rw [if_pos hc, nack_root hlt hn.left, hrank]
        exact hs.seq h
      case neg =>
        rw [settles, if_neg hn]
        have hc : (x.ack i).datatype.toNat ≠ MPIDatatype.nack.code := ack_code _ _ _
        refine (hget (x.ack i)).seq ?_
        rw [if_neg hc]
        exact h

theorem root_performs (he : x.Emits) (f : Forwarder) (rest : Mem) :
    Performs (medium x.n f x.lost) x.root
      (bcastXdp x.collective rest (x.P x.root) (x.b x.root) x.count x.datatype x.root)
      (proj x.root x.outcome.flow) (.ret (0, x.outcome.buf x.root, x.outcome.proc x.root)) := by
  have ⟨hrank, hsize⟩ := x.ranked x.root x.root_lt
  have hroot := x.root_lt
  have hnext : (x.P x.root).next = x.next := by rw [ProcessInfo.next, hrank, hsize]; rfl
  have hne := x.next_ne
  have hlt := x.next_lt
  have hs := _mpiSend_performs x.root _ (x.b x.root) 1 x.collective (μ := medium x.n f x.lost) (p := x.P x.root)
    (r := x.next) (by omega) (by omega) (by omega) x.sized he.sendable
  have ha := recvAcks_performs (x := x) f rest (List.range x.n) fun i hi => List.mem_range.mp hi
  rw [hrank, he.datagrams, List.map_singleton, outs_forwarded he] at hs
  rw [proj_root, scatter, bcastXdp, if_pos hrank, hnext]
  refine hs.seq ?_
  change Performs _ _ (recvAcks x.rootProc (x.b x.root) x.count x.datatype 1 rest (List.range x.rootProc.size) >>=
    fun _ => pure (0, x.b x.root, x.rootProc)) _ _
  rw [rootProc_size]
  simp only [outcome, if_true]
  exact ha.map rfl

theorem other_performs (f : Forwarder) (rest : Mem) (hr : r < x.n) (hne : r ≠ x.root) :
    Performs (medium x.n f x.lost) r
      (bcastXdp x.collective rest (x.P r) (x.b r) x.count x.datatype x.root)
      (proj r x.outcome.flow) (.ret (0, x.outcome.buf r, x.outcome.proc r)) := by
  have ⟨hrank, hsize⟩ := x.ranked r hr
  have hroot := x.root_lt
  have hprev : (x.P r).prev = x.prev r := by rw [ProcessInfo.prev, hrank, hsize]; rfl
  have hpl := x.prev_lt (i := r)
  have hpn := x.prev_ne hr
  have hc0 := x.single.left
  have hack := _mpiSendTcpLostPacket_performs .ack (μ := medium x.n f x.lost) (p := x.proc r) (r := x.root)
    (by rw [proc_rank hr, proc_size hr]; exact hr) (by rw [proc_size hr]; exact hroot)
    (by rw [proc_rank hr]; exact Ne.symm hne) 1
  rw [proc_rank hr] at hack
  have hrecv : Performs (medium x.n f x.lost) r (mpiRecv (x.P r) (x.b r) x.count x.datatype (x.prev r) 1)
      ((x.answers r).dropLast) (.ret (x.count, x.mem r, x.proc r)) := by
    by_cases hl : x.lost r
    case pos =>
      have h := mpiRecv_timeout x.datatype (x.b r) 1 (μ := medium x.n f x.lost) (p := x.P r) (r := x.prev r)
        (by rw [hrank]; exact hl) (by omega) (by omega) (by omega) x.sized x.single
        (h := notice x.rootProc x.datatype r 1) (payload_len (x := x) (x.b x.root))
      rw [hrank] at h
      have hmem : x.mem r = restored x.es x.count x.datatype (payload x.es x.count (x.b x.root)) (x.b r) := if_pos hl
      rw [answers, if_pos hl, asks, mends, hmem]
      exact h
    case neg =>
      have h := mpiRecv_performs x.datatype (x.b r) 1 (μ := medium x.n f x.lost) (p := x.P r) (r := x.prev r)
        (by omega) (by rw [hrank]; exact Bool.eq_false_iff.mpr hl) x.sized x.single (f.same _ _) x.carries
        (payload_len (x := x) (x.b x.root))
      rw [hrank] at h
      rw [answers, if_neg hl, mem, if_neg hl]
      exact h
  have hlast : x.answers r = (x.answers r).dropLast ++ [.put [(.tcp r x.root, (x.ack r).encode)]] := by
    rw [answers]
    split <;> simp [asks, mends, receipt]
  rw [proj_other hne, if_pos hr, bcastXdp, if_neg (by omega), hprev, hlast]
  refine hrecv.seq ?_
  show Performs _ _ (if (x.count : Int) < 0 then _ else _) _ _
  rw [if_neg (by omega)]
  change Performs _ _ (_mpiSendTcpLostPacket (x.proc r) .ack (x.proc r).rank x.root 1 .send >>=
    fun _ => pure (0, x.mem r, x.proc r)) _ _
  rw [proc_rank hr]
  simp only [outcome, if_neg hne]
  exact hack.map rfl

-- A rank that asks the root for the message gets it, and leaves an acknowledgement behind.
theorem recovery_flow (hp : x.prev i = x.root) (hl : x.lost i) {qs : Queues Chan Bytes}
    (h₁ : qs (.tcp i x.root) = []) (h₂ : qs (.tcp x.root i) = []) :
    Flow qs (tag i (x.asks i) ++ (tag x.root (x.settles i) ++ tag i (x.mends i)))
      (Function.update qs (.tcp i x.root) [(x.ack i).encode]) := by
  have f₁ := Flow.puts (E := Note) qs i (.tcp i x.root) [(x.nack i).encode]
  have f₂ := Flow.gets ([(x.nack i).encode]) [] (E := Note) (c := .tcp i x.root)
    (q := Function.update qs (.tcp i x.root) [(x.nack i).encode]) x.root (by simp)
  have f₃ := Flow.puts (E := Note) qs x.root (.tcp x.root i) [x.retransmission i]
  have f₄ := Flow.gets ([x.retransmission i]) [] (E := Note) (c := .tcp x.root i)
    (q := Function.update qs (.tcp x.root i) [x.retransmission i]) i (by simp)
  have f₅ := Flow.note qs i (Note.stored (x.mem i))
  have f₆ := Flow.puts (E := Note) qs i (.tcp i x.root) [(x.ack i).encode]
  have e₁ : Function.update qs (.tcp i x.root) [] = qs := by rw [← h₁, Function.update_eq_self]
  have e₂ : Function.update qs (.tcp x.root i) [] = qs := by rw [← h₂, Function.update_eq_self]
  rw [h₁, List.nil_append] at f₁ f₆
  rw [h₂, List.nil_append] at f₃
  rw [Function.update_idem, e₁] at f₂
  rw [Function.update_idem, e₂] at f₄
  have f₀ : Flow qs (tag i [(.timeout : Process.Act Note)]) qs := ⟨trivial, rfl⟩
  have f := f₀.append (f₁.append (f₂.append (f₃.append (f₄.append (f₅.append f₆)))))
  rw [asks, settles, if_pos ⟨hl, hp⟩, mends, hp]
  exact f

-- The channels between the root and rank `i`.
def Concerns (x : XdpCall) (i : Nat) (c : Chan) : Prop :=
  i ≠ x.root ∧ (c = .udp i ∨ c = .tcp i x.root ∨ c = .tcp x.root i)

-- All ranks without the datagram turn to the root.
def Recoverable (x : XdpCall) : Prop :=
  ∀ i < x.n, i ≠ x.root → x.lost i → x.prev i = x.root

theorem mem_audience : i ∈ x.audience ↔ i < x.n ∧ i ≠ x.root ∧ x.lost i = false := by
  simp [audience, and_comm]

theorem audience_nodup : x.audience.Nodup :=
  (List.nodup_range.filter _).filter _

theorem part_flow (hr : x.Recoverable) (hi : i < x.n) {qs : Queues Chan Bytes}
    (hq : ∀ c, x.Concerns i c → qs c = if c ∈ x.audience.map Chan.udp then [x.datagram] else []) :
    ∃ qs', Flow qs (x.part i) qs' ∧
      (∀ c, x.Concerns i c → qs' c = if c = .tcp i x.root ∧ x.lost i then [(x.ack i).encode] else []) ∧
      ∀ c, ¬x.Concerns i c → qs' c = qs c := by
  rw [part]
  by_cases he : i = x.root
  case pos =>
    rw [if_pos he]
    exact ⟨qs, rfl, fun c hc => absurd he hc.left, fun _ _ => rfl⟩
  case neg =>
    have h₁ : qs (.tcp i x.root) = [] := by simpa using hq _ ⟨he, .inr (.inl rfl)⟩
    have h₂ : qs (.tcp x.root i) = [] := by simpa using hq _ ⟨he, .inr (.inr rfl)⟩
    have h₃ := hq _ ⟨he, .inl rfl⟩
    simp only [List.mem_map, Chan.udp.injEq, exists_eq_right, mem_audience] at h₃
    rw [if_neg he]
    by_cases hl : x.lost i
    case pos =>
      rw [if_pos hl]
      refine ⟨_, recovery_flow (hr i hi he hl) hl h₁ h₂, ?_, ?_⟩
      · rintro c ⟨_, rfl | rfl | rfl⟩
        · simpa [hl] using h₃
        · simp [hl]
        · have hne : Chan.tcp x.root i ≠ .tcp i x.root := by simpa using fun h => absurd h.symm he
          simp [hne, h₂]
      · intro c hc
        exact Function.update_of_ne (fun h => hc ⟨he, .inr (.inl h)⟩) _ _
    case neg =>
      rw [if_neg hl]
      rw [if_pos ⟨hi, he, Bool.eq_false_iff.mpr hl⟩] at h₃
      refine ⟨_, serve_flow _ _ _ _ _ h₃ h₁, ?_, ?_⟩
      · rintro c ⟨_, rfl | rfl | rfl⟩
        · simp [hl]
        · simp [hl]
        · have hne : Chan.tcp x.root i ≠ .tcp i x.root := by simpa using fun h => absurd h.symm he
          simp [hne, h₂, hl]
      · intro c hc
        rw [Function.update_of_ne (fun h => hc ⟨he, .inr (.inl h)⟩),
          Function.update_of_ne (fun h => hc ⟨he, .inl h⟩)]

theorem outcome_flow (hr : x.Recoverable) :
    ∃ qs, Flow (fun _ => []) x.outcome.flow qs ∧ ((∀ i, x.lost i = false) → qs = fun _ => []) := by
  have h₁ := scatter_flow x.audience_nodup (fun _ => []) x.root [x.datagram]
  have ⟨qs, h₂, ha, hn⟩ := Flow.independent (l := List.range x.n) List.nodup_range x.Concerns
    (fun c => if c ∈ x.audience.map Chan.udp then [x.datagram] else [])
    (fun i c => if c = .tcp i x.root ∧ x.lost i then [(x.ack i).encode] else []) (g := x.part)
    (fun i _ j _ hij c ⟨hi, hci⟩ ⟨hj, hcj⟩ => by
      rcases hci with rfl | rfl | rfl <;> simp [Ne.symm hj, hi, hij] at hcj)
    (fun i hi qs hq => part_flow hr (List.mem_range.mp hi) hq) (fun _ _ _ _ => rfl)
  refine ⟨qs, h₁.append h₂, fun hl => funext fun c => ?_⟩
  by_cases hc : ∃ i ∈ List.range x.n, x.Concerns i c
  case pos =>
    have ⟨i, hi, hc⟩ := hc
    rw [ha i hi c hc]
    simp [hl]
  case neg =>
    rw [hn c fun i hi h => hc ⟨i, hi, h⟩]
    have : c ∉ x.audience.map Chan.udp := by
      intro hm
      have ⟨i, hi, he⟩ := List.mem_map.mp hm
      have ⟨hi, hne, _⟩ := mem_audience.mp hi
      exact hc ⟨i, List.mem_range.mpr hi, hne, .inl he.symm⟩
    simp [this]

theorem outcome_owned (p : Nat) : ∀ a ∈ proj p x.outcome.flow, a.OwnedBy (wiring fun _ => x.root) p := by
  intro a ha
  by_cases hp : p = x.root
  case pos =>
    rw [hp, proj_root, List.mem_append, List.mem_flatMap] at ha
    rcases ha with ha | ⟨i, _, ha⟩
    · rw [List.mem_singleton.mp ha]
      simp [Act.OwnedBy, wiring, hp]
    · split at ha
      · contradiction
      · rw [settles] at ha
        split at ha <;> simp at ha
        · rcases ha with rfl | rfl <;> simp [Act.OwnedBy, wiring, hp]
        · simp [ha, Act.OwnedBy, wiring, hp]
  case neg =>
    rw [proj_other hp] at ha
    split at ha
    · rw [answers] at ha
      split at ha
      · simp [asks, mends] at ha
        rcases ha with rfl | rfl | rfl | rfl | rfl <;> simp [Act.OwnedBy, wiring]
      · simp [receipt] at ha
        rcases ha with ⟨_, _, rfl⟩ | rfl | rfl <;> simp [Act.OwnedBy, wiring]
    · contradiction

theorem putting_scatter (c : Chan) :
    total (putting c fun _ => true) x.scatter = if c ∈ x.audience.map Chan.udp then 1 else 0 := by
  rw [scatter, total_cons, total_nil, putting_put, outsOn_scatter x.audience_nodup]
  split <;> rfl

theorem putting_settles {kind : Bytes → Bool} (q i : Nat) : ∀ a ∈ x.settles i, putting (.udp q) kind a = 0 := by
  intro a ha
  rw [settles] at ha
  split at ha <;> simp at ha
  · rcases ha with rfl | rfl <;> simp
  · simp [ha]

-- The root gets one header from every other rank.
theorem getting_settles (q : Nat) {l : List Nat} (hl : l.Nodup) :
    total (getting (.tcp q x.root) isHeader) (l.flatMap fun i => if i = x.root then [] else x.settles i) =
      if q ∈ l ∧ q ≠ x.root then 1 else 0 := by
  induction l
  case nil => rfl
  case cons i l hi =>
    have ⟨hm, hl⟩ := List.nodup_cons.mp hl
    have ht : i ≠ x.root → total (getting (.tcp q x.root) isHeader) (x.settles i) = if i = q then 1 else 0 := by
      intro hne
      rw [settles]
      split <;> simp [isHeader, Header.encode_length]
    rw [List.flatMap_cons, total_append, hi hl]
    by_cases hir : i = x.root
    case pos => by_cases hq : q = x.root <;> simp [hir, hq]
    case neg =>
      rw [if_neg hir, ht hir]
      by_cases hq : i = q
      case pos =>
        subst hq
        simp [hm, hir]
      case neg => simp [hq, Ne.symm hq]

theorem polite (hl : ∀ i, x.lost i = false) : Polite (fun _ => x.root) x.outcome.flow where
  owned   := outcome_owned
  spends q := by
    have hz : ∀ a ∈ (List.range x.n).flatMap fun i => if i = x.root then [] else x.settles i,
        putting (.udp q) (fun _ => true) a = 0 := by
      intro a ha
      have ⟨i, _, ha⟩ := List.mem_flatMap.mp ha
      split at ha
      · contradiction
      · exact putting_settles q i a ha
    have hq : (Chan.udp q ∈ x.audience.map Chan.udp) ↔ q ∈ List.range x.n ∧ q ≠ x.root := by
      simp [mem_audience, hl]
    rw [proj_root]
    constructor
    · refine Within.append ?_ (.of_zero hz)
      have := putting_scatter (x := x) (.udp q)
      rw [scatter, total_cons, total_nil] at this
      rw [scatter]
      refine ⟨?_, trivial⟩
      split at this <;> omega
    · simp only [total_append, putting_scatter, total_eq_zero hz, getting_settles q List.nodup_range, hq]
      have : total (getting (.tcp q x.root) isHeader) x.scatter = 0 := by
        apply total_eq_zero
        intro a ha
        rw [List.mem_singleton.mp ha]
        rfl
      omega
  answers q := by
    by_cases hq : q = x.root
    case pos =>
      apply Balanced.quiet
      intro a ha
      rw [hq, proj_root, List.mem_append, List.mem_flatMap] at ha
      rcases ha with ha | ⟨i, _, ha⟩
      · rw [List.mem_singleton.mp ha, putting_put, outsOn_scatter x.audience_nodup]
        simp
      · split at ha
        · contradiction
        · rw [settles] at ha
          split at ha <;> simp at ha
          · rcases ha with rfl | rfl
            · simp
            · simp_all
          · simp [ha]
    case neg =>
      rw [proj_other hq]
      split
      · rw [answers, hl]
        constructor <;> simp [Within, receipt, isHeader, Header.encode_length]
      · exact ⟨trivial, rfl⟩

theorem outcome_idle (hr : x.n ≤ r) : proj r x.outcome.flow = [] := by
  have := x.root_lt
  rw [proj_other (by omega), if_neg (by omega)]

theorem outcome_quiet (h : .note e ∈ proj r x.outcome.flow) : e = .stored (x.mem r) := by
  by_cases hr : r = x.root
  case pos =>
    rw [hr, proj_root, List.mem_append, List.mem_flatMap] at h
    rcases h with h | ⟨i, _, h⟩
    · simp [scatter] at h
    · split at h
      · contradiction
      · rw [settles] at h
        split at h <;> simp at h
  case neg =>
    rw [proj_other hr] at h
    split at h
    · rw [answers] at h
      split at h <;> simp [asks, mends, receipt] at h <;> exact h
    · contradiction

theorem outcome_ranked : Ranked x.n x.outcome.proc := by
  intro r hr
  simp only [outcome]
  split
  case isTrue h => exact h ▸ x.ranked x.root x.root_lt
  case isFalse => exact x.ranked r hr

theorem performs (he : x.Emits) (f : Forwarder) (rest : Nat → Mem) (hr : r < x.n) :
    Performs (medium x.n f x.lost) r
      (bcastXdp x.collective (rest r) (x.P r) (x.b r) x.count x.datatype x.root)
      (proj r x.outcome.flow) (.ret (0, x.outcome.buf r, x.outcome.proc r)) := by
  by_cases hroot : r = x.root
  case pos =>
    subst hroot
    exact root_performs he f (rest x.root)
  case neg => exact other_performs f (rest r) hr hroot

-- Without losses, a call that does what `bcastXdp` does ends well.
theorem plays (he : x.Emits) (hl : x.lost = fun _ => false) (f : Forwarder) {c : Call} {rest : Nat → Mem}
    (hc : ∀ r, c.perform (x.P r) (x.b r) =
      bcastXdp x.collective (rest r) (x.P r) (x.b r) x.count x.datatype x.root) :
    Plays (lossless x.n f) x.n (fun _ => x.root) c x.P x.b x.outcome where
  performs r hr := by
    have h := performs he f rest hr
    rwa [hl, ← hc r] at h
  idle r hr    := outcome_idle hr
  quiet r e he := ⟨_, outcome_quiet he⟩
  drains := by
    have ⟨qs, h, he⟩ := outcome_flow (x := x) fun i _ _ h => by simp [hl] at h
    exact he (fun i => by rw [hl]) ▸ h
  polite := polite fun i => by rw [hl]
  ranked := outcome_ranked

end XdpCall
end Mpi

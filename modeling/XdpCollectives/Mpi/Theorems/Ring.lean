import XdpCollectives.Mpi.Theorems.Plans
import XdpCollectives.Mpi.Theorems.Datagrams
import XdpCollectives.Mpi.Theorems.Barrier

-- `mpi_bcast_ring` with messages of one datagram.
namespace Mpi

open Memory Wire Process Script

section Handing

variable {n q es count : Nat} {f : Forwarder} {p : ProcessInfo} {datatype : MPIDatatype} {buf : Mem}

theorem outs_send {d : Bytes} (hd : (Header.decode d).collective.toNat = MPICollective.send.code)
    (src dest : Nat) : (lossless n f).outs src dest d = [(.udp dest, d)] := by
  simp [Medium.outs, medium, recipients, hd, MPICollective.ofCode_code]

theorem ack_code (p : ProcessInfo) (dest tag : Int) :
    (notice p .ack dest tag).datatype.toNat ≠ MPIDatatype.nack.code := by
  simp [notice, header, MPIDatatype.code]

variable (datatype buf) in
theorem mpiSend_dispatch (tag : Int) (hp : p.rank < p.size) (hq : q < p.size) (hne : q ≠ p.rank)
    (hs : datatype.sizeof? = some es) (hc : Sendable es count) {h : Header}
    (hh : h.datatype.toNat ≠ MPIDatatype.nack.code) :
    Performs (lossless n f) p.rank (mpiSend p buf count datatype q tag)
      (dispatch p.rank q (datagrams p buf es count datatype p.rank q tag .send) h.encode)
      (.ret (0, p.countId p.rank q)) := by
  have hm := List.map_congr_left (l := datagrams p buf es count datatype p.rank q tag .send)
    (f := fun d => (.put ((lossless n f).outs p.rank q d) : Process.Act Note))
    (g := fun d => .put [(.udp q, d)]) fun d hd => by rw [outs_send (datagrams_collective hd)]
  rw [dispatch, ← hm]
  exact mpiSend_performs hp hq hne hs hc hh

end Handing

-- The data go from place to place, beginning at the root.
section Places

variable (n root count : Nat) (P : Nat → ProcessInfo) (b : Nat → Mem)

def place (k : Nat) : Nat := (root + k) % n

def ringMem : Nat → Mem
  | 0     => b (place n root 0)
  | k + 1 => stored 1 count .char (payload 1 count (ringMem k)) (b (place n root (k + 1)))

-- What a rank counts when it has received the data, and when it has sent them.
def ringProc : Nat → ProcessInfo
  | 0     => P (place n root 0)
  | k + 1 => (P (place n root (k + 1))).countId (place n root k) (place n root (k + 1))

def ringDone (k : Nat) : ProcessInfo :=
  if k + 1 < n then (ringProc n root P k).countId (place n root k) (place n root (k + 1))
  else ringProc n root P k

def ringData (k : Nat) : List Bytes :=
  datagrams (ringProc n root P k) (ringMem n root count b k) 1 count .char (place n root k)
    (place n root (k + 1)) 1 .send

def ringAck (k : Nat) : Bytes :=
  (notice (ringProc n root P (k + 1)) .ack (place n root k) 1).encode

def ringHop (k : Nat) : List (Nat × Process.Act Note) :=
  hop (place n root k) (place n root (k + 1)) (ringData n root count P b k) (ringMem n root count b (k + 1))
    (ringAck n root P k) []

def ringOutcome : Outcome where
  flow   := (List.range (n - 1)).flatMap (ringHop n root count P b)
  buf r  := ringMem n root count b (Cycle.distance n root r)
  proc r := ringDone n root P (Cycle.distance n root r)

end Places

variable {n root count k : Nat} {P : Nat → ProcessInfo} {b : Nat → Mem}

theorem place_lt (hroot : root < n) (k : Nat) : place n root k < n :=
  Nat.mod_lt _ (by omega)

theorem place_zero (hroot : root < n) : place n root 0 = root :=
  Nat.mod_eq_of_lt hroot

variable (root) in
theorem place_ne (hk : k < n) (hj : j < n) (hne : j ≠ k) : place n root j ≠ place n root k :=
  fun he => hne <| Cycle.add_mod_injOn hj hk he

theorem flatMap_adjacent {A B : List α} {f : Nat → List α}
    (h : ∀ j < m, f j = (if j + 1 = k then A else []) ++ if j = k then B else []) :
    (List.range m).flatMap f = (if 0 < k ∧ k ≤ m then A else []) ++ if k < m then B else [] := by
  induction m
  case zero =>
    rw [if_neg (by omega), if_neg (by omega)]
    rfl
  case succ m hi =>
    rw [List.range_succ, List.flatMap_append, List.flatMap_singleton, hi fun j hj => h j (by omega),
      h m (by omega)]
    by_cases h₁ : m + 1 = k
    case pos =>
      subst h₁
      simp
    case neg =>
      by_cases h₂ : m = k
      case pos =>
        subst h₂
        by_cases h₃ : 0 < m <;> simp [h₃]
      case neg =>
        have e₁ : (0 < k ∧ k ≤ m + 1) ↔ (0 < k ∧ k ≤ m) := by omega
        have e₂ : k < m + 1 ↔ k < m := by omega
        simp [h₁, h₂, e₁, e₂]

theorem proj_ring (hk : k < n) :
    proj (place n root k) (ringOutcome n root count P b).flow =
      (if 0 < k then
        receipt (place n root (k - 1)) (place n root k) (ringData n root count P b (k - 1))
          (ringMem n root count b k) [ringAck n root P (k - 1)]
      else []) ++
      if k + 1 < n then
        dispatch (place n root k) (place n root (k + 1)) (ringData n root count P b k) (ringAck n root P k)
      else [] := by
  have h := flatMap_adjacent (m := n - 1) (k := k) (f := fun j => proj (place n root k) (ringHop n root count P b j))
    (A := receipt (place n root (k - 1)) (place n root k) (ringData n root count P b (k - 1))
      (ringMem n root count b k) [ringAck n root P (k - 1)])
    (B := dispatch (place n root k) (place n root (k + 1)) (ringData n root count P b k) (ringAck n root P k))
    fun j hj => by
      have hne : place n root j ≠ place n root (j + 1) := place_ne _ (by omega) (by omega) (by omega)
      by_cases h₁ : j + 1 = k
      case pos =>
        subst h₁
        rw [ringHop, proj_hop_receiver hne]
        simp
      case neg =>
        by_cases h₂ : j = k
        case pos =>
          subst h₂
          rw [ringHop, proj_hop_sender hne]
          simp
        case neg =>
          rw [ringHop, proj_hop_other (place_ne _ hk (by omega) h₂) (place_ne _ hk (by omega) h₁)]
          simp [h₁, h₂]
  have e₁ : (0 < k ∧ k ≤ n - 1) ↔ 0 < k := by omega
  have e₂ : k < n - 1 ↔ k + 1 < n := by omega
  rw [ringOutcome, proj_flatMap, h]
  simp only [e₁, e₂]

theorem ring_flow :
    Flow (fun _ => []) (ringOutcome n root count P b).flow fun _ => [] :=
  .flatMap fun _ _ => hop_drains rfl rfl

-- A message of one datagram can be sent.
theorem Single.sendable (hc : Single 1 count) : Sendable 1 count := by
  refine ⟨hc.left, .inr ⟨rfl, ?_⟩⟩
  have := hc.right
  simp only [maxPayload, mpiHeader] at this
  omega

variable (root) in
theorem ringData_eq (hc : Single 1 count) (k : Nat) :
    ∃ d h, ringData n root count P b k = [d] ∧ Carries d h (payload 1 count (ringMem n root count b k)) := by
  have ⟨d, h, hd, hh, _⟩ := datagrams_single (place n root k) .char (ringMem n root count b k) 1 .send
    (p := ringProc n root P k) (r := place n root (k + 1))
    rfl hc.sendable hc
  exact ⟨d, h, hd, hh⟩

theorem ring_polite (hc : Single 1 count) :
    Polite (fun r => (r + n - 1) % n) (ringOutcome n root count P b).flow := by
  refine .flatMap fun k hk => ?_
  have hk : k + 1 < n := by
    have := List.mem_range.mp hk
    omega
  have ⟨d, _, hd, _⟩ := ringData_eq root (n := n) (P := P) (b := b) hc k
  rw [ringHop, hd]
  exact hop_polite (place_ne _ (by omega) (by omega) (by omega)) (Cycle.add_mod_pred (by omega) root k)
    (Header.encode_length _)

section Ranks

variable (hroot : root < n) (hP : Ranked n P)
include hroot hP

theorem ringProc_rank (k : Nat) : (ringProc n root P k).rank = place n root k := by
  cases k <;> exact (hP _ (place_lt hroot _)).left

theorem ringProc_size (k : Nat) : (ringProc n root P k).size = n := by
  cases k <;> exact (hP _ (place_lt hroot _)).right

theorem ringProc_next (k : Nat) : (ringProc n root P k).next = place n root (k + 1) := by
  rw [ProcessInfo.next, ringProc_rank hroot hP, ringProc_size hroot hP, place, Nat.mod_add_mod]
  rfl

theorem ringProc_prev (k : Nat) : (ringProc n root P (k + 1)).prev = place n root k := by
  rw [ProcessInfo.prev, ringProc_rank hroot hP, ringProc_size hroot hP]
  exact Cycle.add_mod_pred (by omega) root k

-- A rank that has the data hands them on.
theorem ring_send (hc : Single 1 count) (hk : k + 1 < n) (f : Forwarder) :
    Performs (lossless n f) (place n root k)
      (mpiSend (ringProc n root P k) (ringMem n root count b k) count .char (ringProc n root P k).next 1)
      (dispatch (place n root k) (place n root (k + 1)) (ringData n root count P b k) (ringAck n root P k))
      (.ret (0, ringDone n root P k)) := by
  have hrank := ringProc_rank hroot hP k
  have hsize := ringProc_size hroot hP k
  have hlt := place_lt hroot (k + 1)
  have hne : place n root (k + 1) ≠ place n root k := place_ne _ (by omega) (by omega) (by omega)
  have h := mpiSend_dispatch .char (ringMem n root count b k) 1 (f := f) (n := n) (p := ringProc n root P k)
    (q := place n root (k + 1))
    (by rw [hrank, hsize]; exact place_lt hroot k) (by rw [hsize]; exact hlt) (by rw [hrank]; exact hne)
    rfl hc.sendable (ack_code (ringProc n root P (k + 1)) (place n root k) 1)
  rw [hrank] at h
  rw [ringProc_next hroot hP, ringDone, if_pos hk]
  exact h

theorem ring_performs (hn : 2 ≤ n) (hc : Single 1 count) (hk : k < n) (f : Forwarder) :
    Performs (lossless n f) (place n root k) (mpiBcastRing (P (place n root k)) (b (place n root k)) count .char root)
      (proj (place n root k) (ringOutcome n root count P b).flow)
      (.ret (0, ringMem n root count b k, ringDone n root P k)) := by
  rw [proj_ring hk]
  cases k with
  | zero =>
    have hrank : (P (place n root 0)).rank = place n root 0 := ringProc_rank hroot hP 0
    rw [mpiBcastRing, if_pos (hrank.trans (place_zero hroot))]
    simp only [Nat.lt_irrefl, if_false, List.nil_append, Nat.zero_add, show 1 < n by omega, if_true]
    exact (ring_send hroot hP hc (by omega) f).map rfl
  | succ k =>
    have hrank : (P (place n root (k + 1))).rank = place n root (k + 1) := ringProc_rank hroot hP (k + 1)
    have hsize : (P (place n root (k + 1))).size = n := ringProc_size hroot hP (k + 1)
    have hprev : (P (place n root (k + 1))).prev = place n root k := ringProc_prev hroot hP k
    have hnr : place n root (k + 1) ≠ root := by
      have := place_ne root (show 0 < n by omega) hk (Nat.succ_ne_zero k)
      rwa [place_zero hroot] at this
    have hne : place n root k ≠ place n root (k + 1) := place_ne _ (by omega) (by omega) (by omega)
    have ⟨d, h, hd, hca⟩ := ringData_eq root (n := n) (P := P) (b := b) hc k
    have hr := mpiRecv_performs .char (b (place n root (k + 1))) 1 (μ := lossless n f) (p := P (place n root (k + 1)))
      (r := place n root k) (by rw [hsize]; exact place_lt hroot _) rfl rfl hc (f.same _ d) hca (payload_length (by simp [ElementSize]))
    have ha := _mpiSendTcpLostPacket_performs .ack (μ := lossless n f) (p := ringProc n root P (k + 1))
      (r := place n root k) (by rw [ringProc_rank hroot hP, ringProc_size hroot hP]; exact place_lt hroot _)
      (by rw [ringProc_size hroot hP]; exact place_lt hroot _) (by rwa [ringProc_rank hroot hP]) 1
    rw [hrank] at hr
    rw [ringProc_rank hroot hP] at ha
    rw [mpiBcastRing, if_neg (by rwa [hrank]), hprev, if_pos (Nat.succ_pos k), Nat.add_sub_cancel, hd]
    refine hr.seq ?_
    show Performs _ _ (if (count : Int) < 0 then _ else _) _ _
    rw [if_neg (by omega)]
    change Performs _ _ (_mpiSendTcpLostPacket (ringProc n root P (k + 1)) .ack (ringProc n root P (k + 1)).rank
      (ringProc n root P (k + 1)).prev 1 .send >>= fun _ => if (ringProc n root P (k + 1)).next ≠ root then
        mpiSend (ringProc n root P (k + 1)) (ringMem n root count b (k + 1)) count .char
          (ringProc n root P (k + 1)).next 1 >>= _ else _) _ _
    rw [ringProc_rank hroot hP, ringProc_prev hroot hP]
    refine ha.seq ?_
    by_cases hk' : k + 1 + 1 < n
    case pos =>
      have hnext : place n root (k + 1 + 1) ≠ root := by
        have := place_ne root (show 0 < n by omega) hk' (Nat.succ_ne_zero (k + 1))
        rwa [place_zero hroot] at this
      rw [if_pos (by rwa [ringProc_next hroot hP]), if_pos hk']
      exact (ring_send hroot hP hc hk' f).map rfl
    case neg =>
      have hnext : place n root (k + 1 + 1) = root := by
        rw [place, show root + (k + 1 + 1) = root + n by omega, Nat.add_mod_right, Nat.mod_eq_of_lt hroot]
      rw [if_neg (by rw [ringProc_next hroot hP]; simpa using hnext), if_neg hk', ringDone, if_neg hk']
      exact .refl

theorem ring_plays (hn : 2 ≤ n) (hc : Single 1 count) (f : Forwarder) (b : Nat → Mem) :
    Plays (lossless n f) n (fun r => (r + n - 1) % n) (.bcast .ring count .char root) P b
      (ringOutcome n root count P b) where
  performs r hr := by
    have h := ring_performs (b := b) hroot hP hn hc (Cycle.distance_lt hroot r) f
    rwa [place, Cycle.add_distance hroot hr] at h
  idle r hr := by
    rw [ringOutcome, proj_flatMap, List.flatMap_eq_nil_iff]
    intro k _
    have h₁ := place_lt hroot k
    have h₂ := place_lt hroot (k + 1)
    exact proj_hop_other (by omega) (by omega)
  quiet r e he := by
    rw [ringOutcome, proj_flatMap, List.mem_flatMap] at he
    have ⟨k, _, he⟩ := he
    exact ⟨_, hop_quiet he⟩
  drains := ring_flow
  polite := ring_polite hc
  ranked r hr := by
    simp only [ringOutcome, ringDone]
    have hk := Cycle.add_distance hroot hr
    split
    · exact ⟨(ringProc_rank hroot hP _).trans hk, ringProc_size hroot hP _⟩
    · exact ⟨(ringProc_rank hroot hP _).trans hk, ringProc_size hroot hP _⟩

end Ranks

-- Data that end in a zero are the same at all places.
theorem ringMem_read (h0 : 0 < count) {data : List Byte} (hd : (b (place n root 0)).read 0 count = data)
    (hl : data.drop (count - 1) = [0]) (k : Nat) : (ringMem n root count b k).read 0 count = data := by
  induction k with
  | zero      => exact hd
  | succ k hi => exact stored_read_char h0 hi hl

end Mpi

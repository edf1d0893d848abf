import XdpCollectives.Mpi.Theorems.Reassembly
import XdpCollectives.Mpi.Theorems.Linear
import XdpCollectives.Process.Gathering

-- What the ranks do in `mpi_bcast`.
namespace Mpi

open Memory Wire Process Script

section Receive

variable {n count : Nat} {f : Forwarder} {p s : ProcessInfo} {data buf : Mem}

-- A message that takes several datagrams is acknowledged by the rank that has put it together.
def acks (count : Nat) (ack : Bytes) : List Bytes :=
  if maxPayload < mpiHeader + count then [ack] else []

variable (f data buf) in
-- A message in whatever order its datagrams arrive.
theorem mpiRecv_gathers (hp : p.rank < n) (hsize : p.size = n) (hs : s.rank < n) (hne : s.rank ≠ p.rank)
    (hint : n < 2 ^ 31) (h0 : 0 < count) (hl : mpiHeader + count < 2 ^ 31) :
    Gathers (lossless n f) p.rank (mpiRecv p buf count .char s.rank 1)
      (datagrams s data 1 count .char s.rank p.rank 1 .send)
      (.note (.stored (delivered data buf count)) ::
        (acks count (notice (p.countId s.rank p.rank) .ack s.rank 1).encode).map fun a =>
          .put [(.tcp p.rank s.rank, a)])
      (.ret (count, delivered data buf count, p.countId s.rank p.rank)) := by
  intro ds hd
  by_cases hc : maxPayload < mpiHeader + count
  case pos =>
    rw [datagrams_fragments hc] at hd
    obtain ⟨qs, hq, he⟩ := exists_perm_map hd
    have hr := mpiRecv_gathered s s.rank s.rank p.rank buf data 1 1 .send (μ := lossless n f) (p := p) rfl (f.same _) hc
      hl (hsize ▸ hs) (hsize ▸ hp) (hsize ▸ hs) hne (hsize ▸ hint) (.of_perm h0 rfl hq)
    rw [gathered_all h0 fun i hi => hq.mem_iff.mpr (List.mem_range.mpr hi)] at hr
    rw [← he, List.map_map, acks, if_pos hc]
    exact hr
  case neg =>
    have h1 : Single 1 count := ⟨h0, by omega⟩
    have hb : Sendable 1 count := ⟨h0, .inr ⟨rfl, by simp only [mpiHeader] at hl; omega⟩⟩
    obtain ⟨d, h, he, hca, _⟩ := datagrams_single s.rank .char data 1 .send (p := s) (r := p.rank) rfl hb h1
    have hr := mpiRecv_performs .char buf 1 (μ := lossless n f) (p := p) (r := s.rank) (hsize ▸ hs) rfl rfl h1 (f.same _ _) hca
      (payload_length (by simp [ElementSize]))
    rw [stored_eq] at hr
    rw [he] at hd
    rw [List.perm_singleton.mp hd, acks, if_neg hc]
    exact hr

end Receive

-- The rounds, for the ranks as seen from the root.
section Rounds

variable (n root count k : Nat) (P : Nat → ProcessInfo) (b : Nat → Mem)

-- The rank that gets the message in round `k` from the one at place `x`.
def child (x : Nat) : Nat :=
  place n root (x + 2 ^ k)

def branchData (x : Nat) : List Bytes :=
  datagrams (P (place n root x)) (b (place n root x)) 1 count .char (place n root x) (child n root k x) 1 .send

def branchMem (x : Nat) : Mem :=
  delivered (b (place n root x)) (b (child n root k x)) count

def branchAck (x : Nat) : Header :=
  notice ((P (child n root k x)).countId (place n root x) (child n root k x)) .ack (place n root x) 1

-- The message goes from one rank to another, which may or may not acknowledge it.
def branch (x : Nat) : List (Nat × Process.Act Note) :=
  let p := place n root x
  let q := child n root k x
  let ds := branchData n root count k P b x
  let ack := (branchAck n root k P x).encode
  tag p (ds.map fun d => .put [(.udp q, d)]) ++
    (tag q (receipt p q ds (branchMem n root count k b x) (acks count ack)) ++ tag p [.get (.tcp q p) ack])

def roundFlow : List (Nat × Process.Act Note) :=
  (List.range (2 ^ k)).flatMap fun x => if x + 2 ^ k < n then branch n root count k P b x else []

-- The ranks after the round, and their buffers.
def roundProc (r : Nat) : ProcessInfo :=
  let x := Cycle.distance n root r
  if x < 2 ^ k then if x + 2 ^ k < n then (P r).countId r (child n root k x) else P r
  else if x < 2 ^ k * 2 then (P r).countId (place n root (x - 2 ^ k)) r
  else P r

def roundMem (r : Nat) : Mem :=
  let x := Cycle.distance n root r
  if 2 ^ k ≤ x ∧ x < 2 ^ k * 2 then branchMem n root count k b (x - 2 ^ k) else b r

def binomialFlow : (fuel k : Nat) → (Nat → ProcessInfo) → (Nat → Mem) → List (Nat × Process.Act Note)
  | 0,        _, _, _ => []
  | fuel + 1, k, P, b =>
    if n ≤ 2 ^ k then []
    else roundFlow n root count k P b ++
      binomialFlow fuel (k + 1) (roundProc n root k P) (roundMem n root count k b)

end Rounds

section Projections

variable {n root count k fuel x y r : Nat} {P : Nat → ProcessInfo} {b : Nat → Mem}

variable (count P b) in
theorem proj_branch (hne : place n root x ≠ child n root k x) (r : Nat) :
    proj r (branch n root count k P b x) =
      if r = place n root x then
        dispatch (place n root x) (child n root k x) (branchData n root count k P b x) (branchAck n root k P x).encode
      else if r = child n root k x then
        receipt (place n root x) (child n root k x) (branchData n root count k P b x) (branchMem n root count k b x)
          (acks count (branchAck n root k P x).encode)
      else [] := by
  simp only [branch, proj_append, proj_tag]
  by_cases hp : r = place n root x
  case pos => simp [hp, Ne.symm hne, dispatch]
  case neg =>
    by_cases hq : r = child n root k x
    case pos => simp [hq, hne, Ne.symm hne]
    case neg => simp [hp, hq, Ne.symm hp, Ne.symm hq]

variable (root) in
theorem place_child_ne (hx : x + 2 ^ k < n) (y : Nat) (hy : y < n) (hne : y ≠ x + 2 ^ k) :
    place n root y ≠ child n root k x :=
  place_ne root hx hy hne

-- What the rank at place `y` does in a round.
theorem proj_round (hy : y < n) :
    proj (place n root y) (roundFlow n root count k P b) =
      if y < 2 ^ k then
        if y + 2 ^ k < n then
          dispatch (place n root y) (child n root k y) (branchData n root count k P b y) (branchAck n root k P y).encode
        else []
      else if y < 2 ^ k * 2 then
        receipt (place n root (y - 2 ^ k)) (place n root y) (branchData n root count k P b (y - 2 ^ k))
          (branchMem n root count k b (y - 2 ^ k)) (acks count (branchAck n root k P (y - 2 ^ k)).encode)
      else [] := by
  have hpos : 0 < 2 ^ k := Nat.two_pow_pos k
  rw [roundFlow, proj_flatMap]
  have hb x (hx : x < 2 ^ k) (hxn : x + 2 ^ k < n) := proj_branch count P b
    (place_child_ne root hxn x (by omega) (by omega)) (place n root y)
  by_cases h₁ : y < 2 ^ k
  case pos =>
    rw [if_pos h₁, flatMap_only (i := y) List.nodup_range fun x hx => ?_, if_pos (List.mem_range.mpr h₁)]
    have hx := List.mem_range.mp hx
    by_cases hxn : x + 2 ^ k < n
    case pos =>
      rw [if_pos hxn, hb x hx hxn]
      by_cases he : x = y
      case pos => rw [if_pos he, if_pos (by rw [he]), he, if_pos (he ▸ hxn)]
      case neg =>
        rw [if_neg he, if_neg (place_ne _ (by omega) hy (Ne.symm he)),
          if_neg (place_child_ne root hxn y hy (by omega))]
    case neg =>
      rw [if_neg hxn]
      by_cases he : x = y
      case pos => rw [if_pos he, if_neg (he ▸ hxn), proj_nil]
      case neg => rw [if_neg he, proj_nil]
  case neg =>
    rw [if_neg h₁]
    by_cases h₂ : y < 2 ^ k * 2
    case pos =>
      have hadd : y - 2 ^ k + 2 ^ k = y := by omega
      rw [if_pos h₂, flatMap_only (i := y - 2 ^ k) List.nodup_range fun x hx => ?_,
        if_pos (List.mem_range.mpr (by omega))]
      have hx := List.mem_range.mp hx
      by_cases he : x = y - 2 ^ k
      case pos =>
        have hxn : x + 2 ^ k < n := by omega
        have hc : child n root k x = place n root y := by rw [child, he, hadd]
        rw [if_pos hxn, hb x hx hxn, if_pos he, if_neg (place_ne _ (by omega) hy (by omega)), if_pos hc.symm, hc, he]
      case neg =>
        rw [if_neg he]
        by_cases hxn : x + 2 ^ k < n
        case pos =>
          rw [if_pos hxn, hb x hx hxn, if_neg (place_ne _ (by omega) hy (by omega)),
            if_neg (place_child_ne root hxn y hy (by omega))]
        case neg => rw [if_neg hxn, proj_nil]
    case neg =>
      rw [if_neg h₂, List.flatMap_eq_nil_iff]
      intro x hx
      have hx := List.mem_range.mp hx
      by_cases hxn : x + 2 ^ k < n
      case pos =>
        rw [if_pos hxn, hb x hx hxn, if_neg (place_ne _ (by omega) hy (by omega)),
          if_neg (place_child_ne root hxn y hy (by omega))]
      case neg => rw [if_neg hxn, proj_nil]

variable (root count fuel P b) in
-- A rank that has the message sends it, and receives nothing but acknowledgements.
theorem sender_silent (hy : y < n) (hk : y < 2 ^ k) (q : Nat) (d : Bytes) :
    .get (.udp q) d ∉ proj (place n root y) (binomialFlow n root count fuel k P b) := by
  induction fuel generalizing k P b
  case zero => exact List.not_mem_nil
  case succ fuel hi =>
    have hk' : y < 2 ^ (k + 1) := by
      rw [pow_succ]
      omega
    rw [binomialFlow]
    split
    case isTrue => exact List.not_mem_nil
    case isFalse =>
      rw [proj_append, proj_round hy, if_pos hk, List.mem_append, not_or]
      refine ⟨?_, hi _ _ hk'⟩
      split <;> simp [dispatch]

variable (hroot : root < n)
include hroot

theorem roundProc_place (hy : y < n) : roundProc n root k P (place n root y) =
    if y < 2 ^ k then
      if y + 2 ^ k < n then (P (place n root y)).countId (place n root y) (child n root k y) else P (place n root y)
    else if y < 2 ^ k * 2 then (P (place n root y)).countId (place n root (y - 2 ^ k)) (place n root y)
    else P (place n root y) := by
  have hd : Cycle.distance n root (place n root y) = y := Cycle.distance_add hroot hy
  simp only [roundProc, hd]

variable (count b) in
theorem roundMem_place (hy : y < n) : roundMem n root count k b (place n root y) =
    if 2 ^ k ≤ y ∧ y < 2 ^ k * 2 then branchMem n root count k b (y - 2 ^ k) else b (place n root y) := by
  have hd : Cycle.distance n root (place n root y) = y := Cycle.distance_add hroot hy
  simp only [roundMem, hd]

omit hroot in
variable (root k) in
theorem roundProc_ranked (hP : Ranked n P) : Ranked n (roundProc n root k P) := by
  intro r hr
  have h := hP r hr
  simp only [roundProc]
  split_ifs <;> exact h

variable (hP : Ranked n P) (h0 : 0 < count) (hc : count < 2 ^ 31)
include hP h0 hc

variable (fuel) (f : Forwarder) in
theorem sender_performs (hy : y < n) (hk : y < 2 ^ k) :
    ∃ v, Performs (lossless n f) (place n root y)
      (bcastRounds count .char root y n fuel (2 ^ k) (b (place n root y)) (P (place n root y)))
      (proj (place n root y) (binomialFlow n root count fuel k P b)) (.ret v) := by
  induction fuel generalizing k P b
  case zero => exact ⟨_, .refl⟩
  case succ fuel hi =>
    have hk' : y < 2 ^ (k + 1) := by
      rw [pow_succ]
      omega
    have hpos : 0 < 2 ^ k := Nat.two_pow_pos k
    have ⟨hrank, hsize⟩ := hP _ (place_lt hroot y)
    have ⟨v, h⟩ := hi (roundProc_ranked root k hP) (b := roundMem n root count k b) hk'
    rw [roundProc_place hroot hy, roundMem_place count b hroot hy, if_neg (by omega), if_pos hk] at h
    rw [bcastRounds, binomialFlow]
    by_cases hn : n ≤ 2 ^ k
    case pos =>
      rw [if_pos hn, if_pos hn]
      exact ⟨_, .refl⟩
    case neg =>
      rw [if_neg hn, if_neg hn, if_pos hk, proj_append, proj_round hy, if_pos hk]
      by_cases hyn : y + 2 ^ k < n
      case pos =>
        rw [if_pos hyn] at h
        rw [if_pos hyn, if_pos hyn]
        have hdst : (y + 2 ^ k + root) % n = child n root k y := by rw [child, place, Nat.add_comm]
        have hs : Sendable 1 count := ⟨h0, .inr ⟨rfl, hc⟩⟩
        have hsend := mpiSend_dispatch .char (b (place n root y)) 1 (f := f) (n := n) (p := P (place n root y))
          (q := child n root k y) (by rw [hrank, hsize]; exact place_lt hroot y) (by rw [hsize]; exact place_lt hroot _)
          (by rw [hrank]; exact Ne.symm (place_child_ne root hyn y hy (by omega))) rfl hs
          (h := branchAck n root k P y) (ack_code _ _ _)
        rw [hrank] at hsend
        rw [hdst]
        exact ⟨v, hsend.seq h⟩
      case neg =>
        rw [if_neg hyn] at h
        rw [if_neg hyn, if_neg hyn]
        exact ⟨v, h⟩

omit hP h0 hc hroot in
theorem branchData_length (h1 : ¬maxPayload < mpiHeader + count) (h0 : 0 < count) :
    (branchData n root count k P b x).length = 1 := by
  have hs : Single 1 count := ⟨h0, by omega⟩
  have hb : Sendable 1 count := ⟨h0, .inr ⟨rfl, by simp only [maxPayload, mpiHeader] at h1; omega⟩⟩
  obtain ⟨_, _, he, _⟩ := datagrams_single (place n root x) .char (b (place n root x)) 1 .send (p := P (place n root x))
    (r := child n root k x) rfl hb hs
  rw [branchData, he, List.length_singleton]

omit hc in
variable (fuel) (f : Forwarder) (hint : n < 2 ^ 31) (hl : mpiHeader + count < 2 ^ 31) in
include hint hl in
-- A rank that does not have the message waits for it, receives its datagrams in any order, and sends it.
theorem receiver_gathers (hy : y < n) (hk : 2 ^ k ≤ y) :
    ∃ ds t v, proj (place n root y) (binomialFlow n root count fuel k P b) =
        ds.map (.get (.udp (place n root y))) ++ t ∧
      (∀ d, .get (.udp (place n root y)) d ∉ t) ∧ (¬maxPayload < mpiHeader + count → ds.length ≤ 1) ∧
      Gathers (lossless n f) (place n root y)
        (bcastRounds count .char root y n fuel (2 ^ k) (b (place n root y)) (P (place n root y))) ds t (.ret v) := by
  induction fuel generalizing k P b
  case zero => exact ⟨[], [], _, rfl, fun _ => List.not_mem_nil, fun _ => Nat.zero_le _, .of_performs .refl⟩
  case succ fuel hi =>
    have hpos : 0 < 2 ^ k := Nat.two_pow_pos k
    obtain ⟨hrank, hsize⟩ := hP _ (place_lt hroot y)
    have hP' := roundProc_ranked root k hP
    have hproc := roundProc_place (k := k) (P := P) hroot hy
    have hmem := roundMem_place count b hroot (k := k) hy
    rw [bcastRounds, binomialFlow]
    by_cases hn : n ≤ 2 ^ k
    case pos =>
      rw [if_pos hn, if_pos hn]
      exact ⟨[], [], _, rfl, fun _ => List.not_mem_nil, fun _ => Nat.zero_le _, .of_performs .refl⟩
    case neg =>
      rw [if_neg hn, if_neg hn, if_neg (by omega), proj_append, proj_round hy, if_neg (by omega)]
      by_cases hy2 : y < 2 ^ k * 2
      case pos =>
        obtain ⟨v, h⟩ := sender_performs fuel hroot hP' h0 (by omega) f (b := roundMem n root count k b) hy
          (show y < 2 ^ (k + 1) from hy2)
        rw [hproc, hmem, if_pos ⟨hk, hy2⟩, if_neg (by omega), if_pos hy2] at h
        have hadd : y - 2 ^ k + 2 ^ k = y := by omega
        have hchild : child n root k (y - 2 ^ k) = place n root y := by rw [child, hadd]
        obtain ⟨hrank', hsize'⟩ := hP _ (place_lt hroot (y - 2 ^ k))
        have hne : place n root (y - 2 ^ k) ≠ place n root y := place_ne root hy (by omega) (by omega)
        have hrecv := mpiRecv_gathers f (b (place n root (y - 2 ^ k))) (b (place n root y)) (n := n)
          (p := P (place n root y)) (s := P (place n root (y - 2 ^ k))) (by rw [hrank]; exact place_lt hroot y) hsize
          (by rw [hrank']; exact place_lt hroot _) (by rw [hrank, hrank']; exact hne) hint h0 hl
        rw [hrank, hrank'] at hrecv
        have hsrc : (y - 2 ^ k + root) % n = place n root (y - 2 ^ k) := by rw [place, Nat.add_comm]
        rw [if_pos hy2, if_pos hy2, receipt, List.append_assoc]
        dsimp only
        rw [hsrc]
        refine ⟨branchData n root count k P b (y - 2 ^ k), _, v, rfl, fun d => ?_, fun h1 => ?_, ?_⟩
        · rw [List.mem_append, not_or]
          refine ⟨?_, sender_silent _ _ _ _ _ hy (show y < 2 ^ (k + 1) from hy2) _ d⟩
          simp
        · exact (branchData_length h1 h0).le
        · have hd : branchData n root count k P b (y - 2 ^ k) = datagrams (P (place n root (y - 2 ^ k)))
              (b (place n root (y - 2 ^ k))) 1 count .char (place n root (y - 2 ^ k)) (place n root y) 1 .send := by
            rw [branchData, hchild]
          have hm : branchMem n root count k b (y - 2 ^ k) =
              delivered (b (place n root (y - 2 ^ k))) (b (place n root y)) count := by rw [branchMem, hchild]
          rw [hd, hm, branchAck, hchild]
          rw [hm] at h
          refine hrecv.seq ?_
          rw [if_neg (by simp)]
          exact h
      case neg =>
        rw [if_neg hy2, if_neg hy2, List.nil_append]
        obtain ⟨ds, t, v, he, hs, h1, h⟩ := hi hP' (b := roundMem n root count k b) (show 2 ^ (k + 1) ≤ y by
          rw [pow_succ]
          omega)
        rw [hproc, hmem, if_neg (by omega), if_neg (by omega), if_neg hy2] at h
        exact ⟨ds, t, v, he, hs, h1, h⟩

end Projections

end Mpi

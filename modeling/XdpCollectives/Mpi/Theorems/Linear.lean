import XdpCollectives.Mpi.Theorems.Ring

-- `mpi_bcast_linear` with messages of one datagram.
namespace Mpi

open Memory Wire Process Script

-- The root deals with all other ranks, one after the other.
def star (n root : Nat) (body : Nat → List (Nat × Process.Act Note)) : List (Nat × Process.Act Note) :=
  (List.range n).flatMap fun i => if i = root then [] else body i

section Parts

variable {n root i r : Nat} {body : Nat → List (Nat × Process.Act Note)}

-- One rank takes part in one of the parts only.
theorem flatMap_only {l : List Nat} {A : List α} (hl : l.Nodup) (h : ∀ j ∈ l, f j = if j = i then A else []) :
    l.flatMap f = if i ∈ l then A else [] := by
  induction l
  case nil => rfl
  case cons j l hi =>
    have ⟨hj, hl⟩ := List.nodup_cons.mp hl
    rw [List.flatMap_cons, h j List.mem_cons_self, hi hl fun k hk => h k (List.mem_cons_of_mem _ hk)]
    by_cases he : j = i
    case pos =>
      subst he
      simp [hj]
    case neg => simp [he, Ne.symm he]

theorem proj_star_other {t : List (Process.Act Note)} (hne : r ≠ root) (hb : proj r (body r) = t)
    (ho : ∀ i, i ≠ root → i ≠ r → proj r (body i) = []) :
    proj r (star n root body) = if r < n then t else [] := by
  rw [star, proj_flatMap, flatMap_only (i := r) (A := t) List.nodup_range fun i _ => ?_]
  · simp only [List.mem_range]
  · by_cases hi : i = root
    case pos => simp [hi, Ne.symm hne]
    case neg =>
      by_cases hr : i = r
      case pos => rw [if_neg hi, if_pos hr, hr, hb]
      case neg => rw [if_neg hi, if_neg hr, ho i hi hr]

theorem proj_star_root {t : Nat → List (Process.Act Note)} (hb : ∀ i, i ≠ root → proj root (body i) = t i) :
    proj root (star n root body) = (List.range n).flatMap fun i => if i = root then [] else t i := by
  rw [star, proj_flatMap]
  congr 1
  funext i
  split
  case isTrue    => rfl
  case isFalse h => exact hb i h

end Parts

section Star

variable (n root count : Nat) (P : Nat → ProcessInfo) (b : Nat → Mem)

-- The root when it has sent to the ranks before `i`.
def starRoot : Nat → ProcessInfo
  | 0     => P root
  | i + 1 => if i = root then starRoot i else (starRoot i).countId root i

def starData (i : Nat) : List Bytes :=
  datagrams (starRoot root P i) (b root) 1 count .char root i 1 .send

def starMem (i : Nat) : Mem :=
  stored 1 count .char (payload 1 count (b root)) (b i)

def starAck (i : Nat) : Bytes :=
  (notice ((P i).countId root i) .ack root 1).encode

def starHop (i : Nat) : List (Nat × Process.Act Note) :=
  if i = root then []
  else hop root i (starData root count P b i) (starMem root count b i) (starAck root P i) []

def linearOutcome : Outcome where
  flow   := (List.range n).flatMap (starHop root count P b)
  buf r  := if r = root then b root else starMem root count b r
  proc r := if r = root then starRoot root P n else (P r).countId root r

end Star

variable {n root count i r : Nat} {P : Nat → ProcessInfo} {b : Nat → Mem}

theorem proj_linear_other (hne : r ≠ root) :
    proj r (linearOutcome n root count P b).flow =
      if r < n then
        receipt root r (starData root count P b r) (starMem root count b r) [starAck root P r]
      else [] :=
  proj_star_other hne (proj_hop_receiver (Ne.symm hne)) fun _ _ hi => proj_hop_other (Ne.symm hne) hi

theorem proj_linear_root :
    proj root (linearOutcome n root count P b).flow =
      (List.range n).flatMap fun i =>
        if i = root then [] else dispatch root i (starData root count P b i) (starAck root P i) :=
  proj_star_root fun _ h => proj_hop_sender (Ne.symm h)

variable (root) in
theorem starData_eq (hc : Single 1 count) (i : Nat) :
    ∃ d h, starData root count P b i = [d] ∧ Carries d h (payload 1 count (b root)) := by
  have ⟨d, h, hd, hh, _⟩ := datagrams_single root .char (b root) 1 .send (p := starRoot root P i)
    (r := i) rfl hc.sendable hc
  exact ⟨d, h, hd, hh⟩

theorem star_polite (hc : Single 1 count) : Polite (fun _ => root) (linearOutcome n root count P b).flow := by
  refine .flatMap fun i _ => ?_
  have ⟨d, _, hd, _⟩ := starData_eq root (P := P) (b := b) hc i
  rw [starHop]
  split
  case isTrue => exact .nil
  case isFalse h =>
    rw [hd]
    exact hop_polite (Ne.symm h) rfl (Header.encode_length _)

section Ranks

variable (hroot : root < n) (hP : Ranked n P)
include hroot hP

theorem starRoot_ranked (i : Nat) : (starRoot root P i).rank = root ∧ (starRoot root P i).size = n := by
  induction i with
  | zero => exact hP root hroot
  | succ i hi =>
    rw [starRoot]
    split <;> exact hi

-- The root goes through the ranks from `i` on.
theorem sendLinear_performs (hc : Sendable 1 count) (f : Forwarder) (k i : Nat) (hk : i + k = n) :
    Performs (lossless n f) root (sendLinear (b root) count .char root 1 (List.range' i k) (starRoot root P i))
      ((List.range' i k).flatMap fun i =>
        if i = root then [] else dispatch root i (starData root count P b i) (starAck root P i))
      (.ret (starRoot root P n)) := by
  induction k generalizing i with
  | zero =>
    obtain rfl : i = n := by omega
    exact .refl
  | succ k hi =>
    rw [List.range'_succ, List.flatMap_cons, sendLinear]
    have h := hi (i + 1) (by omega)
    by_cases he : i = root
    case pos =>
      rw [starRoot, if_pos he] at h
      rw [if_neg (by simpa using he), if_pos he]
      exact h
    case neg =>
      have ⟨hrank, hsize⟩ := starRoot_ranked hroot hP i
      have hd := mpiSend_dispatch .char (b root) 1 (f := f) (n := n) (p := starRoot root P i) (q := i) (by omega)
        (by omega) (by omega) rfl hc
        (ack_code ((P i).countId root i) root 1)
      rw [starRoot, if_neg he] at h
      rw [hrank] at hd
      rw [if_pos he, if_neg he]
      exact hd.seq h

theorem linear_performs (hc : Single 1 count) (hr : r < n) (f : Forwarder) :
    Performs (lossless n f) r (mpiBcastLinear (P r) (b r) count .char root)
      (proj r (linearOutcome n root count P b).flow)
      (.ret (0, (linearOutcome n root count P b).buf r, (linearOutcome n root count P b).proc r)) := by
  have ⟨hrank, hsize⟩ := hP r hr
  by_cases he : r = root
  case pos =>
    subst he
    rw [mpiBcastLinear, if_pos hrank, proj_linear_root, hsize, List.range_eq_range']
    refine (sendLinear_performs hroot hP hc.sendable f n 0 (Nat.zero_add n)).map ?_
    simp [linearOutcome]
    rfl
  case neg =>
    have ⟨d, h, hd, hca⟩ := starData_eq root (P := P) (b := b) hc r
    have hm := mpiRecv_performs .char (b r) 1 (μ := lossless n f) (p := P r) (r := root)
      (by omega) rfl rfl hc (f.same _ d) hca (payload_length (by simp [ElementSize]))
    have ha := _mpiSendTcpLostPacket_performs .ack (μ := lossless n f) (p := (P r).countId root r) (r := root)
      (show (P r).rank < (P r).size by omega) (show root < (P r).size by omega)
      (show root ≠ (P r).rank by omega) 1
    rw [proj_linear_other he, if_pos hr, mpiBcastLinear, if_neg (by rwa [hrank]), hd]
    rw [hrank] at hm
    refine hm.seq ?_
    show Performs _ _ (if (count : Int) < 0 then _ else _) _ _
    rw [if_neg (by omega)]
    change Performs _ _ (_mpiSendTcpLostPacket ((P r).countId root r) .ack ((P r).countId root r).rank root 1 .send >>=
      fun _ => pure (0, starMem root count b r, (P r).countId root r)) _ _
    have hrank' : ((P r).countId root r).rank = r := hrank
    rw [hrank'] at ha ⊢
    simp only [linearOutcome, if_neg he]
    exact ha.map rfl

theorem linear_plays (hc : Single 1 count) (f : Forwarder) (b : Nat → Mem) :
    Plays (lossless n f) n (fun _ => root) (.bcast .linear count .char root) P b
      (linearOutcome n root count P b) where
  performs r hr := linear_performs hroot hP hc hr f
  idle r hr     := by rw [proj_linear_other (by omega), if_neg (by omega)]
  quiet r e he  := by
    rw [linearOutcome, proj_flatMap, List.mem_flatMap] at he
    have ⟨i, _, he⟩ := he
    rw [starHop] at he
    split at he
    · contradiction
    · exact ⟨_, hop_quiet he⟩
  drains := by
    refine .flatMap fun i _ => ?_
    rw [starHop]
    split
    · rfl
    · exact hop_drains rfl rfl
  polite := star_polite hc
  ranked r hr := by
    simp only [linearOutcome]
    split
    case isTrue h =>
      subst h
      exact starRoot_ranked hroot hP n
    case isFalse => exact hP r hr

end Ranks

end Mpi

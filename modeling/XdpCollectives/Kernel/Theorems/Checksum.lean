import XdpCollectives.Kernel.Theorems.Journey
import XdpCollectives.OnesComplement.Basic

open Memory Wire

-- What the checksum of the IP header says about the packets that the programs rewrite.
namespace Kernel

variable {m m' : Mem} {ip i k : Nat} {f t : Frame} {maps : Maps}

-- The word at `i` in network byte order.
def word (m : Mem) (i : Nat) : Nat :=
  (bpfNtohs (m.load 2 i)).toNat

theorem word_le (m : Mem) (i : Nat) : word m i ≤ 65535 :=
  Nat.le_of_lt_succ (bpfNtohs (m.load 2 i)).isLt

theorem word_congr (h₀ : m i = m' i) (h₁ : m (i + 1) = m' (i + 1)) : word m i = word m' i := by
  have hl : m.load 2 i = m'.load 2 i := by
    refine Mem.load_congr fun k hk => ?_
    obtain rfl | rfl : k = 0 ∨ k = 1 := by omega
    · exact h₀
    · exact h₁
  rw [word, hl, word]

theorem addCarry_norm (k : Nat) (s : BitVec 32) :
    OnesComplement.norm 65535 (addCarry k s).toNat = OnesComplement.norm 65535 s.toNat := by
  induction k generalizing s
  case zero => rfl
  case succ k hi =>
    rw [addCarry]
    split
    case isFalse => rfl
    case isTrue =>
      rw [hi, carry_toNat]
      exact OnesComplement.norm_carry 65535 s.toNat

theorem addCarry_toNat (s : BitVec 32) : (addCarry 2 s).toNat = OnesComplement.norm 65535 s.toNat := by
  have hd : (addCarry 2 s >>> 16).toNat = 0 := by rw [addCarry_done]; rfl
  rw [BitVec.toNat_ushiftRight, Nat.shiftRight_eq_div_pow] at hd
  rw [← addCarry_norm 2 s, OnesComplement.norm_of_le (by omega)]

theorem not_addCarry_toNat (s : BitVec 32) :
    ((~~~addCarry 2 s).setWidth 16).toNat = 65535 - OnesComplement.norm 65535 s.toNat := by
  have hn : OnesComplement.norm 65535 s.toNat ≤ 65535 := OnesComplement.norm_le (by decide)
  rw [BitVec.toNat_setWidth, BitVec.toNat_not, addCarry_toNat]
  omega

-- The accumulator after `k` rounds of the loop over the words of the header.
def headerAcc (m : Mem) (ip k : Nat) : BitVec 32 :=
  (List.range k).foldl (fun sum i =>
    if i = 5 then sum else sum + (bpfNtohs (m.load 2 (ip + 2 * i))).setWidth 32) 0

def headerSum (m : Mem) (ip k : Nat) : Nat :=
  ((List.range k).map fun i => if i = 5 then 0 else word m (ip + 2 * i)).sum

theorem headerSum_succ (m : Mem) (ip k : Nat) :
    headerSum m ip (k + 1) = headerSum m ip k + if k = 5 then 0 else word m (ip + 2 * k) := by
  simp [headerSum, List.range_succ]

theorem headerSum_le (m : Mem) (ip k : Nat) : headerSum m ip k ≤ k * 65535 := by
  induction k
  case zero => simp [headerSum]
  case succ k hi =>
    have hw := word_le m (ip + 2 * k)
    have hs := headerSum_succ m ip k
    split at hs <;> omega

theorem headerAcc_toNat (h : k ≤ 10) : (headerAcc m ip k).toNat = headerSum m ip k := by
  induction k
  case zero => simp [headerAcc, headerSum]
  case succ k hi =>
    have hs := hi (by omega)
    have hl := headerSum_le m ip k
    have hw := word_le m (ip + 2 * k)
    have ha : headerAcc m ip (k + 1) = if k = 5 then headerAcc m ip k
        else headerAcc m ip k + (bpfNtohs (m.load 2 (ip + 2 * k))).setWidth 32 := by
      simp [headerAcc, List.range_succ]
    rw [ha, headerSum_succ]
    split
    · rw [hs, Nat.add_zero]
    · rw [BitVec.toNat_add, hs, BitVec.toNat_setWidth]
      simp only [word] at hw ⊢
      omega

theorem ipChecksumXdp_eq (m : Mem) (ip : Nat) :
    bpfNtohs (ipChecksumXdp m ip) = (~~~addCarry 2 (headerAcc m ip 10)).setWidth 16 :=
  Frame.bpfNtohs_bpfHtons _

theorem ipChecksumXdp_toNat (m : Mem) (ip : Nat) :
    (bpfNtohs (ipChecksumXdp m ip)).toNat = 65535 - OnesComplement.norm 65535 (headerSum m ip 10) := by
  rw [ipChecksumXdp_eq, not_addCarry_toNat, headerAcc_toNat (by decide)]

-- The checksum field itself is left out.
theorem headerSum_congr (h : ∀ j, ip ≤ j → j < ip + 2 * k → (j < ip + 10 ∨ ip + 12 ≤ j) → m j = m' j) :
    headerSum m ip k = headerSum m' ip k := by
  rw [headerSum, headerSum]
  congr 1
  refine List.map_congr_left fun i hi => ?_
  have hi := List.mem_range.mp hi
  split
  · rfl
  · exact word_congr (h _ (by omega) (by omega) (by omega)) (h _ (by omega) (by omega) (by omega))

theorem ipChecksumXdp_congr (h : ∀ j, ip ≤ j → j < ip + 20 → (j < ip + 10 ∨ ip + 12 ≤ j) → m j = m' j) :
    ipChecksumXdp m ip = ipChecksumXdp m' ip := by
  have hs : headerSum m ip 10 = headerSum m' ip 10 := headerSum_congr h
  have hn : bpfNtohs (ipChecksumXdp m ip) = bpfNtohs (ipChecksumXdp m' ip) := by
    apply BitVec.eq_of_toNat_eq
    rw [ipChecksumXdp_toNat, ipChecksumXdp_toNat, hs]
  exact (Frame.bpfNtohs_bpfHtons _).symm.trans ((congrArg bpfHtons hn).trans (Frame.bpfNtohs_bpfHtons _))

-- The checksum of the nine words that the loop adds, and of the field that it fills in.
theorem headerSum_add (m : Mem) (ip : Nat) :
    ((List.range 10).map fun i => word m (ip + 2 * i)).sum = headerSum m ip 10 + word m (ip + 10) := by
  simp only [headerSum, List.range_succ, List.range_zero, List.map_append, List.map_cons, List.map_nil, List.sum_append,
    List.sum_cons, List.sum_nil, List.nil_append]
  simp
  omega

-- No sum exceeds the accumulator: neither in the loop over the words nor in the one over the carries.
structure NoOverflow (m : Mem) (ip : Nat) : Prop where
  words   : ∀ k < 10, k ≠ 5 → (headerAcc m ip k).toNat + word m (ip + 2 * k) < 2 ^ 32
  carries : ∀ k,
    (addCarry k (headerAcc m ip 10) &&& 0xFFFF#32).toNat + (addCarry k (headerAcc m ip 10) >>> 16).toNat < 2 ^ 32

theorem noOverflow (m : Mem) (ip : Nat) : NoOverflow m ip where
  words k hk _ := by
    have hl := headerSum_le m ip k
    have hw := word_le m (ip + 2 * k)
    rw [headerAcc_toNat (by omega)]
    omega
  carries k := by
    have ha : (addCarry k (headerAcc m ip 10) &&& 0xFFFF#32).toNat ≤ 0xFFFF := by
      rw [BitVec.toNat_and]
      exact Nat.and_le_right
    have hr : (addCarry k (headerAcc m ip 10) >>> 16).toNat < 2 ^ 16 := by
      have hl := (addCarry k (headerAcc m ip 10)).isLt
      rw [BitVec.toNat_ushiftRight, Nat.shiftRight_eq_div_pow]
      omega
    omega

namespace Frame

def headerWords (f : Frame) : List Nat :=
  (List.range (2 * f.ihl)).map fun i => word f.data (ethHlen + 2 * i)

def optionWords (f : Frame) : List Nat :=
  f.headerWords.drop 10

-- The test that a receiver makes.
def ChecksumValid (f : Frame) : Prop :=
  OnesComplement.sum 0xFFFF f.headerWords = 0xFFFF

-- In one's complement they add up to one of the two zeros.
def OptionsNeutral (f : Frame) : Prop :=
  OnesComplement.sum 0xFFFF f.optionWords = 0 ∨ OnesComplement.sum 0xFFFF f.optionWords = 0xFFFF

theorem headerWords_le : ∀ w ∈ f.headerWords, w ≤ 0xFFFF := by
  intro w hw
  have ⟨_, _, h⟩ := List.mem_map.mp hw
  exact h ▸ word_le _ _

theorem optionsNeutral_iff : f.OptionsNeutral ↔ f.optionWords.sum ≡ 0 [MOD 0xFFFF] := by
  have hw : ∀ w ∈ f.optionWords, w ≤ 0xFFFF := fun w h => headerWords_le w (List.mem_of_mem_drop h)
  rw [OptionsNeutral, OnesComplement.sum_eq_norm (by decide) hw, OnesComplement.norm_eq_zero,
    OnesComplement.norm_eq_all (by decide)]
  constructor
  · rintro (h | h)
    · rw [h]
    · exact h.right
  · exact fun h => or_iff_not_imp_left.mpr fun h0 => ⟨h0, h⟩

theorem headerWords_eq (h : 5 ≤ f.ihl) :
    f.headerWords = ((List.range 10).map fun i => word f.data (ethHlen + 2 * i)) ++ f.optionWords := by
  have ht : f.headerWords.take 10 = (List.range 10).map fun i => word f.data (ethHlen + 2 * i) := by
    rw [headerWords, ← List.map_take, List.take_range, Nat.min_eq_left (by omega)]
  rw [← ht]
  exact (List.take_append_drop 10 f.headerWords).symm

-- What a rewritten packet has in common with the one that arrived, and what it has instead.
structure Summed (f t : Frame) : Prop where
  ihl     : t.ihl = f.ihl
  options : ∀ j, 34 ≤ j → j < f.udph → t.data j = f.data j
  check   : t.data.load 2 (ethHlen + 10) = ipChecksumXdp t.data ethHlen

namespace Summed

variable (s : Summed f t)
include s

theorem optionWords_eq : t.optionWords = f.optionWords := by
  simp only [optionWords, headerWords, ← List.map_drop, s.ihl, List.range_eq_range', List.drop_range']
  refine List.map_congr_left fun i hi => ?_
  have ⟨hl, hu⟩ := List.mem_range'_1.mp hi
  have hj (j : Nat) (h34 : 34 ≤ j) (hj : j < 14 + f.ihl * 4) : t.data j = f.data j := s.options j h34 hj
  simp only [ethHlen]
  exact word_congr (hj _ (by omega) (by omega)) (hj _ (by omega) (by omega))

theorem valid_iff (h : 5 ≤ f.ihl) : t.ChecksumValid ↔ f.OptionsNeutral := by
  have hw : word t.data (ethHlen + 10) = 0xFFFF - OnesComplement.norm 0xFFFF (headerSum t.data ethHlen 10) := by
    rw [word, s.check, ipChecksumXdp_toNat]
  have hsum : t.headerWords.sum = headerSum t.data ethHlen 10 + word t.data (ethHlen + 10) + t.optionWords.sum := by
    rw [headerWords_eq (s.ihl ▸ h), List.sum_append, headerSum_add]
  rw [ChecksumValid, OnesComplement.sum_eq_norm (by decide) headerWords_le, hsum, hw,
    OnesComplement.norm_complement (by decide), s.optionWords_eq, optionsNeutral_iff]

end Summed

theorem readdress_summed (h : 5 ≤ f.ihl) (src next : BitVec 32) (info : SocketId) :
    Summed f (f.readdress src next info) where
  ihl := readdress_ihl h
  options j hl hu := readdress_data (.inr hl) (.inl hu) (.inl (by omega)) (.inl (by simp only [payload]; omega))
  check := by
    simp only [readdress]
    rw [Mem.load_store_same]
    exact ipChecksumXdp_congr fun j hl hu hj => (Mem.store_outside (by omega)).symm

theorem Summed.of_swapMac (s : Summed f.swapMac t) : Summed f t where
  ihl            := s.ihl.trans swapMac_ihl
  options j hl hu := by
    have hd : f.swapMac.udph = f.udph := by rw [udph, swapMac_ihl, udph]
    rw [s.options j hl (hd ▸ hu), swapMac_data (by omega)]
  check          := s.check

theorem swapIp_summed : Summed f f.swapIp where
  ihl := by
    simp (disch := omega) only [ihl, swapIp, ethHlen, Mem.store_outside]
  options j hl _ := by
    simp (disch := omega) only [swapIp, ethHlen, Mem.store_outside]
  check := by
    simp only [swapIp]
    rw [Mem.load_store_same]
    exact ipChecksumXdp_congr fun j hl hu hj => (Mem.store_outside (by omega)).symm

end Frame

-- The tests that one of the two programs makes of the header before it goes on.
def Accepted (f : Frame) : Prop :=
  Xdp.parseIpPacket f = none ∨ Tc.parseIpPacket f = none

theorem Accepted.ihl (h : Accepted f) : 5 ≤ f.ihl :=
  h.elim Xdp.parseIpPacket_none Tc.parseIpPacket_none

theorem Accepted.protocol (h : Accepted f) : f.protocol = ipprotoUdp := by
  simp only [Accepted, Xdp.parseIpPacket, Tc.parseIpPacket] at h
  rcases h with h | h
  all_goals
    repeat' split at h
    all_goals simp_all

theorem mirror_swapped (hp : f.protocol = ipprotoUdp) (h : mirror f = (.tx, t)) : t = f.swapMac.swapIp := by
  simp only [mirror, hp] at h
  repeat' split at h
  all_goals cases h
  · contradiction
  · rfl

-- What the programs send on with other addresses than it arrived with.
inductive Readdressed (f t : Frame) : Prop
  | forwarded (maps : Maps) (h : Forwards maps f t)
  | mirrored (h : mirror f = (.tx, t))

theorem Readdressed.summed (h : Readdressed f t) (ha : Accepted f) : f.Summed t := by
  cases h with
  | mirrored h       => exact mirror_swapped ha.protocol h ▸ .of_swapMac Frame.swapIp_summed
  | forwarded maps h =>
    have ⟨_, _, _, ht⟩ := h.rewritten
    subst ht
    exact .of_swapMac (Frame.readdress_summed (Frame.swapMac_ihl.symm ▸ ha.ihl) ..)

-- The sum is valid exactly when what the programs leave out of it does not count.
theorem readdressed_valid_iff (ha : Accepted f) (h : Readdressed f t) :
    (t.ChecksumValid ∧ NoOverflow t.data ethHlen) ↔ f.OptionsNeutral := by
  rw [and_iff_left (noOverflow _ _), (h.summed ha).valid_iff ha.ihl]

theorem readdressed_valid_iff_three :
    let f := Frame.ofMessage 5000 5001 (Header.encode ⟨0, 0, 1, 3, 2, 1, 1, 0, 0⟩ ++ [0])
    let t := (Xdp.kfunc (.filled 3) ⟨f, some 1#32⟩).2
    (t.ChecksumValid ∧ NoOverflow t.data ethHlen) ↔ f.OptionsNeutral := by
  intro f
  have ho : f.opcode = some .bcastRing := by decide
  have ht : (Xdp.kfunc (.filled 3) ⟨f, some 1#32⟩).1 = .tx := by decide
  generalize hk : Xdp.kfunc (.filled 3) ⟨f, some 1#32⟩ = r at ht
  exact readdressed_valid_iff (.inl (by decide)) (.forwarded _ (.transmitted (.inl ho) (hk.trans (Prod.ext ht rfl))))

-- A header of six words, with three no-operations and an end of the options.
def sixWords : Frame :=
  let eth := List.replicate 12 0#8 ++ [8#8, 0#8]
  let ip  := [0x46#8, 0#8, 0#8, 81#8, 0#8, 0#8, 0#8, 0#8, 64#8, ipprotoUdp, 0#8, 0#8] ++
    [192#8, 168#8, 101#8, 2#8, 192#8, 168#8, 101#8, 1#8] ++ [1#8, 1#8, 1#8, 0#8]
  let udp := [0x13#8, 0x88#8, 0x13#8, 0x89#8, 0#8, 57#8, 0#8, 0#8]
  let message := Header.encode ⟨0, 0, 1, 3, 2, 1, 1, 0, 0⟩ ++ [0#8]
  { len  := eth.length + ip.length + udp.length + message.length
    data := Mem.ofList (eth ++ ip ++ udp ++ message) }

theorem readdressed_not_valid :
    ¬∀ f t : Frame, Accepted f → Readdressed f t → t.ChecksumValid ∧ NoOverflow t.data ethHlen := by
  intro h
  have ho : sixWords.opcode = some .bcastRing := by decide
  have ht : (Xdp.kfunc (.filled 3) ⟨sixWords, some 1#32⟩).1 = .tx := by decide
  generalize hk : Xdp.kfunc (.filled 3) ⟨sixWords, some 1#32⟩ = r at ht
  have ha : Accepted sixWords := .inl (by decide)
  have hr : Readdressed sixWords r.2 := .forwarded _ (.transmitted (.inl ho) (hk.trans (Prod.ext ht rfl)))
  have hv := ((hr.summed ha).valid_iff ha.ihl).mp (h _ _ ha hr).left
  have hs : OnesComplement.sum 0xFFFF sixWords.optionWords = 0x0201 := by decide
  rw [Frame.OptionsNeutral, hs] at hv
  exact absurd hv (by decide)

end Kernel

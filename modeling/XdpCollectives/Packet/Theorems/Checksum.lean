import XdpCollectives.Packet.Checksum
import XdpCollectives.Kernel.Theorems.Checksum
import Mathlib.Algebra.Order.BigOperators.Group.List

open Memory Kernel

-- The checksums of the packet builder compute the same.
namespace Packet

variable {data : Mem} {m : Mem} {as bs : List Byte} {acc s : BitVec 32} {i n len length : Nat} {c : BitVec 16}

-- The words of a buffer in network byte order. A byte without a second one is the upper half of its word.
def words : List Byte → List Nat
  | b :: c :: bs => (256 * b.toNat + c.toNat) :: words bs
  | [b]          => [256 * b.toNat]
  | []           => []

def internetChecksum (bs : List Byte) : Nat :=
  0xFFFF - OnesComplement.sum 0xFFFF (words bs)

theorem words_le (bs : List Byte) : ∀ w ∈ words bs, w ≤ 0xFFFF := by
  fun_induction words bs
  case case1 b c bs hi =>
    have hb := b.isLt
    have hc := c.isLt
    intro w hw
    rcases List.mem_cons.mp hw with rfl | hw
    · omega
    · exact hi w hw
  case case2 b =>
    have hb := b.isLt
    intro w hw
    obtain rfl := List.mem_singleton.mp hw
    omega
  case case3 => nofun

theorem words_length (bs : List Byte) : (words bs).length = (bs.length + 1) / 2 := by
  fun_induction words bs
  case case1 hi =>
    simp only [List.length_cons, hi]
    omega
  all_goals simp

theorem words_sum_ne_zero (h : ∃ b ∈ bs, b ≠ 0) : (words bs).sum ≠ 0 := by
  have hz (b : Byte) (hb : b.toNat = 0) : b = 0 := BitVec.eq_of_toNat_eq hb
  fun_induction words bs
  case case1 b c bs hi =>
    obtain ⟨x, hx, hne⟩ := h
    rw [List.sum_cons]
    rcases List.mem_cons.mp hx with rfl | hx
    · have := mt (hz x) hne
      omega
    rcases List.mem_cons.mp hx with rfl | hx
    · have := mt (hz x) hne
      omega
    · have := hi ⟨x, hx, hne⟩
      omega
  case case2 b =>
    obtain ⟨x, hx, hne⟩ := h
    obtain rfl := List.mem_singleton.mp hx
    have := mt (hz x) hne
    rw [List.sum_singleton]
    omega
  case case3 => simp at h

theorem byteSwap_two (h : n ≤ 0xFFFF) : byteSwap 2 n = OnesComplement.swap 256 n := by
  have hd : n / 256 < 256 := by omega
  simp [byteSwap, bytesLE, ofBytesLE, OnesComplement.swap, Nat.mod_eq_of_lt hd]
  omega

theorem bpfNtohs_toNat (c : BitVec 16) : (bpfNtohs c).toNat = byteSwap 2 c.toNat := by
  have hb : byteSwap 2 c.toNat < 2 ^ 16 := byteSwap_lt 2 c.toNat
  rw [bpfNtohs, BitVec.toNat_ofNat, Nat.mod_eq_of_lt hb]

theorem bpfNtohs_swap (c : BitVec 16) : (bpfNtohs c).toNat = OnesComplement.swap 256 c.toNat :=
  (bpfNtohs_toNat c).trans (byteSwap_two (Nat.le_of_lt_succ c.isLt))

theorem word_eq (m : Mem) (i : Nat) : word m i = 256 * (m i).toNat + (m (i + 1)).toNat := by
  have h₀ := (m i).isLt
  have h₁ := (m (i + 1)).isLt
  rw [word, bpfNtohs_swap]
  simp only [Mem.load, Mem.read, ofBytesLE, BitVec.toNat_ofNat, OnesComplement.swap]
  omega

theorem load_toNat (m : Mem) (i : Nat) : (m.load 2 i).toNat = OnesComplement.swap 256 (word m i) := by
  rw [word, ← bpfNtohs_swap]
  exact congrArg BitVec.toNat (Frame.bpfNtohs_bpfHtons _).symm

-- The full words, and what is left.
theorem words_read (m : Mem) (i n len : Nat) :
    words (m.read i (2 * n + len)) =
      (List.range n).map (fun k => word m (i + 2 * k)) ++ words (m.read (i + 2 * n) len) := by
  induction n generalizing i
  case zero => simp
  case succ n hi =>
    have hl : 2 * (n + 1) + len = 2 * n + len + 1 + 1 := by omega
    rw [hl, Mem.read, Mem.read, words, ← word_eq, hi, List.range_succ_eq_map, List.map_cons, List.cons_append,
      List.map_map]
    simp only [Function.comp_def, Nat.add_zero, Nat.mul_succ, Nat.mul_zero]
    congr 3
    all_goals grind

theorem foldl_add_toNat {α : Type} (g : α → BitVec 32) (xs : List α) (s : BitVec 32)
    (h : s.toNat + (xs.map fun x => (g x).toNat).sum < 2 ^ 32) :
    (xs.foldl (fun s x => s + g x) s).toNat = s.toNat + (xs.map fun x => (g x).toNat).sum := by
  induction xs generalizing s
  case nil => simp
  case cons x xs hi =>
    rw [List.map_cons, List.sum_cons] at h ⊢
    have hs : (s + g x).toNat = s.toNat + (g x).toNat := by
      rw [BitVec.toNat_add]
      omega
    rw [List.foldl_cons, hi _ (by omega), hs, Nat.add_assoc]

-- The swapped words are those of a little-endian host.
theorem udpSum_toNat (h : s.toNat + ((words (m.read i len)).map (OnesComplement.swap 256)).sum < 2 ^ 32) :
    (udpSum m i len s).toNat = s.toNat + ((words (m.read i len)).map (OnesComplement.swap 256)).sum := by
  fun_induction udpSum m i len s
  case case1 i len s hi =>
    have hr : m.read i (len + 2) = m i :: m (i + 1) :: m.read (i + 2) len := rfl
    rw [hr, words, ← word_eq, List.map_cons, List.sum_cons] at h ⊢
    have hs : (s + (m.load 2 i).setWidth 32).toNat = s.toNat + OnesComplement.swap 256 (word m i) := by
      rw [BitVec.toNat_add, BitVec.toNat_setWidth, load_toNat]
      omega
    rw [hi (by omega), hs, Nat.add_assoc]
  case case2 i s =>
    have hb := (m i).isLt
    simp only [Mem.read, words, List.map_cons, List.map_nil, List.sum_singleton, OnesComplement.swap] at h ⊢
    rw [BitVec.toNat_add, BitVec.toNat_setWidth]
    omega
  case case3 => simp [Mem.read, words]

theorem accumulate_toNat (h : acc.toNat ≤ 0xFFFF) (word : BitVec 16) :
    (accumulate acc word).toNat = OnesComplement.add 0xFFFF acc.toNat (bpfNtohs word).toNat := by
  have hw := (bpfNtohs word).isLt
  have hs : (acc + (bpfNtohs word).setWidth 32).toNat = acc.toNat + (bpfNtohs word).toNat := by
    rw [BitVec.toNat_add, BitVec.toNat_setWidth]
    omega
  simp only [accumulate, OnesComplement.add, BitVec.lt_def, hs]
  split
  case isTrue h =>
    have hl : 0xFFFF < acc.toNat + (bpfNtohs word).toNat := h
    rw [if_pos hl, BitVec.toNat_sub, hs, BitVec.toNat_ofNat]
    omega
  case isFalse h =>
    have hl : ¬0xFFFF < acc.toNat + (bpfNtohs word).toNat := h
    rw [if_neg hl, hs]

theorem accumulate_le (h : acc.toNat ≤ 0xFFFF) (word : BitVec 16) : (accumulate acc word).toNat ≤ 0xFFFF := by
  have hw : (bpfNtohs word).toNat ≤ 0xFFFF := Nat.le_of_lt_succ (bpfNtohs word).isLt
  rw [accumulate_toNat h, OnesComplement.add_eq_norm h hw]
  exact OnesComplement.norm_le (by decide)

theorem foldl_accumulate_toNat (g : Nat → BitVec 16) (xs : List Nat) (h : acc.toNat ≤ 0xFFFF) :
    (xs.foldl (fun acc x => accumulate acc (g x)) acc).toNat =
      (xs.map fun x => (bpfNtohs (g x)).toNat).foldl (OnesComplement.add 0xFFFF) acc.toNat := by
  induction xs generalizing acc
  case nil => rfl
  case cons x xs hi =>
    rw [List.foldl_cons, hi (accumulate_le h (g x)), accumulate_toNat h, List.map_cons, List.foldl_cons]

theorem words_eq (m : Mem) (length : Nat) :
    words (m.read 0 length) = (List.range (length / 2)).map (fun k => word m (2 * k)) ++
      if length % 2 = 1 then [256 * (m (length - 1)).toNat] else [] := by
  have hl := Nat.div_add_mod length 2
  have hw := words_read m 0 (length / 2) (length % 2)
  simp only [hl, Nat.zero_add] at hw
  rw [hw]
  congr 1
  rcases Nat.mod_two_eq_zero_or_one length with h | h
  · simp [h, Mem.read, words]
  · have hp : length - 1 = 2 * (length / 2) := by omega
    simp [h, hp, Mem.read, words]

-- The byte that is left fills the lower half of a word in memory.
theorem ntohs_setWidth (b : Byte) : (bpfNtohs (b.setWidth 16)).toNat = 256 * b.toNat := by
  have hb := b.isLt
  rw [bpfNtohs_swap, BitVec.toNat_setWidth, OnesComplement.swap]
  omega

theorem ipSum_toNat (data : Mem) (length : Nat) :
    (ipSum data length).toNat = (words (data.read 0 length)).foldl (OnesComplement.add 0xFFFF) 0xFFFF := by
  have hstart : (0xffff#32).toNat ≤ 0xFFFF := by decide
  have hacc := foldl_accumulate_toNat (fun i => data.load 2 (2 * i)) (List.range (length / 2)) hstart
  rw [words_eq, List.foldl_append, ipSum]
  split
  case isTrue =>
    have hle : ((List.range (length / 2)).foldl (fun acc i => accumulate acc (data.load 2 (2 * i))) 0xffff#32).toNat ≤
        0xFFFF := by
      rw [hacc, OnesComplement.foldl_add_eq_norm (by decide) hstart fun w hw => ?_]
      · exact OnesComplement.norm_le (by decide)
      · have ⟨_, _, h⟩ := List.mem_map.mp hw
        exact h ▸ word_le _ _
    rw [accumulate_toNat hle, hacc, ntohs_setWidth]
    rfl
  case isFalse => exact hacc

theorem ipv4Sum_toNat (h : (words (data.read 0 length)).sum < 2 ^ 32) :
    (ipv4Sum data length).toNat = (words (data.read 0 length)).sum := by
  have hword (i : Nat) : ((ntohs (data.load 2 (2 * i))).setWidth 32).toNat = word data (2 * i) := by
    have hl := word_le data (2 * i)
    rw [BitVec.toNat_setWidth, word]
    exact Nat.mod_eq_of_lt (by rw [word] at hl; omega)
  have hsum := foldl_add_toNat (fun i => (ntohs (data.load 2 (2 * i))).setWidth 32) (List.range (length / 2)) 0#32
  simp only [hword, BitVec.toNat_ofNat, Nat.zero_mod, Nat.zero_add] at hsum
  rw [words_eq, List.sum_append] at h ⊢
  rw [ipv4Sum]
  by_cases ho : length % 2 = 1
  case pos =>
    have hb := (data (length - 1)).isLt
    rw [if_pos ho, List.sum_singleton] at h
    rw [if_pos ho, if_pos ho, List.sum_singleton, BitVec.toNat_add, hsum (by omega), BitVec.toNat_shiftLeft,
      BitVec.toNat_setWidth, Nat.shiftLeft_eq]
    omega
  case neg =>
    rw [if_neg ho] at h
    rw [if_neg ho, if_neg ho]
    exact hsum (by omega)

-- The checksum of a buffer, and what it is once it is stored in memory.
structure Checksum (data : Mem) (length : Nat) (c : BitVec 16) : Prop where
  ip      : ipChecksum data length = c
  ipv4    : ipv4Checksum data length = c
  udp     : udpChecksum data length = c
  network : bytesLE 2 c.toNat = (bytesLE 2 (internetChecksum (data.read 0 length))).reverse

variable {ws : List Nat} {v : BitVec 16}

theorem sum_lt (hl : length ≤ 131074) (hw : ws.length = (length + 1) / 2) (h : ∀ w ∈ ws, w ≤ 0xFFFF) :
    ws.sum < 2 ^ 32 := by
  have hs : ws.sum ≤ ws.length * 0xFFFF := ws.sum_le_card_nsmul 0xFFFF h
  rw [hw] at hs
  omega

-- The complement of the sum in host byte order is what the three have in common.
theorem Checksum.of_complement (hl : length ≤ 131074) (hz : ∃ b ∈ data.read 0 length, b ≠ 0)
    (hv : v.toNat = 0xFFFF - OnesComplement.norm 0xFFFF (words (data.read 0 length)).sum) :
    Checksum data length (htons v) := by
  have hwl := words_length (data.read 0 length)
  have hle := words_le (data.read 0 length)
  have hne := words_sum_ne_zero hz
  rw [Mem.read_length] at hwl
  generalize hw : words (data.read 0 length) = ws at *
  have hs : ws.sum < 2 ^ 32 := sum_lt hl hwl hle
  have hn : OnesComplement.norm 0xFFFF ws.sum ≤ 0xFFFF := OnesComplement.norm_le (by decide)
  exact {
    ip := by
      have hsum : (ipSum data length).toNat = OnesComplement.norm 0xFFFF ws.sum := by
        rw [ipSum_toNat, hw, OnesComplement.foldl_add_all (by decide) hle hne]
      refine congrArg htons (BitVec.eq_of_toNat_eq ?_)
      have hmask : (~~~ipSum data length &&& 0xffff#32).toNat = (~~~ipSum data length).toNat % 2 ^ 16 := by
        rw [BitVec.toNat_and]
        exact Nat.and_two_pow_sub_one_eq_mod _ 16
      rw [hv, BitVec.toNat_setWidth, hmask, BitVec.toNat_not, hsum]
      omega
    ipv4 := by
      refine congrArg htons (BitVec.eq_of_toNat_eq ?_)
      rw [hv, not_addCarry_toNat, ipv4Sum_toNat (hw ▸ hs), hw]
    udp := by
      have hsl : (ws.map (OnesComplement.swap 256)).sum < 2 ^ 32 := by
        refine sum_lt hl ((List.length_map ..).trans hwl) fun w h => ?_
        have ⟨x, hx, he⟩ := List.mem_map.mp h
        exact he ▸ OnesComplement.swap_le (by decide) (hle x hx)
      have hsum : (udpSum data 0 length 0#32).toNat = (ws.map (OnesComplement.swap 256)).sum := by
        rw [udpSum_toNat (by simpa [hw] using hsl), hw]
        simp
      apply BitVec.eq_of_toNat_eq
      rw [udpChecksum, not_addCarry_toNat, hsum, ← OnesComplement.swap_norm (by decide) (by decide), bpfNtohs_swap, hv,
        OnesComplement.swap, OnesComplement.swap]
      omega
    network := by
      rw [bpfNtohs_toNat, bytesLE_byteSwap, hv, internetChecksum, hw, OnesComplement.sum_eq_norm (by decide) hle] }

theorem exists_checksum (hl : length ≤ 131074) (hz : ∃ b ∈ data.read 0 length, b ≠ 0) :
    ∃ c, Checksum data length c := by
  have hn : 0xFFFF - OnesComplement.norm 0xFFFF (words (data.read 0 length)).sum < 2 ^ 16 := by omega
  exact ⟨_, .of_complement hl hz ((BitVec.toNat_ofNat ..).trans (Nat.mod_eq_of_lt hn))⟩

-- The programs leave out the field that is zero here.
theorem ipChecksumXdp_checksum (hv : (data 0).toNat / 16 = 4) (hc : data.load 2 10 = 0) :
    Checksum data 20 (ipChecksumXdp data 0) := by
  have hfield : word data (0 + 10) = 0 := by
    rw [word, hc]
    decide
  have hsum : (words (data.read 0 20)).sum = headerSum data 0 10 := by
    have hs := headerSum_add data 0
    rw [words_eq]
    simp only [Nat.zero_add, hfield] at hs
    simpa using hs
  have hz : ∃ b ∈ data.read 0 20, b ≠ 0 := by
    refine ⟨data 0, by simp [Mem.read], fun h0 => ?_⟩
    rw [h0] at hv
    contradiction
  have hx := ipChecksumXdp_toNat data 0
  rw [← hsum] at hx
  have he : htons (bpfNtohs (ipChecksumXdp data 0)) = ipChecksumXdp data 0 := Frame.bpfNtohs_bpfHtons _
  exact he ▸ Checksum.of_complement (by decide) hz hx

theorem checksums_agree :
    (∀ (data : Mem) (length : Nat), length ≤ 131074 → (∃ b ∈ data.read 0 length, b ≠ 0) →
      ∃ c, Checksum data length c) ∧
    ∀ data : Mem, (data 0).toNat / 16 = 4 → data.load 2 10 = 0 → Checksum data 20 (ipChecksumXdp data 0) :=
  ⟨fun _ _ => exists_checksum, fun _ => ipChecksumXdp_checksum⟩

-- Three bytes, and a header of 192.168.0.1.
theorem checksums_agree_three :
    (∃ c, Checksum (Mem.ofList [1, 2, 3]) 3 c) ∧
    Checksum (Mem.ofList [0x45, 0, 0, 33, 0, 0, 0, 0, 64, 17, 0, 0, 192, 168, 0, 1, 192, 168, 0, 2]) 20
      (ipChecksumXdp (Mem.ofList [0x45, 0, 0, 33, 0, 0, 0, 0, 64, 17, 0, 0, 192, 168, 0, 1, 192, 168, 0, 2]) 0) :=
  ⟨checksums_agree.left _ 3 (by decide) (by decide), checksums_agree.right _ (by decide) (by decide)⟩

end Packet

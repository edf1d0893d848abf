import XdpCollectives.Mpi.Theorems.Duplicates
import XdpCollectives.Mpi.Theorems.Results
import XdpCollectives.Rounding.Basic

-- The fragments of a message as its sender and its receivers compute them.
namespace Mpi

open Memory Wire Process Rounding

-- The datagrams are the fragments that the receivers expect of a message of `size` bytes.
structure Planned (size : Nat) (datatype : MPIDatatype) (ds : List Bytes) : Prop where
  number   : ds.length = fragments size
  seq      : ∀ i d, ds[i]? = some d → (Header.decode d).seq.toNat = i
  full     : ∀ i d, ds[i]? = some d → i + 1 < fragments size → (Header.decode d).len.toInt = payloadSize
  last     : ∀ d, ds.getLast? = some d → (Header.decode d).len.toInt = finalSend size (fragments size)
  sum      : (ds.map lenOf).sum = size
  accepted : ∀ d ∈ ds, ∀ es l,
    recvFragment size (fragments size) es datatype l (some (d.take maxPayload)) ≠ .inr .lost

-- `N` is the ceiling of a quotient of two `double`s. Both receivers have a table of `N` fragments, and `__mpi_send`
-- fills it.
structure SamePlan (size : Nat) (count : Int) (datatype : MPIDatatype) : Prop where
  ceil   : ∀ x, Nearest 53 ((size : ℚ) / payloadSize) x → ⌈x⌉ = fragments size
  emits  : ∀ (p : ProcessInfo) (buf : Mem) (root dest : Nat) (tag : Int) (collective : MPICollective),
    root < p.size → dest < p.size → dest ≠ p.rank → ∃ ds p',
      Performs direct p.rank (_mpiSend p buf count datatype root dest tag collective)
        (ds.map fun d => .put [(.udp dest, d)]) (.ret (count, p')) ∧ Planned size datatype ds
  allots : ∀ (p : ProcessInfo) (buf : Mem) (source tag : Int),
    (∃ g, mpiRecv p buf count datatype source tag =
      recvFragments size (fragments size) (datatype.sizeof?.getD 0) datatype >>= g) ∧
    ∃ g, mpiRecvNoAck p buf count datatype source =
      recvFragments size (fragments size) (datatype.sizeof?.getD 0) datatype >>= g

-- The number of the fragments does not divide the size, or their length does, too.
def EvenSplit (size : Nat) : Prop :=
  size % fragments size = 0 → size % payloadSize = 0

variable {size count root dest : Nat} {datatype : MPIDatatype} {p : ProcessInfo} {buf : Mem} {tag : Int}
  {collective : MPICollective}

theorem ceil_fragments {x : ℚ} (h0 : 0 < size) (hl : size < 2 ^ 31) (h : Nearest 53 ((size : ℚ) / payloadSize) x) :
    ⌈x⌉ = fragments size := by
  have hp : payloadSize = 1424 := rfl
  rw [h.ceil_eq (k := 11) h0 (by decide) (by decide) (by omega), Int.ceil_eq_iff]
  have hq : (0 : ℚ) < payloadSize := by norm_num [hp]
  have ⟨h1, hlt, hle⟩ := fragments_spec h0
  rw [lt_div_iff₀ hq, div_le_iff₀ hq]
  constructor
  · have hlt : ((fragments size - 1 : Nat) : ℚ) * payloadSize < size := by exact_mod_cast hlt
    rwa [Nat.cast_sub h1, Nat.cast_one] at hlt
  · exact_mod_cast hle

-- The last fragment has what the ones before it have left.
theorem fragmentLen_last (h0 : 0 < size) :
    fragmentLen size (fragments size) (fragments size - 1) = size - (fragments size - 1) * payloadSize := by
  have ⟨h1, hlt, hle⟩ := fragments_spec h0
  have hadd := fragmentLen_add h0 rfl (show fragments size - 1 < fragments size by omega)
  rw [Nat.sub_add_cancel h1, Nat.min_eq_right hle] at hadd
  omega

-- The receivers find out that there is nothing left over by the number of the fragments, not by their length.
theorem finalSend_iff (h0 : 0 < size) :
    size - (fragments size - 1) * payloadSize = finalSend size (fragments size) ↔ EvenSplit size := by
  have ⟨h1, hlt, hle⟩ := fragments_spec h0
  have hs : fragments size * payloadSize = (fragments size - 1) * payloadSize + payloadSize := by
    rw [← Nat.succ_mul]
    congr 1
    omega
  rw [finalSend, EvenSplit]
  by_cases hm : size % fragments size = 0
  case neg => simp [hm]
  case pos =>
    simp only [hm, ne_eq, not_true, if_false, forall_const]
    constructor
    · intro he
      rw [show size = fragments size * payloadSize by omega, Nat.mul_mod_left]
    · intro he
      simp only [fragments, payloadSize, maxPayload, mpiHeader] at he h1 ⊢
      omega

variable (p buf datatype root dest tag collective) in
theorem fragment_len (h0 : 0 < size) (i : Nat) :
    (Header.decode (fragment p buf size (fragments size) 1 datatype root dest tag collective i)).len.toInt =
      (fragmentLen size (fragments size) i : Nat) := by
  have ⟨_, hlen, _⟩ := fragment_decode buf size root dest i tag collective datatype (p := p) (N := fragments size)
  have hle := fragmentLen_le i h0 rfl
  have hp : payloadSize = 1424 := rfl
  rw [hlen, BitVec.ofInt_natCast, BitVec.toInt_ofNat']
  exact Int.bmod_eq_of_le (by omega) (by omega)

-- The fragments that `__mpi_send` emits.
theorem mem_fragments (h0 : 0 < size) (hl : size < 2 ^ 31) {i : Nat} {d : Bytes}
    (hd : ((List.range (fragments size)).map
      (fragment p buf size (fragments size) 1 datatype root dest tag collective))[i]? = some d) :
    i < fragments size ∧ d.length = maxPayload ∧ (Header.decode d).seq.toNat = i ∧
      (Header.decode d).len.toInt = (fragmentLen size (fragments size) i : Nat) := by
  have hN : fragments size ≤ size := by
    simp only [fragments, payloadSize, maxPayload, mpiHeader]
    omega
  rw [List.getElem?_map, Option.map_eq_some_iff] at hd
  obtain ⟨j, hj, rfl⟩ := hd
  obtain ⟨hi, he⟩ := List.getElem?_eq_some_iff.mp hj
  rw [List.getElem_range] at he
  subst he
  rw [List.length_range] at hi
  obtain ⟨_, _, hseq⟩ := fragment_decode buf size root dest i tag collective datatype (p := p) (N := fragments size)
  refine ⟨hi, fragment_length h0 rfl, ?_, fragment_len root dest datatype p buf tag collective h0 i⟩
  rw [hseq, BitVec.toNat_ofNat]
  omega

variable (p buf size datatype root dest tag collective) in
theorem planned (h0 : 0 < size) (hl : size < 2 ^ 31) (he : EvenSplit size) :
    Planned size datatype ((List.range (fragments size)).map
      (fragment p buf size (fragments size) 1 datatype root dest tag collective)) where
  number := by rw [List.length_map, List.length_range]
  seq i d hd := (mem_fragments h0 hl hd).right.right.left
  full i d hd hi := by
    have ⟨_, _, _, hlen⟩ := mem_fragments h0 hl hd
    rw [hlen, fragmentLen_full h0 rfl hi]
  last d hd := by
    rw [List.getLast?_eq_getElem?, List.length_map, List.length_range] at hd
    have ⟨_, _, _, hlen⟩ := mem_fragments h0 hl hd
    rw [hlen, fragmentLen_last h0, (finalSend_iff h0).mpr he]
  sum := by
    rw [List.map_map]
    refine Eq.trans (congrArg List.sum (List.map_congr_left fun i _ => ?_)) (lengths_range_all h0 rfl)
    rw [Function.comp_apply, lenOf, fragment_len root dest datatype p buf tag collective h0, Int.toNat_natCast]
  accepted d hd es l := by
    have ⟨i, hi⟩ := List.mem_iff_getElem?.mp hd
    have ⟨_, hlen, _, _⟩ := mem_fragments h0 hl hi
    rw [recvFragment_expected (.inl hlen.ge)]
    dsimp only
    split_ifs <;> exact nofun

-- What `__mpi_send` takes for a number of elements is a number of bytes.
theorem _mpiSend_multiple_fault {count : Int} {es : Nat} (hroot : root < p.size) (hd : dest < p.size)
    (hs : datatype.sizeof? = some es) (h1 : es ≠ 1) (hl : payloadSize < datatypeSizeInBytes count datatype) :
    _mpiSend p buf count datatype root dest tag collective = .fault := by
  have hlt := datatypeSizeInBytes_lt count datatype
  have hp : payloadSize = 1424 := rfl
  generalize hz : datatypeSizeInBytes count datatype = z at hl hlt
  obtain ⟨n, rfl⟩ := Int.eq_ofNat_of_zero_le (show 0 ≤ z by omega)
  have h2 : 2 * payloadSize ≤ es * payloadSize :=
    Nat.mul_le_mul_right _ (by have := (MPIDatatype.sizeof?_elementSize hs).pos; omega)
  have hb : payloadSize < u64 (i32 (mpiHeader + (n : Nat))) ↔ payloadSize < mpiHeader + n :=
    lt_u64_i32 (n := mpiHeader + n) (by simp only [mpiHeader]; omega) (by decide)
  have ⟨k, hk⟩ : ∃ k, (n + payloadSize - 1) / payloadSize = k + 1 :=
    ⟨(n + payloadSize - 1) / payloadSize - 1, by rw [hp]; omega⟩
  rw [_mpiSend]
  simp only [hz, hs, hb, Option.getD_some, Int.toNat_natCast, hk]
  rw [if_neg (by omega), if_neg (by simp [ProcessInfo.inRange_natCast, hroot, hd]), if_pos (by omega),
    _mpiSendFragments]
  simp only [Nat.zero_mul, Nat.sub_zero]
  rw [if_neg (by omega), if_pos (show payloadSize < n by omega), if_pos (by omega)]
  rfl

variable {count : Int}

theorem size_one (hs : datatype.sizeof? = some 1) (hmin : -2 ^ 31 ≤ count) (hmax : count < 2 ^ 31) :
    datatypeSizeInBytes count datatype = count := by
  simp only [datatypeSizeInBytes, hs, i32, Nat.cast_one, mul_one]
  exact Int.bmod_eq_of_le (by omega) (by omega)

section Size

variable (hd : datatypeSizeInBytes count datatype = size) (hl : maxPayload < mpiHeader + size)
include hd hl

theorem SamePlan.one_byte (h : SamePlan size count datatype) : datatype.sizeof? = some 1 := by
  have hp : maxPayload = mpiHeader + payloadSize := rfl
  have ⟨ds, p', hrun, _⟩ := h.emits (.init 2 0 fun _ => 0) (fun _ => 0) 0 1 0 .send (by decide) (by decide) (by decide)
  cases hs : datatype.sizeof? with
  | none    =>
    simp only [datatypeSizeInBytes, hs] at hd
    omega
  | some es =>
    by_contra h1
    rw [_mpiSend_multiple_fault (by decide) (by decide) hs (fun he => h1 (he ▸ rfl)) (by omega)] at hrun
    generalize ds.map _ = t at hrun
    cases hrun

omit hl in
theorem SamePlan.fits (h : SamePlan size count datatype) : mpiHeader + size < 2 ^ 31 := by
  by_contra hn
  have ⟨⟨g, hg⟩, _⟩ := h.allots (.init 2 0 fun _ => 0) (fun _ => 0) 0 0
  rw [mpiRecv_too_long _ _ _ (by omega)] at hg
  contradiction

theorem SamePlan.evenSplit (h : SamePlan size count datatype) (hmin : -2 ^ 31 ≤ count) (hmax : count < 2 ^ 31) :
    EvenSplit size := by
  have h0 : 0 < size := by
    simp only [maxPayload, mpiHeader] at hl
    omega
  obtain ⟨h1, _, _⟩ := fragments_spec h0
  have hs := h.one_byte hd hl
  have hsize := (size_one hs hmin hmax).symm.trans hd
  subst hsize
  have hint : size < 2 ^ 31 := by exact_mod_cast hmax
  obtain ⟨ds, p', hrun, hplan⟩ :=
    h.emits (.init 2 0 fun _ => 0) (fun _ => 0) 0 1 0 .send (by decide) (by decide) (by decide)
  have hds := Emits.unique ⟨_, hrun⟩ (emits_datagrams (p := .init 2 1 fun _ => 0) (by decide) (by decide) (by decide) hs
    ⟨h0, .inr ⟨rfl, hint⟩⟩)
  rw [datagrams_fragments hl] at hds
  subst hds
  rw [← finalSend_iff h0]
  have hlast := hplan.last _ (by
    rw [List.getLast?_eq_getElem?, List.length_map, List.length_range, List.getElem?_map,
      List.getElem?_range (by omega), Option.map_some])
  rw [fragment_len _ _ _ _ _ _ _ h0, fragmentLen_last h0] at hlast
  exact_mod_cast hlast

end Size

-- For every size that an `int` can hold.
theorem samePlan_iff (hmin : -2 ^ 31 ≤ count) (hmax : count < 2 ^ 31) (hd : datatypeSizeInBytes count datatype = size)
    (hl : maxPayload < mpiHeader + size) :
    SamePlan size count datatype ↔
      datatype.sizeof? = some 1 ∧ mpiHeader + size < 2 ^ 31 ∧ EvenSplit size := by
  constructor
  · exact fun h => ⟨h.one_byte hd hl, h.fits hd, h.evenSplit hd hl hmin hmax⟩
  · rintro ⟨hs, hint, he⟩
    have hsize := (size_one hs hmin hmax).symm.trans hd
    subst hsize
    have h0 : 0 < size := by
      simp only [maxPayload, mpiHeader] at hl
      omega
    refine ⟨fun x => ceil_fragments h0 (by omega), fun p buf root dest tag collective hroot hdest hne => ?_,
      fun p buf source tag => ?_⟩
    · have hrun := _mpiSend_performs (μ := direct) root datatype buf tag collective hroot hdest hne hs
        ⟨h0, .inr ⟨rfl, by omega⟩⟩
      rw [datagrams_fragments hl] at hrun
      exact ⟨_, _, hrun, planned _ _ _ _ _ _ _ _ h0 (by omega) he⟩
    · rw [hs, Option.getD_some, mpiRecv_multiple hs (by rwa [Nat.one_mul]) (by rwa [Nat.one_mul]),
        mpiRecvNoAck_multiple hs (by rwa [Nat.one_mul]) (by rwa [Nat.one_mul]), Nat.one_mul]
      exact ⟨⟨_, rfl⟩, ⟨_, rfl⟩⟩

theorem samePlan_iff_first :
    SamePlan 1425 1425 .char ↔
      MPIDatatype.char.sizeof? = some 1 ∧ mpiHeader + 1425 < 2 ^ 31 ∧ EvenSplit 1425 :=
  samePlan_iff (by decide) (by decide) (by decide) (by decide)

-- Two fragments of which the last has 576 bytes, and the receivers compute 1424.
theorem not_samePlan : ¬SamePlan 2000 2000 .char := by
  intro h
  have he := h.evenSplit (by decide) (by decide) (by decide) (by decide)
  exact absurd (he (by decide)) (by decide)

end Mpi

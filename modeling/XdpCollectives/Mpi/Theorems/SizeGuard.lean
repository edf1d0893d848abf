import XdpCollectives.Mpi.Theorems.Parts

-- The guard on the size of a message.
namespace Mpi

open Memory Wire

variable {count : Int} {datatype : MPIDatatype} {es : Nat}

-- What the senders and receivers rely on once the size has turned out to be at least 1. A message of `total_size` bytes
-- is allocated, and `count` is converted to a `size_t` when the elements are converted.
structure Guarded (count : Int) (datatype : MPIDatatype) : Prop where
  positive : 0 < count
  exact    : ∀ es, datatype.sizeof? = some es → datatypeSizeInBytes count datatype = count * es
  total    : mpiHeader + datatypeSizeInBytes count datatype < 2 ^ 31
  fits     : ∀ es, datatype.sizeof? = some es →
    mpiHeader + es * u64 count ≤ (i32 (mpiHeader + datatypeSizeInBytes count datatype)).toNat

def GuardSound (count : Int) (datatype : MPIDatatype) : Prop :=
  1 ≤ datatypeSizeInBytes count datatype → Guarded count datatype

-- The product is no more than the `int` it is assigned to can hold with the header, or it is cut off to a number that
-- is not positive.
def ProductFits (count : Int) (datatype : MPIDatatype) : Prop :=
  ∀ es : Nat, datatype.sizeof? = some es →
    0 < count * es ∧ mpiHeader + count * es < 2 ^ 31 ∨ count * es % 2 ^ 32 = 0 ∨ 2 ^ 31 ≤ count * es % 2 ^ 32

theorem one_le_i32 (x : Int) : 1 ≤ i32 x ↔ ¬(x % 2 ^ 32 = 0 ∨ 2 ^ 31 ≤ x % 2 ^ 32) := by
  simp only [i32, Int.bmod_def]
  omega

theorem guarded_of_fits (hs : datatype.sizeof? = some es) (h0 : 0 < count * es)
    (hl : mpiHeader + count * es < 2 ^ 31) : Guarded count datatype := by
  have he := (MPIDatatype.sizeof?_elementSize hs).pos
  have hpos : 0 < count := Int.pos_of_mul_pos_left h0 (by omega)
  obtain ⟨k, rfl⟩ := Int.eq_ofNat_of_zero_le hpos.le
  have hl : mpiHeader + es * k < 2 ^ 31 := by
    rw [Nat.mul_comm]
    exact_mod_cast hl
  have ⟨hsize, ht, hu⟩ := sizes_eq hs hl
  have hmul : ((es * k : Nat) : Int) = k * es := by rw [Nat.mul_comm, Nat.cast_mul]
  refine ⟨hpos, fun es' hs' => ?_, ?_, fun es' hs' => ?_⟩
  · obtain rfl := Option.some.inj (hs.symm.trans hs')
    exact hsize.trans hmul
  · rw [hsize]
    exact_mod_cast hl
  · obtain rfl := Option.some.inj (hs.symm.trans hs')
    rw [hsize, ht, hu, Int.toNat_natCast]

-- For every `int` that `count` can be, and every datatype.
theorem guardSound_iff (count : Int) (datatype : MPIDatatype) :
    GuardSound count datatype ↔ ProductFits count datatype := by
  constructor
  · intro h es hs
    have hi : datatypeSizeInBytes count datatype = i32 (count * es) := by simp only [datatypeSizeInBytes, hs]
    by_cases h1 : 1 ≤ i32 (count * es)
    case pos =>
      have hg := h (hi ▸ h1)
      have he := hg.exact es hs
      exact .inl ⟨by omega, he ▸ hg.total⟩
    case neg => exact .inr (not_not.mp fun hn => h1 ((one_le_i32 _).mpr hn))
  · intro h h1
    cases hs : datatype.sizeof? with
    | none    =>
      simp only [datatypeSizeInBytes, hs] at h1
      omega
    | some es =>
      simp only [datatypeSizeInBytes, hs] at h1
      obtain ⟨h0, hl⟩ := (h es hs).resolve_right ((one_le_i32 _).mp h1)
      exact guarded_of_fits hs h0 hl

-- 2^30 + 1 elements of four bytes come out as four bytes.
theorem not_guardSound : ¬GuardSound 1073741825 .int := by
  intro h
  have hg := h (by decide)
  exact absurd (hg.exact 4 rfl) (by decide)

end Mpi

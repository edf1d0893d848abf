import XdpCollectives.Mpi.Theorems.Results

-- Where the loop that puts the fragments together writes.
namespace Mpi

open Memory Wire Process

variable {es count k N : Nat} {datatype : MPIDatatype} {table : Nat → Option Bytes} {buf b : Mem}

-- Nothing behind the elements of the buffer has changed.
def Inside (es count : Nat) (buf b : Mem) : Prop :=
  ∀ j, es * count ≤ j → b j = buf j

theorem Inside.refl (es count : Nat) (buf : Mem) : Inside es count buf buf :=
  fun _ _ => rfl

theorem Inside.write (h : Inside es count buf b) {bs : Bytes} (hl : i + bs.length ≤ es * count) :
    Inside es count buf (b.write i bs) := by
  intro j hj
  rw [Mem.write_outside (by omega)]
  exact h j hj

-- The elements of a message.
theorem inside_write (hs : ElementSize es) (count : Nat) (bs : Bytes) (buf : Mem) :
    Inside es count buf (buf.write 0 (genericNtoh es count bs)) :=
  (Inside.refl es count buf).write <| by
    rw [Nat.zero_add]
    exact genericHton_length_le hs count bs

theorem Inside.terminate (h : Inside es count buf b) (datatype : MPIDatatype) (hl : last < count) :
    Inside es count buf (terminate datatype es last b) := by
  rw [Mpi.terminate]
  split
  case isTrue =>
    have hle : es * (last + 1) ≤ es * count := Nat.mul_le_mul_left es hl
    rw [Nat.mul_succ] at hle
    exact h.write (by rw [List.length_replicate]; exact hle)
  case isFalse => exact h

theorem terminate_agree {b b' : Mem} (h : b j = b' j) : terminate datatype es i b j = terminate datatype es i b' j := by
  rw [terminate, terminate]
  split
  case isTrue  => exact Mem.write_agree fun _ => h
  case isFalse => exact h

-- One round of the loop. `st` is the buffer with the offset.
def putElements (es : Nat) (count : Int) (datatype : MPIDatatype) (table : Nat → Option Bytes) (st : Mem × Nat)
    (i : Nat) : Mem × Nat :=
  match table i with
  | none     => st
  | some arr =>
    let last := if datatype = .char then count.toNat - 1 else st.2 + (count.toNat - 1)
    (terminate datatype es last (st.1.write (es * st.2) (genericNtoh es (arr.length / es) arr)),
      st.2 + arr.length / es)

variable (es datatype table buf) in
def placed (count k : Nat) : Mem × Nat :=
  (List.range k).foldl (putElements es count datatype table) (buf, 0)

theorem assemble_eq : assemble buf count N es datatype table = (placed es datatype table buf count N).1 := by
  rw [assemble, placed]
  congr 2

theorem placed_succ : placed es datatype table buf count (k + 1) =
    putElements es count datatype table (placed es datatype table buf count k) k := by
  rw [placed, List.range_succ, List.foldl_append]
  rfl

-- The number of elements in the fragment with this number.
def lenAt (es : Nat) (table : Nat → Option Bytes) (i : Nat) : Nat :=
  ((table i).map fun arr => arr.length / es).getD 0

-- The number of elements in the first fragments.
def lensTo (es : Nat) (table : Nat → Option Bytes) (k : Nat) : Nat :=
  ((List.range k).map (lenAt es table)).sum

theorem lensTo_succ : lensTo es table (k + 1) = lensTo es table k + lenAt es table k := by
  simp [lensTo, List.range_succ]

theorem placed_offset : (placed es datatype table buf count k).2 = lensTo es table k := by
  induction k
  case zero => rfl
  case succ k hi =>
    rw [placed_succ, lensTo_succ, ← hi, putElements, lenAt]
    cases table k <;> rfl

theorem genericNtoh_div_length (hs : ElementSize es) (arr : Bytes) :
    (genericNtoh es (arr.length / es) arr).length = es * (arr.length / es) :=
  genericHton_length hs (Nat.mul_div_le _ _)

-- Where the terminator counts from the beginning of the buffer, or where there is none, the loop stays inside as long
-- as the fragments have no more elements than the buffer.
theorem placed_inside (hs : ElementSize es) (hd : datatype = .char ∨ ¬datatype.isChar) (h0 : 0 < count)
    (hl : lensTo es table k ≤ count) : Inside es count buf (placed es datatype table buf count k).1 := by
  induction k
  case zero => exact fun _ _ => rfl
  case succ k hi =>
    rw [lensTo_succ] at hl
    have hk := hi (by omega)
    have hle : es * (lensTo es table k + lenAt es table k) ≤ es * count := Nat.mul_le_mul_left es hl
    rw [Nat.mul_add] at hle
    rw [placed_succ, putElements]
    cases ht : table k with
    | none => exact hk
    | some arr =>
      have hlen : lenAt es table k = arr.length / es := by rw [lenAt, ht]; rfl
      rw [hlen] at hle
      have hend : es * (placed es datatype table buf count k).2 + (genericNtoh es (arr.length / es) arr).length ≤
          es * count := by
        rw [genericNtoh_div_length hs, placed_offset]
        exact hle
      have hw := hk.write hend
      rcases hd with rfl | hd
      · exact hw.terminate .char (by rw [if_pos rfl]; omega)
      · dsimp only
        rw [terminate, if_neg hd]
        exact hw

-- A zero in the last element.
def Terminated (es count : Nat) (b : Mem) : Prop :=
  ∀ i < es, b (es * (count - 1) + i) = 0

theorem terminated_terminate (hd : datatype.isChar) : Terminated es count (terminate datatype es (count - 1) b) := by
  intro i hi
  rw [terminate, if_pos hd, Mem.write_inside (by rwa [List.length_replicate]), List.getElem_replicate]

theorem placed_terminated (ht : (table 0).isSome) (hk : 0 < k) :
    Terminated es count (placed es .char table buf count k).1 := by
  induction k
  case zero => contradiction
  case succ k hi =>
    rw [placed_succ, putElements]
    cases hn : table k with
    | none =>
      have h0 : k ≠ 0 := by
        rintro rfl
        rw [hn] at ht
        contradiction
      exact hi (by omega)
    | some arr => exact terminated_terminate (rfl : MPIDatatype.char.isChar = true)

-- What the loop has written does not depend on what was in the buffer.
theorem placed_written (hs : ElementSize es) (buf' : Mem) (hj : j < es * lensTo es table k) :
    (placed es datatype table buf count k).1 j = (placed es datatype table buf' count k).1 j := by
  induction k
  case zero => contradiction
  case succ k hi =>
    rw [placed_succ, placed_succ, putElements, putElements, placed_offset, placed_offset]
    rw [lensTo_succ, Nat.mul_add] at hj
    cases ht : table k with
    | none =>
      rw [lenAt, ht] at hj
      exact hi hj
    | some arr =>
      have hlen : lenAt es table k = arr.length / es := by rw [lenAt, ht]; rfl
      rw [hlen] at hj
      refine terminate_agree (Mem.write_agree fun h => ?_)
      rw [genericNtoh_div_length hs] at h
      exact hi (by omega)

-- Fragments that have not come change nothing.
theorem placed_of_none (h : ∀ i, k ≤ i → table i = none) (hk : k ≤ N) :
    placed es datatype table buf count N = placed es datatype table buf count k := by
  induction N, hk using Nat.le_induction
  case base => rfl
  case succ N hN hi => rw [placed_succ, putElements, h N hN, hi]

end Mpi

import XdpCollectives.Mpi.Theorems.Stored
import XdpCollectives.Process.Feed

-- Receives that are given the results of `recvfrom`.
namespace Mpi

open Memory Wire Process

theorem decodeField_append {a : Bytes} (h : size ≤ a.length) (b : Bytes) :
    decodeField size (a ++ b) = decodeField size a := by
  rw [← decodeField_take size (a ++ b), List.take_append_of_le_length h, decodeField_take]

-- Only the first bytes of a message are its header.
theorem decode_append {a : Bytes} (h : mpiHeader ≤ a.length) (b : Bytes) :
    Header.decode (a ++ b) = Header.decode a := by
  have hf size k (hk : k + size ≤ mpiHeader) :
      decodeField size ((a ++ b).drop k) = decodeField size (a.drop k) := by
    rw [List.drop_append_of_le_length (by omega)]
    exact decodeField_append (by rw [List.length_drop]; omega) b
  simp only [Header.decode, hf 4 4 (by decide), hf 4 8 (by decide), hf 4 12 (by decide), hf 4 16 (by decide),
    hf 4 20 (by decide), hf 4 24 (by decide), hf 4 28 (by decide), hf 8 32 (by decide), hf 8 40 (by decide)]

section Fragment

-- What the loop makes of a datagram: the allocated memory that it receives it into held zeros.
def padded (d : Bytes) : Bytes :=
  d.take maxPayload ++ List.replicate (maxPayload - (d.take maxPayload).length) 0

variable {size N es : Nat} {datatype : MPIDatatype} {l : Fragments} {d : Bytes}

theorem padded_length (d : Bytes) : (padded d).length = maxPayload := by
  rw [padded, List.length_append, List.length_replicate, List.length_take]
  omega

theorem Expected.le (h : Expected size N d) : mpiHeader ≤ d.length := by
  have hm : mpiHeader ≤ maxPayload := by decide
  rcases h with h | h <;> omega

theorem decode_padded (h : mpiHeader ≤ d.length) : Header.decode (padded d) = Header.decode d := by
  have hm : mpiHeader ≤ maxPayload := by decide
  have ht : mpiHeader ≤ (d.take maxPayload).length := by
    rw [List.length_take]
    omega
  have hd := decode_append ht (d.drop maxPayload)
  rw [List.take_append_drop] at hd
  rw [padded, decode_append ht, hd]

theorem recvFragment_expected (h : Expected size N d) :
    recvFragment size N es datatype l (some (d.take maxPayload)) =
      let h := Header.decode d
      let len := u64 h.len.toInt
      let arrSize := datatypeSizeInBytes h.len.toInt datatype
      if N ≤ h.seq.toNat then .inr .fault
      else if arrSize + 1 < 0 then .inr .exit
      else if payloadSize < es * len ∨ (arrSize + 1).toNat < es * len then .inr .fault
      else
        let l : Fragments := {
          table := Function.update l.table h.seq.toNat (some (genericNtoh es len ((padded d).drop mpiHeader)))
          total := (l.total + len) % 2 ^ 64
          root  := h.root }
        if size ≤ l.total then .inr (.all l) else .inl l := by
  have hm : 4 ≤ mpiHeader := by decide
  have hp : maxPayload = mpiHeader + payloadSize := rfl
  have hl : (d.take maxPayload).length = min maxPayload d.length := List.length_take
  have hle := h.le
  have h4 : ¬(d.take maxPayload).length < 4 := by omega
  have hsize : ¬(((d.take maxPayload).length : Int) - mpiHeader ≠ payloadSize ∧
      ((d.take maxPayload).length : Int) - mpiHeader ≠ finalSend size N) := by
    rcases h with h | h <;> omega
  simp only [recvFragment]
  rw [finalSend] at hsize
  rw [if_neg h4, if_neg hsize, ← decode_padded hle, padded]

-- The number and the length in the header of a datagram have their places in the table and in the datagram.
structure Fits (N es : Nat) (d : Bytes) : Prop where
  seq : (Header.decode d).seq.toNat < N
  pos : 0 ≤ (Header.decode d).len.toInt
  len : es * (Header.decode d).len.toInt ≤ payloadSize

def lenOf (d : Bytes) : Nat :=
  (Header.decode d).len.toInt.toNat

-- The elements that the loop takes from a datagram.
def elementsOf (es : Nat) (d : Bytes) : Bytes :=
  genericNtoh es (lenOf d) ((padded d).drop mpiHeader)

-- The variables of the loop after a datagram.
def Fragments.add (l : Fragments) (es : Nat) (d : Bytes) : Fragments where
  table := Function.update l.table (Header.decode d).seq.toNat (some (elementsOf es d))
  total := (l.total + lenOf d) % 2 ^ 64
  root  := (Header.decode d).root

theorem Fragments.add_table (l : Fragments) (es : Nat) (d : Bytes) :
    (l.add es d).table = Function.update l.table (Header.decode d).seq.toNat (some (elementsOf es d)) := rfl

theorem Fits.lenOf_le (h : Fits N es d) : es * lenOf d ≤ payloadSize := by
  have hl := h.len
  rw [← Int.toNat_of_nonneg h.pos] at hl
  exact_mod_cast hl

theorem recvFragment_fits (hs : datatype.sizeof? = some es) (h : Expected size N d) (hd : Fits N es d) :
    recvFragment size N es datatype l (some (d.take maxPayload)) =
      if size ≤ (l.add es d).total then .inr (.all (l.add es d)) else .inl (l.add es d) := by
  have hes := (MPIDatatype.sizeof?_elementSize hs).pos
  have hlen : (Header.decode d).len.toInt = (lenOf d : Nat) := (Int.toNat_of_nonneg hd.pos).symm
  have hle := hd.lenOf_le
  have hle' : lenOf d ≤ es * lenOf d := Nat.le_mul_of_pos_left _ hes
  simp only [payloadSize, maxPayload, mpiHeader] at hle
  have hu : u64 ((lenOf d : Nat) : Int) = lenOf d := u64_natCast (by omega)
  have harr : datatypeSizeInBytes (lenOf d : Nat) datatype = (es * lenOf d : Nat) :=
    datatypeSizeInBytes_eq es hs (by omega)
  rw [recvFragment_expected h]
  simp only [hlen, hu, harr]
  rw [if_neg (Nat.not_le_of_lt hd.seq), if_neg (by omega),
    if_neg (by simp only [payloadSize, maxPayload, mpiHeader]; omega)]
  rfl

theorem elementsOf_length (hs : datatype.sizeof? = some es) (h : Fits N es d) :
    (elementsOf es d).length = es * lenOf d := by
  have hle := h.lenOf_le
  rw [payloadSize] at hle
  exact genericHton_length (MPIDatatype.sizeof?_elementSize hs) (by rw [List.length_drop, padded_length]; exact hle)

-- The variables of the loop after these datagrams.
def addAll (es : Nat) (l : Fragments) (ds : List Bytes) : Fragments :=
  ds.foldl (fun l d => l.add es d) l

theorem addAll_concat (l : Fragments) (ds : List Bytes) (d : Bytes) :
    addAll es l (ds ++ [d]) = (addAll es l ds).add es d := by
  rw [addAll, List.foldl_append, addAll]
  rfl

theorem addAll_total {ds : List Bytes} (h : l.total + (ds.map lenOf).sum < 2 ^ 64) :
    (addAll es l ds).total = l.total + (ds.map lenOf).sum := by
  induction ds generalizing l
  case nil => rfl
  case cons d ds hi =>
    rw [List.map_cons, List.sum_cons] at h ⊢
    have hl : (l.add es d).total = l.total + lenOf d := Nat.mod_eq_of_lt (by omega)
    have hs := hi (l := l.add es d) (by omega)
    rw [hl] at hs
    rw [addAll, List.foldl_cons, ← Nat.add_assoc]
    exact hs

-- The loop has enough with some of these datagrams, or gives up at one of another length, or goes on after them.
theorem loop_cases (hs : datatype.sizeof? = some es) {ds : List Bytes} (hds : ∀ d ∈ ds, Fits N es d)
    (rest : List (Option Bytes)) :
    (∃ i, 0 < i ∧ i ≤ ds.length ∧ (∀ d ∈ ds.take i, Expected size N d) ∧ size ≤ (addAll es l (ds.take i)).total ∧
      Prog.loop maxPayload (recvFragment size N es datatype) l (ds.map some ++ rest) =
        (.inr (.all (addAll es l (ds.take i))), (ds.drop i).map some ++ rest)) ∨
    (∃ i d, ds[i]? = some d ∧ ¬Expected size N d ∧ (i = 0 ∨ (addAll es l (ds.take i)).total < size) ∧
      Prog.loop maxPayload (recvFragment size N es datatype) l (ds.map some ++ rest) =
        (.inr .lost, (ds.drop (i + 1)).map some ++ rest)) ∨
    (∀ d ∈ ds, Expected size N d) ∧ (ds = [] ∨ (addAll es l ds).total < size) ∧
      Prog.loop maxPayload (recvFragment size N es datatype) l (ds.map some ++ rest) =
        Prog.loop maxPayload (recvFragment size N es datatype) (addAll es l ds) rest := by
  induction ds generalizing l
  case nil => exact .inr (.inr ⟨by simp, .inl rfl, rfl⟩)
  case cons d ds hi =>
    have ⟨hf, hds⟩ := List.forall_mem_cons.mp hds
    rw [List.map_cons, List.cons_append, Prog.loop, Option.map_some]
    by_cases he : Expected size N d
    case neg =>
      rw [recvFragment_unexpected he]
      exact .inr (.inl ⟨0, d, rfl, he, .inl rfl, rfl⟩)
    case pos =>
      rw [recvFragment_fits hs he hf]
      by_cases ht : size ≤ (l.add es d).total
      case pos =>
        rw [if_pos ht]
        exact .inl ⟨1, Nat.one_pos, by simp, by simpa using he, ht, rfl⟩
      case neg =>
        rw [if_neg ht]
        rcases hi (l := l.add es d) hds with
          ⟨i, _, hle, hexp, hsize, hl⟩ | ⟨i, d', hd', hexp, hlt, hl⟩ | ⟨hexp, hlt, hl⟩
        · exact .inl ⟨i + 1, Nat.succ_pos i, Nat.succ_le_succ hle, List.forall_mem_cons.mpr ⟨he, hexp⟩, hsize, hl⟩
        · refine .inr (.inl ⟨i + 1, d', hd', hexp, .inr ?_, hl⟩)
          rcases hlt with rfl | hlt
          · exact Nat.not_le.mp ht
          · exact hlt
        · refine .inr (.inr ⟨List.forall_mem_cons.mpr ⟨he, hexp⟩, .inr ?_, hl⟩)
          rcases hlt with rfl | hlt
          · exact Nat.not_le.mp ht
          · exact hlt

theorem loop_addAll (hs : datatype.sizeof? = some es) {ds : List Bytes}
    (hds : ∀ d ∈ ds, Expected size N d ∧ Fits N es d) (rest : List (Option Bytes)) :
    (∃ i, 0 < i ∧ i ≤ ds.length ∧ size ≤ (addAll es l (ds.take i)).total ∧
      Prog.loop maxPayload (recvFragment size N es datatype) l (ds.map some ++ rest) =
        (.inr (.all (addAll es l (ds.take i))), (ds.drop i).map some ++ rest)) ∨
    (ds = [] ∨ (addAll es l ds).total < size) ∧
      Prog.loop maxPayload (recvFragment size N es datatype) l (ds.map some ++ rest) =
        Prog.loop maxPayload (recvFragment size N es datatype) (addAll es l ds) rest := by
  rcases loop_cases hs (fun d hm => (hds d hm).right) rest with ⟨i, hi, hle, _, h⟩ | ⟨i, d, hd, he, _⟩ | ⟨_, h⟩
  · exact .inl ⟨i, hi, hle, h⟩
  · exact absurd (hds d (List.mem_of_getElem? hd)).left he
  · exact .inr h

end Fragment
end Mpi

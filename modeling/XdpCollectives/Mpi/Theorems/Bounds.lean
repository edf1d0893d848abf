import XdpCollectives.Mpi.Theorems.Assembly
import XdpCollectives.Mpi.Theorems.Eager

-- Where the receives write when all fragments come.
namespace Mpi

open Memory Wire Process

variable {p : ProcessInfo} {count es : Nat} {datatype : MPIDatatype} {ds : List Bytes} {buf b : Mem}
  {source tag : Int}

-- The fragments of a message in their order. There is room for its elements in each of them, each holds as many as it
-- says, and together they hold them all.
structure Delivery (datatype : MPIDatatype) (count : Nat) (ds : List Bytes) : Prop where
  number : ds.length = fragments (datatypeSizeInBytes count datatype).toNat
  seq    : ∀ i d, ds[i]? = some d → (Header.decode d).seq.toNat = i
  pos    : ∀ d ∈ ds, 0 ≤ (Header.decode d).len.toInt
  room   : ∀ d ∈ ds, datatype.sizeof?.getD 0 * lenOf d ≤ payloadSize
  data   : ∀ d ∈ ds, mpiHeader + datatype.sizeof?.getD 0 * lenOf d ≤ d.length
  total  : (ds.map lenOf).sum = count

theorem mul_sum_le {f : Bytes → Nat} (h : ∀ d ∈ ds, es * f d ≤ k) : es * (ds.map f).sum ≤ ds.length * k := by
  induction ds
  case nil => simp
  case cons d ds hi =>
    have ⟨hd, hds⟩ := List.forall_mem_cons.mp h
    rw [List.map_cons, List.sum_cons, Nat.mul_add, List.length_cons, Nat.succ_mul, Nat.add_comm]
    exact Nat.add_le_add (hi hds) hd

-- A size that has wrapped around is much smaller than it was.
theorem i32_wrapped {n : Nat} (h : 2 ^ 31 ≤ n) : i32 n + 2 ^ 32 ≤ n := by
  have hlt : i32 n < 2 ^ 31 := Int.bmod_lt (by decide)
  have hdvd : ((2 ^ 32 : Nat) : Int) ∣ i32 n - n := Int.dvd_bmod_sub_self
  omega

namespace Delivery

variable (hd : Delivery datatype count ds) (h0 : 0 < count)
include hd h0

-- The size of a message that is delivered is an `int`.
theorem size : ∃ es, datatype.sizeof? = some es ∧ es * count < 2 ^ 31 := by
  have hne : ds ≠ [] := by
    rintro rfl
    have := hd.total
    simp at this
    omega
  have hlen : 0 < ds.length := List.length_pos_iff.mpr hne
  have hpos : 0 < (datatypeSizeInBytes count datatype).toNat := by
    have hn := hd.number
    by_contra h
    have hz : (datatypeSizeInBytes count datatype).toNat = 0 := by omega
    rw [hz] at hn
    simp [fragments, payloadSize, maxPayload, mpiHeader] at hn
    exact hne hn
  cases hs : datatype.sizeof? with
  | none => simp [datatypeSizeInBytes, hs] at hpos
  | some es =>
    refine ⟨es, rfl, ?_⟩
    -- The datagrams have no room for more elements.
    have hsum : es * count ≤ ds.length * payloadSize := by
      have hroom := hd.room
      rw [hs, Option.getD_some] at hroom
      rw [← hd.total]
      exact mul_sum_le hroom
    obtain ⟨_, hlt, _⟩ := fragments_spec hpos
    rw [← hd.number] at hlt
    have hn : ds.length * payloadSize = (ds.length - 1) * payloadSize + payloadSize := by
      rw [← Nat.succ_mul]
      congr 1
      omega
    have hb : datatypeSizeInBytes count datatype = i32 (es * count : Nat) := by
      rw [datatypeSizeInBytes, hs]
      simp only
      rw [← Nat.cast_mul, Nat.mul_comm]
    by_contra hc
    have hw := i32_wrapped (Nat.not_lt.mp hc)
    rw [hb] at hlt hpos
    simp only [payloadSize, maxPayload, mpiHeader] at hlt hsum hn
    omega

variable (hs : datatype.sizeof? = some es)
include hs

theorem size_eq : es * count < 2 ^ 31 ∧ datatypeSizeInBytes count datatype = (es * count : Nat) ∧
    ds.length = fragments (es * count) := by
  have ⟨es', hs', hlt⟩ := hd.size h0
  obtain rfl := Option.some.inj (hs.symm.trans hs')
  have he := datatypeSizeInBytes_eq es hs hlt
  exact ⟨hlt, he, by rw [hd.number, he, Int.toNat_natCast]⟩

theorem total_size (ht : 0 ≤ i32 (mpiHeader + (es * count : Nat))) :
    i32 (mpiHeader + (es * count : Nat)) = mpiHeader + (es * count : Nat) := by
  have hpos : 0 < es * count := Nat.mul_pos (MPIDatatype.sizeof?_elementSize hs).pos h0
  have ⟨_, hsize, _⟩ := hd.size_eq h0 hs
  rw [← hsize] at ht ⊢
  exact total_eq (by omega) ht

theorem fits : ∀ d ∈ ds, Fits (fragments (es * count)) es d := by
  intro d hm
  have ⟨_, _, hn⟩ := hd.size_eq h0 hs
  have hroom := hd.room d hm
  rw [hs, Option.getD_some] at hroom
  refine ⟨?_, hd.pos d hm, ?_⟩
  · have ⟨i, hi⟩ := List.mem_iff_getElem?.mp hm
    rw [hd.seq i d hi, ← hn]
    exact (List.getElem?_eq_some_iff.mp hi).choose
  · rw [← Int.toNat_of_nonneg (hd.pos d hm)]
    exact_mod_cast hroom

end Delivery

section Table

variable {N : Nat}

-- The table of fragments that have come in their order.
theorem addAll_table (hseq : ∀ i d, ds[i]? = some d → (Header.decode d).seq.toNat = i) (j : Nat) :
    (addAll es ⟨fun _ => none, 0, 0⟩ ds).table j = (ds[j]?).map (elementsOf es) := by
  induction ds using List.reverseRecOn
  case nil => rfl
  case append_singleton ds d hi =>
    have hd : (Header.decode d).seq.toNat = ds.length := hseq _ _ (by simp)
    have hds := hi fun i d' hm => by
      have hlt := (List.getElem?_eq_some_iff.mp hm).choose
      exact hseq i d' (by rw [List.getElem?_append_left hlt, hm])
    rw [addAll_concat, Fragments.add_table, hd]
    by_cases hj : j = ds.length
    case pos => simp [hj]
    case neg =>
      rw [Function.update_of_ne hj]
      refine hds.trans ?_
      rcases Nat.lt_or_ge j ds.length with hlt | hge
      · rw [List.getElem?_append_left hlt]
      · rw [List.getElem?_eq_none hge, List.getElem?_eq_none (by simp; omega)]

theorem lensTo_addAll (hs : datatype.sizeof? = some es) (hf : ∀ d ∈ ds, Fits N es d)
    (hseq : ∀ i d, ds[i]? = some d → (Header.decode d).seq.toNat = i) (k : Nat) :
    lensTo es (addAll es ⟨fun _ => none, 0, 0⟩ ds).table k = ((ds.take k).map lenOf).sum := by
  have hes := (MPIDatatype.sizeof?_elementSize hs).pos
  induction k
  case zero => rfl
  case succ k hi =>
    rw [lensTo_succ, hi, List.take_add_one, List.map_append, List.sum_append, lenAt, addAll_table hseq]
    cases hk : ds[k]? with
    | none   => rfl
    | some d =>
      have hl := elementsOf_length hs (hf d (List.mem_of_getElem? hk))
      simp [hl, Nat.mul_div_cancel_left _ hes]

end Table

-- Whatever a receive stores when it gets these datagrams, and then none, is inside the buffer, and a terminator is in
-- its last element.
def StaysInside (datatype : MPIDatatype) (count : Nat) (ds : List Bytes)
    (recv : Mem → Program (Int × Mem × ProcessInfo)) : Prop :=
  ∀ buf t y k, Does (recv buf) t y → results t <+: ds.map some ++ List.replicate k none →
    (∀ b, .note (.stored b) ∈ t → Inside (datatype.sizeof?.getD 0) count buf b ∧
      (datatype.isChar → Terminated (datatype.sizeof?.getD 0) count b)) ∧
    ∀ x, y = .ret x → Inside (datatype.sizeof?.getD 0) count buf x.2.1

def Good (es count : Nat) (datatype : MPIDatatype) (buf : Mem) (e : Event Note) : Prop :=
  ∀ b, e = .note (.stored b) → Inside es count buf b ∧ (datatype.isChar → Terminated es count b)

theorem StaysInside.of_keeps (hs : datatype.sizeof? = some es) {recv : Mem → Program (Int × Mem × ProcessInfo)}
    (h : ∀ buf k, ¬((recv buf).feed (ds.map some ++ List.replicate k none)).1.Waits →
      Keeps (Good es count datatype buf) ((recv buf).feed (ds.map some ++ List.replicate k none)).1
        fun x => Inside es count buf x.2.1) : StaysInside datatype count ds recv := by
  intro buf t y k hd hr
  have hφ (r : Option Bytes) : Good es count datatype buf (.ofResult r) := by
    cases r <;> exact nofun
  have ⟨ht, hq⟩ := Keeps.fed hφ (h buf k) hd hr
  rw [hs, Option.getD_some]
  exact ⟨fun b hb => ht _ hb b rfl, hq⟩

theorem good_note (h : Inside es count buf b) (ht : datatype.isChar → Terminated es count b) :
    Good es count datatype buf (.note (.stored b)) := by
  rintro _ ⟨⟩
  exact ⟨h, ht⟩

-- Without a terminator, the fallback stays inside.
theorem recvLost_inside (hs : datatype.sizeof? = some es) (hc : ¬datatype.isChar) (hlt : count < 2 ^ 31)
    (p : ProcessInfo) (buf : Mem) (source tag : Int) :
    Keeps (Good es count datatype buf) (recvLost p buf count datatype source tag)
      fun x => Inside es count buf x.2.1 := by
  have htcp : Keeps (Good es count datatype buf) (_mpiRecvTcp p buf count datatype source)
      fun x => Inside es count buf x.2 := by
    have hu : u64 (count : Int) = count := u64_natCast (by omega)
    refine .ite (fun _ => .ret fun _ _ => rfl) fun _ => .ite (fun _ => .ret fun _ _ => rfl) fun _ => ?_
    refine (_mpiRecvTcpLoop_keeps p (by rintro _ _ _ ⟨⟩) source _ _).bind fun m _ => ?_
    refine .ite (fun _ => .fault) fun _ => .ret ?_
    rw [terminate, if_neg hc, hu, hs, Option.getD_some]
    exact inside_write (MPIDatatype.sizeof?_elementSize hs) count _ buf
  refine (_mpiSendTcpLostPacket_keeps p (by rintro _ _ _ ⟨⟩) _ _ _ _ _).bind fun _ _ => ?_
  exact htcp.bind fun x hx => .note (good_note hx fun h => absurd h hc) <|
    (countReceived_keeps p source).bind fun _ _ => .ret hx

-- The datagrams that are needed have one of the lengths that the loop over the fragments expects.
def Accepted (count : Nat) (ds : List Bytes) : Prop :=
  ∀ i d, ds[i]? = some d → ((ds.take i).map lenOf).sum < count → Expected count (fragments count) d

theorem sum_take_mono {i j : Nat} (h : i ≤ j) : ((ds.take i).map lenOf).sum ≤ ((ds.take j).map lenOf).sum := by
  rw [← Nat.add_sub_of_le h, List.take_add, List.map_append, List.sum_append]
  exact Nat.le_add_right ..

section Several

variable (hd : Delivery datatype count ds) (h0 : 0 < count) (hs : datatype.sizeof? = some es)
include hd

theorem sum_take_le (i : Nat) : ((ds.take i).map lenOf).sum ≤ count := by
  rw [← hd.total, ← List.take_append_drop i ds, List.map_append, List.sum_append, List.take_append_drop]
  exact Nat.le_add_right ..

theorem seq_take (i j : Nat) (d : Bytes) (hj : (ds.take i)[j]? = some d) : (Header.decode d).seq.toNat = j := by
  rw [List.getElem?_take] at hj
  split at hj
  case isTrue  => exact hd.seq j d hj
  case isFalse => contradiction

include h0 hs

theorem total_take (i : Nat) : (addAll es ⟨fun _ => none, 0, 0⟩ (ds.take i)).total = ((ds.take i).map lenOf).sum := by
  have ⟨hlt, _, _⟩ := hd.size_eq h0 hs
  have hle : count ≤ es * count := Nat.le_mul_of_pos_left _ (MPIDatatype.sizeof?_elementSize hs).pos
  have hsum := sum_take_le hd i
  rw [addAll_total (by simp only; omega)]
  exact Nat.zero_add _

-- What the loop ends with. Where an element takes more than a byte, it waits for more than there is.
theorem Delivery.loop (k : Nat) :
    match Prog.loop maxPayload (recvFragment (es * count) (fragments (es * count)) es datatype) ⟨fun _ => none, 0, 0⟩
      (ds.map some ++ List.replicate k none) with
    | (.inl _, _)         => k = 0 ∧ es ≠ 1
    | (.inr .lost, _)     => es ≠ 1 ∨ ¬Accepted count ds
    | (.inr (.all l), _)  => es = 1 ∧ Accepted count ds ∧ ∃ i < ds.length,
        l = addAll es ⟨fun _ => none, 0, 0⟩ (ds.take (i + 1)) ∧ count ≤ ((ds.take (i + 1)).map lenOf).sum
    | _                   => False := by
  have hes := (MPIDatatype.sizeof?_elementSize hs).pos
  have htotal := total_take hd h0 hs
  have hone (i : Nat) (h : es * count ≤ ((ds.take i).map lenOf).sum) : es = 1 := by
    by_contra hne
    have hle := sum_take_le hd i
    have hmul : 2 * count ≤ es * count := Nat.mul_le_mul_right count (by omega)
    omega
  rcases loop_cases (l := ⟨fun _ => none, 0, 0⟩) hs (hd.fits h0 hs) (List.replicate k none) with
    ⟨i, hi, hin, hexp, hsize, he⟩ | ⟨i, d, hi, hexp, hlt, he⟩ | ⟨_, hsize, he⟩
  · obtain ⟨i, rfl⟩ : ∃ j, i = j + 1 := ⟨i - 1, by omega⟩
    rw [htotal] at hsize
    obtain rfl := hone _ hsize
    rw [Nat.one_mul] at hsize
    rw [he]
    refine ⟨rfl, fun j d hj hlt => ?_, i, hin, rfl, hsize⟩
    -- The datagrams after the last one that was needed have nothing to come before.
    have hji : j < i + 1 := by
      by_contra hge
      have hmono : ((ds.take (i + 1)).map lenOf).sum ≤ ((ds.take j).map lenOf).sum := sum_take_mono (Nat.not_lt.mp hge)
      omega
    rw [← Nat.one_mul count]
    exact hexp d (List.mem_of_getElem? (by rwa [List.getElem?_take_of_lt hji]))
  · rw [he]
    by_cases h1 : es = 1
    case neg => exact .inl h1
    case pos =>
      subst h1
      rw [Nat.one_mul] at hexp hlt
      refine .inr fun hacc => hexp (hacc i d hi ?_)
      rcases hlt with rfl | hlt
      · exact h0
      · rwa [htotal] at hlt
  · have hne : es ≠ 1 := by
      rintro rfl
      rcases hsize with rfl | hsize
      · have := hd.total
        simp at this
        omega
      · have hall := htotal ds.length
        rw [List.take_length, hd.total] at hall
        omega
    rw [he]
    cases k
    case zero   => exact ⟨rfl, hne⟩
    case succ k => exact .inl hne

theorem lensTo_take (i k : Nat) :
    lensTo es (addAll es ⟨fun _ => none, 0, 0⟩ (ds.take i)).table k = ((ds.take (min k i)).map lenOf).sum := by
  have hfits : ∀ d ∈ ds.take i, _ := fun d hm => hd.fits h0 hs d (List.mem_of_mem_take hm)
  rw [lensTo_addAll hs hfits (seq_take hd i), List.take_take]

theorem assembled_inside (hc : datatype = .char ∨ ¬datatype.isChar) (buf : Mem) (hi : 0 < i) :
    let b := assemble buf count (fragments (es * count)) es datatype
      (addAll es ⟨fun _ => none, 0, 0⟩ (ds.take i)).table
    Inside es count buf b ∧ (datatype.isChar → Terminated es count b) := by
  have hes := MPIDatatype.sizeof?_elementSize hs
  have ⟨h1, _, _⟩ := fragments_spec (Nat.mul_pos hes.pos h0)
  have ⟨_, _, hn⟩ := hd.size_eq h0 hs
  rw [assemble_eq]
  constructor
  · refine placed_inside hes hc h0 ?_
    rw [lensTo_take hd h0 hs]
    exact sum_take_le hd _
  · intro hchar
    obtain rfl := hc.resolve_right (not_not.mpr hchar)
    refine placed_terminated ?_ h1
    rw [addAll_table (seq_take hd i)]
    simp [hi, hn, h1]

theorem Delivery.total_lt (ht : (maxPayload : Int) < i32 (mpiHeader + datatypeSizeInBytes count datatype)) :
    maxPayload < mpiHeader + es * count ∧ mpiHeader + es * count < 2 ^ 31 := by
  have ⟨_, hsize, _⟩ := hd.size_eq h0 hs
  rw [hsize] at ht
  have he := hd.total_size h0 hs (le_of_lt (lt_of_le_of_lt (Int.natCast_nonneg _) ht))
  have hlt : i32 (mpiHeader + (es * count : Nat)) < 2 ^ 31 := Int.bmod_lt (by decide)
  omega

variable (p source) (hc : ¬datatype.isChar ∨ datatype = .char ∧ Accepted count ds)
include hc

-- A receive that stores the fragments once they have all come, and whose fallback stays inside too.
theorem several_inside {recv : Mem → Program (Int × Mem × ProcessInfo)}
    (g : Mem → Received → Program (Int × Mem × ProcessInfo))
    (heq : ∀ buf, recv buf = recvFragments (es * count) (fragments (es * count)) es datatype >>= g buf)
    (hlost : ¬datatype.isChar → ∀ buf, ¬(g buf .lost).Waits ∧
      Keeps (Good es count datatype buf) (g buf .lost) fun x => Inside es count buf x.2.1)
    (hall : ∀ buf l, ∃ x, g buf (.all l) =
        .note (.stored (assemble buf count (fragments (es * count)) es datatype l.table)) x ∧
      (Inside es count buf (assemble buf count (fragments (es * count)) es datatype l.table) →
        Keeps (Good es count datatype buf) x fun y => Inside es count buf y.2.1)) :
    StaysInside datatype count ds recv := by
  refine .of_keeps hs fun buf k hw => ?_
  have hloop := hd.loop h0 hs k
  rw [heq, recvFragments, Prog.feed_loop_bind] at hw ⊢
  generalize Prog.loop maxPayload _ _ _ = o at hloop hw ⊢
  obtain ⟨o, rest⟩ := o
  cases o with
  | inl l => exact absurd trivial hw
  | inr o =>
    cases o with
    | fault => exact hloop.elim
    | exit  => exact hloop.elim
    | lost  =>
      have hchar : ¬datatype.isChar := by
        refine hc.resolve_right fun h => ?_
        obtain ⟨hchar, hacc⟩ := h
        rw [hchar] at hs
        exact hloop.elim (fun h => h (Option.some.inj hs).symm) fun h => h hacc
      obtain ⟨hnot, hin⟩ := hlost hchar buf
      dsimp only
      rw [Prog.feed_of_not_waits hnot]
      exact hin
    | all l =>
      obtain ⟨_, _, i, _, he, _⟩ := hloop
      obtain ⟨hin, hterm⟩ := assembled_inside hd h0 hs (hc.symm.imp_left And.left) buf (Nat.succ_pos i)
      rw [← he] at hin hterm
      obtain ⟨x, hx, hrest⟩ := hall buf l
      dsimp only
      rw [hx, Prog.feed_note]
      exact .note (good_note hin hterm) (hrest hin)

variable (ht : (maxPayload : Int) < i32 (mpiHeader + datatypeSizeInBytes count datatype))
include ht

theorem mpiRecvNoAck_several :
    StaysInside datatype count ds fun buf => mpiRecvNoAck p buf count datatype source := by
  have ⟨hl, hlt⟩ := hd.total_lt h0 hs ht
  refine several_inside hd h0 hs hc _ (fun buf => mpiRecvNoAck_multiple hs hl hlt) ?_ ?_
  · exact fun _ buf => ⟨id, .ret fun _ _ => rfl⟩
  · exact fun buf l => ⟨_, if_neg (terminates h0), fun hin => (countReceived_keeps p source).bind fun _ _ => .ret hin⟩

theorem mpiRecv_several (tag : Int) :
    StaysInside datatype count ds fun buf => mpiRecv p buf count datatype source tag := by
  have ⟨hl, hlt⟩ := hd.total_lt h0 hs ht
  have hle : count ≤ es * count := Nat.le_mul_of_pos_left _ (MPIDatatype.sizeof?_elementSize hs).pos
  refine several_inside hd h0 hs hc _ (fun buf => mpiRecv_multiple hs hl hlt) ?_ ?_
  · exact fun hchar buf => ⟨recvLost_not_waits, recvLost_inside hs hchar (by omega) p buf source tag⟩
  · exact fun buf l => ⟨_, if_neg (terminates h0), fun hin => (countReceived_keeps p source).bind fun q _ =>
      (_mpiSendTcpLostPacket_keeps q (fun _ _ => nofun) _ _ _ _ _).bind fun _ _ => .ret hin⟩

end Several

section Small

variable (p source) (hd : Delivery datatype count ds) (h0 : 0 < count) (hs : datatype.sizeof? = some es)
include hd h0 hs

-- The datagram of a message that takes only one.
theorem Delivery.single (hl : mpiHeader + es * count ≤ maxPayload) :
    ∃ d, ds = [d] ∧ mpiHeader + es * count ≤ d.length := by
  obtain ⟨_, hsize, hn⟩ := hd.size_eq h0 hs
  have hpos : 0 < es * count := Nat.mul_pos (MPIDatatype.sizeof?_elementSize hs).pos h0
  have h1 : ds.length = 1 := by
    rw [hn, fragments]
    simp only [payloadSize, maxPayload, mpiHeader] at hl ⊢
    omega
  obtain ⟨d, hds⟩ := List.length_eq_one_iff.mp h1
  subst hds
  have hdata := hd.data d List.mem_cons_self
  have htotal : lenOf d = count := by simpa using hd.total
  rw [hs, Option.getD_some, htotal] at hdata
  exact ⟨d, rfl, hdata⟩

theorem storeMessage_single (buf : Mem) {d : Bytes} (hlen : d.length = mpiHeader + es * count) :
    ∃ b, storeMessage buf count (es * count : Nat) datatype (some d) = .all b ∧ Inside es count buf b ∧
      (datatype.isChar → Terminated es count b) := by
  have hes := MPIDatatype.sizeof?_elementSize hs
  have ⟨hlt, _, _⟩ := hd.size_eq h0 hs
  have hle : count ≤ es * count := Nat.le_mul_of_pos_left _ hes.pos
  have hu : u64 (count : Int) = count := u64_natCast (by omega)
  refine ⟨terminate datatype es (count - 1) (buf.write 0 (genericNtoh es count (d.drop mpiHeader))), ?_, ?_,
    fun hchar => terminated_terminate hchar⟩
  · simp only [storeMessage, hs, Option.getD_some, hu, Int.toNat_natCast]
    rw [if_neg (by rw [hlen]; omega), if_neg (Nat.lt_irrefl _)]
  · exact (inside_write hes count (d.drop mpiHeader) buf).terminate datatype (by omega)

variable (ht : i32 (mpiHeader + datatypeSizeInBytes count datatype) ≤ maxPayload)
include ht

-- Both receives do the same with one datagram.
theorem receives_small (tag : Int) :
    StaysInside datatype count ds (fun buf => mpiRecv p buf count datatype source tag) ∧
      StaysInside datatype count ds fun buf => mpiRecvNoAck p buf count datatype source := by
  obtain ⟨hlt, hsize, _⟩ := hd.size_eq h0 hs
  have hpos : 0 < es * count := Nat.mul_pos (MPIDatatype.sizeof?_elementSize hs).pos h0
  rw [hsize] at ht
  refine ⟨.of_keeps hs fun buf k _ => ?_, .of_keeps hs fun buf k _ => ?_⟩
  all_goals
    simp only [mpiRecv, mpiRecvNoAck, hsize]
    rw [if_neg (by omega), if_neg (by omega)]
    by_cases hn : i32 (mpiHeader + (es * count : Nat)) < 0
    case pos =>
      rw [if_pos hn, Prog.pure_eq_ret, Prog.feed_ret]
      exact .ret fun _ _ => rfl
    case neg =>
      have he := hd.total_size h0 hs (Int.not_lt.mp hn)
      obtain ⟨d, hds, hlen⟩ := hd.single h0 hs (by omega)
      -- What is longer than the message is cut off.
      have hcut : (d.take (mpiHeader + (es * count : Nat) : Int).toNat).length = mpiHeader + es * count := by
        rw [List.length_take]
        omega
      obtain ⟨b, hb, hin, hterm⟩ := storeMessage_single hd h0 hs buf hcut
      subst hds
      rw [if_neg hn, Prog.recvDatagram, Prog.feed_loop_bind, he]
      simp only [List.map_cons, List.cons_append, Prog.loop, Option.map_some, hb]
      rw [takeNote_bind, Prog.feed_note]
      exact .note (good_note hin hterm) ((countReceived_keeps p source).bind fun _ _ => .ret hin)

end Small

-- What is stored after these results have been given is stored in a run with them.
theorem StaysInside.stored {recv : Mem → Program (Int × Mem × ProcessInfo)} (h : StaysInside datatype count ds recv)
    {t : List (Event Note)} {y : Program (Int × Mem × ProcessInfo)} (k : Nat)
    (hd : Does ((recv buf).feed (ds.map some ++ List.replicate k none)).1 t y) (ht : results t = [])
    (hb : .note (.stored b) ∈ t) : Inside (datatype.sizeof?.getD 0) count buf b := by
  have ⟨us, hrs, hfeed⟩ := does_feed (recv buf) (ds.map some ++ List.replicate k none)
  refine ((h buf _ y k (hfeed.trans hd) ?_).left b (List.mem_append_right _ hb)).left
  rw [results_append, results_map, ht, List.append_nil]
  exact ⟨_, hrs.symm⟩

section Stray

variable (hd : Delivery datatype count ds) (h0 : 0 < count)
  (ht : (maxPayload : Int) < i32 (mpiHeader + datatypeSizeInBytes count datatype))
include hd h0 ht

-- The terminator of the last fragment counts from where that begins.
theorem stray_assembled (hs : datatype.sizeof? = some 1) (hc : datatype ≠ .char) (hchar : datatype.isChar)
    (hi : i < ds.length) (hsum : count ≤ ((ds.take (i + 1)).map lenOf).sum) (buf : Mem) :
    ∃ j, count ≤ j ∧ assemble buf count (fragments (1 * count)) 1 datatype
      (addAll 1 ⟨fun _ => none, 0, 0⟩ (ds.take (i + 1))).table j = 0 := by
  have ⟨hl, _⟩ := hd.total_lt h0 hs ht
  have ⟨_, _, hn⟩ := hd.size_eq h0 hs
  have htable (j : Nat) : (addAll 1 ⟨fun _ => none, 0, 0⟩ (ds.take (i + 1))).table j = _ :=
    addAll_table (seq_take hd (i + 1)) j
  have hat : (addAll 1 ⟨fun _ => none, 0, 0⟩ (ds.take (i + 1))).table i = some (elementsOf 1 ds[i]) := by
    rw [htable]
    simp [hi]
  have hnone : ∀ j, i + 1 ≤ j → (addAll 1 ⟨fun _ => none, 0, 0⟩ (ds.take (i + 1))).table j = none := by
    intro j hj
    rw [htable, List.getElem?_eq_none (by simp; omega)]
    rfl
  have hoffset := lensTo_take hd h0 hs (i + 1) i
  rw [Nat.min_eq_left (Nat.le_succ i)] at hoffset
  have hlen : lenOf ds[i] ≤ payloadSize := by
    have hle := (hd.fits h0 hs ds[i] (List.getElem_mem hi)).lenOf_le
    rwa [Nat.one_mul] at hle
  have hlt : payloadSize < count := by
    have hp : maxPayload = mpiHeader + payloadSize := rfl
    omega
  have hadd : ((ds.take (i + 1)).map lenOf).sum = ((ds.take i).map lenOf).sum + lenOf ds[i] := by
    rw [List.take_succ_eq_append_getElem hi, List.map_append, List.sum_append]
    simp
  have hzero (m : Mem) (j : Nat) : m.write j (List.replicate 1 0) (j + 0) = 0 := Mem.write_inside Nat.one_pos
  refine ⟨((ds.take i).map lenOf).sum + (count - 1), by omega, ?_⟩
  rw [assemble_eq, ← hn, placed_of_none hnone hi, placed_succ, putElements, hat]
  dsimp only
  rw [if_neg hc, placed_offset, hoffset, Int.toNat_natCast, terminate, if_pos hchar]
  simp only [Nat.one_mul]
  exact hzero _ _

theorem stray_terminator (hs : datatype.sizeof? = some 1) (hc : datatype ≠ .char) (hchar : datatype.isChar)
    (hi : i < ds.length) (hsum : count ≤ ((ds.take (i + 1)).map lenOf).sum)
    {recv : Mem → Program (Int × Mem × ProcessInfo)} (k : Nat)
    (hfeed : ∃ x rest, (recv fun _ => 1).feed (ds.map some ++ List.replicate k none) =
      (.note (.stored (assemble (fun _ => 1) count (fragments (1 * count)) 1 datatype
        (addAll 1 ⟨fun _ => none, 0, 0⟩ (ds.take (i + 1))).table)) x, rest)) :
    ¬StaysInside datatype count ds recv := by
  intro h
  obtain ⟨x, rest, hfeed⟩ := hfeed
  obtain ⟨j, hj, hzero⟩ := stray_assembled hd h0 ht hs hc hchar hi hsum fun _ => 1
  have hrun : Does ((recv fun _ => 1).feed (ds.map some ++ List.replicate k none)).1
      [.note (.stored (assemble (fun _ => 1) count (fragments (1 * count)) 1 datatype
        (addAll 1 ⟨fun _ => none, 0, 0⟩ (ds.take (i + 1))).table))] x := by
    rw [hfeed]
    exact .step .note .refl
  have hin := h.stored k hrun rfl List.mem_cons_self
  rw [hs, Option.getD_some] at hin
  exact absurd (hzero.symm.trans (hin j (by omega))) (by decide : (0 : Byte) ≠ 1)

omit hd ht in
-- The fallback can get any message of the right length.
theorem exists_recvLost (hs : datatype.sizeof? = some es) (hl : mpiHeader + es * count < 2 ^ 31) (buf : Mem) (tag : Int)
    {data : Bytes} (hdata : data.length = es * count) :
    ∃ u y, Does (recvLost (.init 2 0 fun _ => 0) buf count datatype 1 tag) u y ∧ results u = [] ∧
      .note (.stored (restored es count datatype data buf)) ∈ u := by
  let p : ProcessInfo := .init 2 0 fun _ => 0
  have h2 : 1 < p.size := by decide
  have hne : 1 ≠ p.rank := by decide
  have hp : Performs (⟨fun _ _ _ => [], fun _ d => d, fun _ => true, true⟩ : Medium) 0
      (recvLost p buf count datatype (1 : Nat) tag) [_, .get (.tcp 1 0) ((ofTwo 0 0 0).encode ++ data), _] _ :=
    recvLost_performs (Nat.zero_lt_of_lt h2) h2 hne hs h0 hl hdata
  have ⟨u, hu, hdoes⟩ := hp.does
  refine ⟨u, _, hdoes, ?_⟩
  cases hu with | cons h₁ hu =>
  cases hu with | cons h₂ hu =>
  cases hu with | cons h₃ hu =>
  cases hu
  cases h₂
  cases h₃
  have hr := h₁.result nofun nofun
  refine ⟨?_, by simp⟩
  rw [results, List.filterMap_cons_none hr]
  rfl

-- The terminator of the fallback goes behind the elements.
theorem stray_fallback (hs : datatype.sizeof? = some es) (hchar : datatype.isChar)
    (tag : Int) (k : Nat) (hfeed : ∃ rest, (mpiRecv (.init 2 0 fun _ => 0) (fun _ => 1) count datatype 1 tag).feed
        (ds.map some ++ List.replicate k none) =
      (recvLost (.init 2 0 fun _ => 0) (fun _ => 1) count datatype 1 tag, rest)) :
    ¬StaysInside datatype count ds fun buf => mpiRecv (.init 2 0 fun _ => 0) buf count datatype 1 tag := by
  intro h
  obtain ⟨rest, hfeed⟩ := hfeed
  have hes := (MPIDatatype.sizeof?_elementSize hs).pos
  have ⟨_, hlt⟩ := hd.total_lt h0 hs ht
  have ⟨u, y, hdoes, hres, hmem⟩ := exists_recvLost h0 hs hlt (fun _ => 1) tag (List.length_replicate (a := (0 : Byte)))
  have hrun : Does ((mpiRecv (.init 2 0 fun _ => 0) (fun _ => 1) count datatype 1 tag).feed
      (ds.map some ++ List.replicate k none)).1 u y := by
    rw [hfeed]
    exact hdoes
  have hin := h.stored k hrun hres hmem (es * count) (by rw [hs]; exact Nat.le_refl _)
  rw [restored, terminate, if_pos hchar] at hin
  have hzero (m : Mem) (j : Nat) : m.write j (List.replicate es 0) (j + 0) = 0 := by
    have hlen : 0 < (List.replicate es (0 : Byte)).length := by rwa [List.length_replicate]
    exact (Mem.write_inside hlen).trans (List.getElem_replicate _)
  exact absurd ((hzero _ _).symm.trans hin) (by decide : (0 : Byte) ≠ 1)

-- A character type makes trouble when its terminator belongs to a later fragment, or when the receive falls back.
theorem accepted_of_inside (hs : datatype.sizeof? = some es)
    (h : ∀ (p : ProcessInfo) (source tag : Int),
      StaysInside datatype count ds (fun buf => mpiRecv p buf count datatype source tag) ∧
        StaysInside datatype count ds fun buf => mpiRecvNoAck p buf count datatype source) :
    ¬datatype.isChar ∨ datatype = .char ∧ Accepted count ds := by
  by_cases hchar : datatype.isChar
  case neg => exact .inl hchar
  case pos =>
    obtain ⟨hrecv, hnoAck⟩ := h (.init 2 0 fun _ => 0) 1 0
    have ⟨hl, hlt⟩ := hd.total_lt h0 hs ht
    have hloop := hd.loop h0 hs 1
    generalize ho : Prog.loop maxPayload _ _ _ = o at hloop
    obtain ⟨o, rest⟩ := o
    cases o with
    | inl l => exact absurd hloop.left (by decide)
    | inr o =>
      cases o with
      | fault => exact hloop.elim
      | exit  => exact hloop.elim
      | lost  =>
        refine absurd hrecv (stray_fallback hd h0 ht hs hchar 0 1 ⟨rest, ?_⟩)
        rw [mpiRecv_multiple hs hl hlt, recvFragments, Prog.feed_loop_bind, ho]
        exact Prog.feed_of_not_waits recvLost_not_waits rest
      | all l =>
        obtain ⟨rfl, hacc, i, hi, he, hsum⟩ := hloop
        by_cases hc : datatype = .char
        case pos => exact .inr ⟨hc, hacc⟩
        case neg =>
          have hfeed : ∃ x r, (mpiRecvNoAck (.init 2 0 fun _ => 0) (fun _ => 1) count datatype 1).feed
              (ds.map some ++ List.replicate 1 none) = (.note (.stored (assemble (fun _ => 1) count
                (fragments (1 * count)) 1 datatype
                (addAll 1 ⟨fun _ => none, 0, 0⟩ (ds.take (i + 1))).table)) x, r) := by
            rw [mpiRecvNoAck_multiple hs hl hlt, recvFragments, Prog.feed_loop_bind, ho, he]
            dsimp only
            rw [if_neg (terminates h0), takeNote_bind, Prog.feed_note]
            exact ⟨_, rest, rfl⟩
          exact absurd hnoAck (stray_terminator hd h0 ht hs hc hchar hi hsum 1 hfeed)

end Stray

-- Which receives of all fragments write nothing behind the buffer, and the terminator into its last element.
theorem receives_inside_iff (h0 : 0 < count) (hd : Delivery datatype count ds) :
    (∀ (p : ProcessInfo) (source tag : Int),
      StaysInside datatype count ds (fun buf => mpiRecv p buf count datatype source tag) ∧
        StaysInside datatype count ds fun buf => mpiRecvNoAck p buf count datatype source) ↔
    ¬datatype.isChar ∨ i32 (mpiHeader + datatypeSizeInBytes count datatype) ≤ maxPayload ∨
      datatype = .char ∧ Accepted count ds := by
  have ⟨es, hs, hlt⟩ := hd.size h0
  by_cases ht : i32 (mpiHeader + datatypeSizeInBytes count datatype) ≤ maxPayload
  case pos => exact iff_of_true (fun p source tag => receives_small p source hd h0 hs ht tag) (.inr (.inl ht))
  case neg =>
    have hlt := Int.not_le.mp ht
    rw [or_iff_right ht]
    exact ⟨accepted_of_inside hd h0 hlt hs, fun hc p source tag =>
      ⟨mpiRecv_several p source hd h0 hs hc hlt tag, mpiRecvNoAck_several p source hd h0 hs hc hlt⟩⟩

-- A message of 1425 characters in two fragments.
theorem delivery_two {h₀ h₁ : Header} (hs : datatype.sizeof? = some 1) (hs₀ : h₀.seq = 0) (hs₁ : h₁.seq = 1)
    (hl₀ : h₀.len.toInt = 1424) (hl₁ : h₁.len.toInt = 1) :
    Delivery datatype 1425 [h₀.encode ++ List.replicate 1424 65, h₁.encode ++ [65]] := by
  have hsize : datatypeSizeInBytes (1425 : Nat) datatype = (1425 : Nat) := datatypeSizeInBytes_eq 1 hs (by decide)
  have he₀ : (h₀.encode ++ List.replicate 1424 65).length = maxPayload := by
    rw [List.length_append, Header.encode_length, List.length_replicate]
    rfl
  have he₁ : (h₁.encode ++ [65]).length = mpiHeader + 1 := by
    rw [List.length_append, Header.encode_length]
    rfl
  have hd₀ := h₀.decode_encode (List.replicate 1424 65)
  have hd₁ := h₁.decode_encode [65]
  generalize h₀.encode ++ List.replicate 1424 65 = d₀ at he₀ hd₀ ⊢
  generalize h₁.encode ++ [65] = d₁ at he₁ hd₁ ⊢
  constructor
  case number =>
    rw [hsize]
    exact (by decide : 2 = fragments 1425)
  case seq =>
    intro i d hi
    match i with
    | 0 =>
      obtain rfl := Option.some.inj hi
      rw [hd₀, hs₀]
      rfl
    | 1 =>
      obtain rfl := Option.some.inj hi
      rw [hd₁, hs₁]
      rfl
    | _ + 2 => contradiction
  case pos =>
    simp only [List.forall_mem_cons, hd₀, hd₁, hl₀, hl₁]
    decide
  case room =>
    simp only [List.forall_mem_cons, lenOf, hd₀, hd₁, hl₀, hl₁, hs]
    decide
  case data =>
    simp only [List.forall_mem_cons, lenOf, hd₀, hd₁, hl₀, hl₁, he₀, he₁, hs]
    decide
  case total => simp [lenOf, hd₀, hd₁, hl₀, hl₁]

def twoFragments (datatype : MPIDatatype) : List Bytes :=
  let p : ProcessInfo := .init 2 0 fun _ => 0
  [(header p 0 1 .send datatype 1424 0 0 0).encode ++ List.replicate 1424 65,
    (header p 0 1 .send datatype 1 0 1 0).encode ++ [65]]

theorem delivery_twoFragments (hs : datatype.sizeof? = some 1) : Delivery datatype 1425 (twoFragments datatype) :=
  delivery_two hs rfl rfl rfl rfl

theorem accepted_twoFragments (datatype : MPIDatatype) : Accepted 1425 (twoFragments datatype) := by
  intro i d hi _
  have hm := List.mem_of_getElem? hi
  simp only [twoFragments, List.mem_cons, List.not_mem_nil, or_false] at hm
  rcases hm with rfl | rfl
  · exact .inl (by rw [List.length_append, Header.encode_length, List.length_replicate]; decide)
  · exact .inr (by rw [List.length_append, Header.encode_length]; decide)

theorem receives_inside_iff_char :
    let p : ProcessInfo := .init 2 1 fun _ => 0
    StaysInside .char 1425 (twoFragments .char) (fun buf => mpiRecv p buf 1425 .char 0 1) ∧
      StaysInside .char 1425 (twoFragments .char) fun buf => mpiRecvNoAck p buf 1425 .char 0 :=
  (receives_inside_iff (by decide) (delivery_twoFragments rfl)).mpr (.inr (.inr ⟨rfl, accepted_twoFragments _⟩)) _ 0 1

theorem not_receives_inside :
    ¬∀ (datatype : MPIDatatype) (count : Nat) (ds : List Bytes), 0 < count → Delivery datatype count ds →
      ∀ (p : ProcessInfo) (source tag : Int),
        StaysInside datatype count ds (fun buf => mpiRecv p buf count datatype source tag) ∧
          StaysInside datatype count ds fun buf => mpiRecvNoAck p buf count datatype source := by
  intro h
  have hd := delivery_twoFragments (show MPIDatatype.signedChar.sizeof? = some 1 from rfl)
  rcases accepted_of_inside hd (by decide) (by decide) rfl (h .signedChar 1425 _ (by decide) hd) with hc | ⟨hc, _⟩
  · exact hc rfl
  · contradiction

end Mpi

import XdpCollectives.Mpi.Theorems.Datagrams

-- The two ways that a message takes from `mpi_send` to `mpi_recv`.
namespace Mpi

open Memory Wire Process

variable {f : Forwarder} {s p : ProcessInfo} {data buf b : Mem} {es count : Nat} {datatype : MPIDatatype} {tag : Int}

-- The receive buffer when the datagram arrives.
def ByDatagram (f : Forwarder) (s p : ProcessInfo) (data buf : Mem) (count : Nat) (datatype : MPIDatatype) (tag : Int)
    (b : Mem) : Prop :=
  ∃ d s' p',
    Performs (lossless s.size f) s.rank (_mpiSend s data count datatype s.rank p.rank tag .send)
      [.put ((lossless s.size f).outs s.rank p.rank d)] (.ret (count, s')) ∧
    Performs (lossless s.size f) p.rank (mpiRecv p buf count datatype s.rank tag)
      [.get (.udp p.rank) d, .note (.stored b)] (.ret (count, b, p'))

-- The receive buffer when it does not: the receiver asks for the message and gets it over the connection.
def ByFallback (f : Forwarder) (s p : ProcessInfo) (data buf : Mem) (count : Nat) (datatype : MPIDatatype) (tag : Int)
    (b : Mem) : Prop :=
  ∃ m p',
    Performs (medium s.size f (· = p.rank)) p.rank (mpiRecv p buf count datatype s.rank tag)
      [.timeout, .put [(.tcp p.rank s.rank, (notice p .nack s.rank tag).encode)], .get (.tcp s.rank p.rank) m,
        .note (.stored b)]
      (.ret (count, b, p')) ∧
    Performs (medium s.size f (· = p.rank)) s.rank
      (_mpiSendTcp (s.countId s.rank p.rank) data count datatype s.rank p.rank tag .send)
      [.put [(.tcp s.rank p.rank, m)]] (.ret count)

-- Both ways lead to the same elements, and neither writes outside them.
def WaysAgree (f : Forwarder) (s p : ProcessInfo) (data : Mem) (es count : Nat) (datatype : MPIDatatype) (tag : Int) :
    Prop :=
  ∀ buf, ∃ b₁ b₂,
    ByDatagram f s p data buf count datatype tag b₁ ∧ ByFallback f s p data buf count datatype tag b₂ ∧
    b₁.read 0 (es * count) = b₂.read 0 (es * count) ∧ ∀ j, es * count ≤ j → b₁ j = buf j ∧ b₂ j = buf j

section

variable (hs : s.rank < s.size) (hp : p.rank < s.size) (hne : s.rank ≠ p.rank) (ht : datatype.sizeof? = some es)
  (hc : Single es count)
include hs hp hne ht hc

variable (f data buf tag) in
theorem byDatagram (hsize : p.size = s.size) (hb : Sendable es count) :
    ByDatagram f s p data buf count datatype tag (stored es count datatype (payload es count data) buf) := by
  have ⟨d, h, hd, hca, _⟩ := datagrams_single s.rank datatype data tag .send (p := s) (r := p.rank) ht hb hc
  have hsend := _mpiSend_performs s.rank datatype data tag .send (μ := lossless s.size f) (r := p.rank) hs hp hne.symm
    ht hb
  rw [hd] at hsend
  exact ⟨d, _, _, hsend, mpiRecv_performs datatype buf tag (hsize ▸ hs) rfl ht hc (f.same _ _) hca
    (payload_length (MPIDatatype.sizeof?_elementSize ht))⟩

omit hne in
-- `__mpi_send` takes the size in bytes of a larger message for its number of elements.
theorem sendable_of_byDatagram (h : ByDatagram f s p data buf count datatype tag b) : Sendable es count := by
  refine ⟨hc.left, ?_⟩
  by_contra hbig
  obtain ⟨hl, he⟩ := not_or.mp hbig
  have hle := hc.right
  have hpos : count ≤ es * count := Nat.le_mul_of_pos_left count (MPIDatatype.sizeof?_elementSize ht).pos
  have h1 : es ≠ 1 := by
    rintro rfl
    simp only [maxPayload, mpiHeader] at hle
    omega
  obtain ⟨_, _, _, hsend, _⟩ := h
  rw [_mpiSend_fault data tag .send hs hp ht hc h1 (by omega)] at hsend
  cases hsend

variable (hsize : p.size = s.size)
include hsize

variable (f data buf tag) in
theorem byFallback :
    ByFallback f s p data buf count datatype tag (restored es count datatype (payload es count data) buf) := by
  have ⟨h0, hle⟩ := hc
  simp only [maxPayload] at hle
  have hl : (payload es count data).length = es * count := payload_length (MPIDatatype.sizeof?_elementSize ht)
  refine ⟨parcel (s.countId s.rank p.rank) es count datatype data p.rank tag, p.countId s.rank p.rank, ?_, ?_⟩
  · exact mpiRecv_timeout datatype buf tag (by simp [medium]) (hsize ▸ hp) (hsize ▸ hs) hne ht hc hl
  · exact _mpiSendTcp_performs data (p := s.countId s.rank p.rank) hs hp hne.symm ht h0 (by omega) tag

-- There is no other outcome.
theorem byFallback_eq (h : ByFallback f s p data buf count datatype tag b) :
    b = restored es count datatype (payload es count data) buf := by
  obtain ⟨m, _, hr, hm⟩ := h
  obtain ⟨m', _, hr', hm'⟩ := byFallback f data buf tag hs hp hne ht hc hsize
  have ⟨he, _⟩ := hm.unique hm' (List.prefix_refl _)
  simp only [List.cons.injEq, Script.Act.put.injEq, Prod.mk.injEq, true_and, and_true] at he
  subst he
  have ⟨_, he⟩ := hr.unique hr' (List.prefix_refl _)
  exact (Prod.mk.inj (Prod.mk.inj he).right).left

-- What comes over the connection gets its terminator behind the elements.
theorem not_waysAgree (hchar : datatype.isChar = true) : ¬WaysAgree f s p data es count datatype tag := by
  intro h
  have hes := (MPIDatatype.sizeof?_elementSize ht).pos
  -- A buffer whose end shows whether anything is written behind the elements.
  have ⟨_, b, _, hb, _, ho⟩ := h fun _ => 1#8
  have hj := (ho (es * count) (Nat.le_refl _)).right
  have hz : b (es * count) = 0 := by
    have hz : 0 < (List.replicate es (0 : Byte)).length := by simpa using hes
    rw [byFallback_eq hs hp hne ht hc hsize hb, restored, terminate, if_pos hchar]
    exact (Mem.write_inside (i := es * count) hz).trans (List.getElem_replicate _)
  rw [hj] at hz
  exact absurd hz (by decide)

variable (f data tag) in
-- The two ways agree for the messages that need no terminator and that `__mpi_send` can put into a datagram.
theorem ways_agree_iff :
    WaysAgree f s p data es count datatype tag ↔ datatype.isChar = false ∧ Sendable es count := by
  constructor
  case mp =>
    intro h
    have ⟨_, _, hd, _⟩ := h fun _ => 0#8
    refine ⟨?_, sendable_of_byDatagram hs hp ht hc hd⟩
    by_contra hchar
    exact not_waysAgree hs hp hne ht hc hsize (by simpa using hchar) h
  case mpr =>
    intro ⟨hchar, hb⟩ buf
    have hl : (converted es count data).length = es * count := converted_length (MPIDatatype.sizeof?_elementSize ht)
    refine ⟨_, _, byDatagram f data buf tag hs hp hne ht hc hsize hb,
      byFallback f data buf tag hs hp hne ht hc hsize, ?_, fun j hj => ?_⟩
    · simp only [stored, restored, terminate, hchar]
      rfl
    · have hw : (buf.write 0 (converted es count data)) j = buf j := Mem.write_outside (by omega)
      simp only [stored, restored, terminate, hchar]
      exact ⟨hw, hw⟩

end

theorem ways_agree_iff_int :
    WaysAgree .id (.init 2 0 fun _ => 0) (.init 2 1 fun _ => 0) (fun _ => 7) 4 1 .int 1 ↔
      MPIDatatype.int.isChar = false ∧ Sendable 4 1 :=
  ways_agree_iff .id _ 1 (by decide) (by decide) (by decide) rfl (by simp [Single, maxPayload, mpiHeader]) rfl

theorem ways_disagree_char :
    ¬∀ (f : Forwarder) (s p : ProcessInfo) (data : Mem) (es count : Nat) (datatype : MPIDatatype) (tag : Int),
      s.rank < s.size → p.rank < s.size → s.rank ≠ p.rank → p.size = s.size → datatype.sizeof? = some es →
      es ∈ [1, 2, 4, 8] → Single es count → WaysAgree f s p data es count datatype tag := by
  intro h
  have hc : Single 1 1 := by simp [Single, maxPayload, mpiHeader]
  let s : ProcessInfo := .init 2 0 fun _ => 0
  let p : ProcessInfo := .init 2 1 fun _ => 0
  have hs : s.rank < s.size := by decide
  have hp : p.rank < s.size := by decide
  have hne : s.rank ≠ p.rank := by decide
  have hw := h .id s p (fun _ => 65#8) 1 1 .char 1 hs hp hne rfl rfl (by decide) hc
  exact not_waysAgree hs hp hne rfl hc rfl rfl hw

end Mpi

import XdpCollectives.Mpi.Slots

-- The collectives do the same before an observer who writes down the slots.
namespace Mpi

open Memory Wire Process

section Erase

variable {c : Prop} [Decidable c] (p : ProcessInfo) (buf : Mem) (count : Int) (datatype : MPIDatatype)
  (root source dest tag : Int) (collective : MPICollective)

@[simp]
theorem erase_pure (a : α) : erase (pure a) = pure a := rfl

@[simp]
theorem erase_fault : erase (.fault : Marked α) = .fault := rfl

@[simp]
theorem erase_exit : erase (.exit : Marked α) = .exit := rfl

@[simp]
theorem erase_bind (x : Marked α) (f : α → Marked β) : erase (x >>= f) = erase x >>= fun a => erase (f a) :=
  Prog.filterNotes_bind x f

@[simp]
theorem erase_map (f : α → β) (x : Marked α) : erase (f <$> x) = f <$> erase x :=
  Prog.filterNotes_bind x _

@[simp]
theorem erase_discard (x : Marked α) : erase (discard x) = discard (erase x) :=
  erase_map _ x

@[simp]
theorem erase_ite (x y : Marked α) : erase (if c then x else y) = if c then erase x else erase y :=
  apply_ite ..

@[simp]
theorem erase_takeNote (n : Note) : erase (takeNote n) = takeNote n := rfl

@[simp]
theorem erase_useSlot (i : Int) : erase (useSlot i) = useSlot i := rfl

@[simp]
theorem erase_recvfrom (len : Nat) (next : L → Option Bytes → L ⊕ O) (l : L) (k : O → Marked α) :
    erase (.recvfrom len next l k) = .recvfrom len next l fun o => erase (k o) := rfl

@[simp]
theorem erase_recvDatagram (len : Nat) : erase (.recvDatagram len) = .recvDatagram len := rfl

@[simp]
theorem erase_recvFragments (size N es : Nat) :
    erase (recvFragments size N es datatype) = recvFragments size N es datatype := rfl

@[simp]
theorem erase_send (m : Bytes) : erase (p.send dest m) = p.send dest m := by
  simp only [ProcessInfo.send, erase_bind, erase_useSlot, erase_ite]
  rfl

@[simp]
theorem erase_sendto (m : Bytes) : erase (p.sendto dest m) = p.sendto dest m := by
  simp only [ProcessInfo.sendto, erase_bind, erase_useSlot, erase_ite]
  rfl

@[simp]
theorem erase_recv (len : Nat) : erase (p.recv source len) = p.recv source len := by
  simp only [ProcessInfo.recv, erase_bind, erase_useSlot, erase_ite]
  rfl

@[simp]
theorem erase_mpiSendFragments (size N es fuel seq : Nat) :
    erase (_mpiSendFragments p buf size N es datatype root dest tag collective fuel seq) =
      _mpiSendFragments p buf size N es datatype root dest tag collective fuel seq := by
  induction fuel generalizing seq with
  | zero         => rfl
  | succ fuel hi => simp [_mpiSendFragments, hi]

@[simp]
theorem erase_mpiSend_ : erase (_mpiSend p buf count datatype root dest tag collective) =
    _mpiSend p buf count datatype root dest tag collective := by
  simp [_mpiSend]

@[simp]
theorem erase_mpiSendTcp : erase (_mpiSendTcp p buf count datatype root dest tag collective) =
    _mpiSendTcp p buf count datatype root dest tag collective := by
  simp [_mpiSendTcp]

@[simp]
theorem erase_mpiSendTcpLostPacket : erase (_mpiSendTcpLostPacket p datatype root dest tag collective) =
    _mpiSendTcpLostPacket p datatype root dest tag collective := by
  simp [_mpiSendTcpLostPacket]

@[simp]
theorem erase_recvHeader (rest : Mem) : erase (recvHeader p source rest) = recvHeader p source rest := by
  simp [recvHeader]

@[simp]
theorem erase_mpiSend : erase (mpiSend p buf count datatype dest tag) = mpiSend p buf count datatype dest tag := by
  simp [mpiSend]

@[simp]
theorem erase_mpiRecvTcpLoop (fuel left : Nat) :
    erase (_mpiRecvTcpLoop p source fuel left) = _mpiRecvTcpLoop p source fuel left := by
  induction fuel generalizing left with
  | zero         => rfl
  | succ fuel hi => simp [_mpiRecvTcpLoop, hi]

@[simp]
theorem erase_mpiRecvTcp : erase (_mpiRecvTcp p buf count datatype source) =
    _mpiRecvTcp p buf count datatype source := by
  simp [_mpiRecvTcp]

@[simp]
theorem erase_countReceived : erase (countReceived p source) = countReceived p source := by
  simp [countReceived]

@[simp]
theorem erase_recvLost : erase (recvLost p buf count datatype source tag) =
    recvLost p buf count datatype source tag := by
  simp [recvLost]

@[simp]
theorem erase_mpiRecv : erase (mpiRecv p buf count datatype source tag) =
    mpiRecv p buf count datatype source tag := by
  simp only [mpiRecv, erase_ite, erase_bind, erase_recvFragments, erase_recvDatagram, erase_pure]
  congr 3
  · funext r
    cases r <;> simp
  · congr 2
    funext d
    cases storeMessage buf count _ datatype d <;> simp

@[simp]
theorem erase_mpiRecvNoAck : erase (mpiRecvNoAck p buf count datatype source) =
    mpiRecvNoAck p buf count datatype source := by
  simp only [mpiRecvNoAck, erase_ite, erase_bind, erase_recvFragments, erase_recvDatagram, erase_pure]
  congr 3
  · funext r
    cases r <;> simp
  · congr 2
    funext d
    cases storeMessage buf count _ datatype d <;> simp

@[simp]
theorem erase_mpiBarrierRing : erase (mpiBarrierRing p) = mpiBarrierRing p := by
  simp [mpiBarrierRing]

@[simp]
theorem erase_recvAcks (rest : Mem) (is : List Nat) : erase (recvAcks p buf count datatype tag rest is) =
    recvAcks p buf count datatype tag rest is := by
  induction is with
  | nil          => rfl
  | cons i is hi => simp [recvAcks, hi]

@[simp]
theorem erase_sendLinear (rt : Nat) (is : List Nat) : erase (sendLinear buf count datatype rt tag is p) =
    sendLinear buf count datatype rt tag is p := by
  induction is generalizing p with
  | nil          => rfl
  | cons i is hi => simp [sendLinear, hi]

@[simp]
theorem erase_bcastRounds (rt rel size fuel step : Nat) :
    erase (bcastRounds count datatype rt rel size fuel step buf p) =
      bcastRounds count datatype rt rel size fuel step buf p := by
  induction fuel generalizing step buf p with
  | zero         => rfl
  | succ fuel hi => simp [bcastRounds, hi]

@[simp]
theorem erase_sendChildren (rt : Nat) : erase (sendChildren p buf count datatype rt tag) =
    sendChildren p buf count datatype rt tag := by
  simp [sendChildren]

@[simp]
theorem erase_bcastXdp (rest : Mem) (rt : Nat) : erase (bcastXdp collective rest p buf count datatype rt) =
    bcastXdp collective rest p buf count datatype rt := by
  simp [bcastXdp]

end Erase

namespace Collective

variable (c : Collective) (count : Int) (datatype : MPIDatatype) (root n : Nat) (P : Nat → ProcessInfo)
  (bufs : Nat → Mem)

theorem erase_perform (p : ProcessInfo) (buf : Mem) :
    erase (c.perform p buf count datatype root) = c.perform p buf count datatype root := by
  cases c with
  | barrierRing       => simp [perform]
  | bcast             => simp [perform, mpiBcast]
  | bcastRing         => simp [perform, mpiBcastRing]
  | bcastLinear       => simp [perform, mpiBcastLinear]
  | bcastRingXdp      => simp [perform, mpiBcastRingXdp]
  | bcastLinearXdp    => simp [perform, mpiBcastLinearXdp]
  | bcastRingXdpEager => simp [perform, mpiBcastRingXdpEager]
  | bcastXdp          => simp [perform, mpiBcastXdp]

theorem marked_filterNotes :
    (c.marked count datatype root n P bufs).filterNotes Mark.note? = c.network count datatype root n P bufs := by
  rw [marked, network, observed, observed, Net.filterNotes_start]
  congr 1
  funext r
  rw [Prog.filterNotes_ite]
  exact if_congr Iff.rfl (c.erase_perform ..) rfl

-- What the ranks can do is what they can do when their slots are written down.
theorem reaches_marked_iff {μ : Medium} {t : Net Note} : (c.network count datatype root n P bufs).Reaches μ t ↔
    ∃ s, (c.marked count datatype root n P bufs).Reaches μ s ∧ s.filterNotes Mark.note? = t := by
  rw [← marked_filterNotes, Net.reaches_filterNotes_iff]

end Collective
end Mpi

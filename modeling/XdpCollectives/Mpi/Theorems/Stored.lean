import XdpCollectives.Mpi.Theorems.Observed
import XdpCollectives.Mpi.Theorems.Fragments
import XdpCollectives.Process.Traces

-- Where the bytes come from that a receive stores, whatever the network does.
namespace Mpi

open Memory Wire Process

variable {count j : Nat} {buf b : Mem} {ds : List Bytes} {bs : Bytes}

-- The data of the datagrams.
def DataByte (ds : List Bytes) (x : Byte) : Prop :=
  ∃ d ∈ ds, ∃ i, d[mpiHeader + i]? = some x

-- Every byte of a buffer is the one that was there before, the terminator, or a byte of the datagrams.
def Filled (count : Nat) (buf b : Mem) (ds : List Bytes) : Prop :=
  ∀ j, b j = buf j ∨ (j + 1 = count ∧ b j = 0) ∨ DataByte ds (b j)

theorem Filled.write (h : Filled count buf b ds) (hbs : ∀ x ∈ bs, DataByte ds x) (at_ : Nat) :
    Filled count buf (b.write at_ bs) ds := by
  intro j
  by_cases hj : at_ ≤ j ∧ j < at_ + bs.length
  case pos =>
    have ⟨k, hk⟩ := Nat.exists_eq_add_of_le hj.left
    subst hk
    rw [Mem.write_inside (by omega)]
    exact .inr (.inr (hbs _ (List.getElem_mem _)))
  case neg =>
    rw [Mem.write_outside (by omega)]
    exact h j

theorem Filled.terminate (h : Filled count buf b ds) (h0 : 0 < count) :
    Filled count buf (terminate .char 1 (count - 1) b) ds := by
  intro j
  have ht : Mpi.terminate .char 1 (count - 1) b = b.write (1 * (count - 1)) (List.replicate 1 0) := rfl
  rw [ht, Nat.one_mul]
  by_cases hj : j + 1 = count
  case pos =>
    have hw : b.write (count - 1) (List.replicate 1 0) (count - 1 + 0) = 0 := Mem.write_inside Nat.one_pos
    rw [show j = count - 1 + 0 by omega, hw]
    exact .inr (.inl ⟨by omega, rfl⟩)
  case neg =>
    rw [Mem.write_outside (by rw [List.length_replicate]; omega)]
    exact h j

theorem genericNtoh_one (n : Nat) (src : Bytes) : genericNtoh 1 n src = src.take n := by
  induction n generalizing src
  case zero => rfl
  case succ n hi =>
    rw [Nat.add_comm, List.take_add, ← hi, Nat.add_comm]
    rfl

-- Whatever is in the table of fragments is put together.
theorem filled_assemble (h0 : 0 < count) {table : Nat → Option Bytes}
    (h : ∀ i arr, table i = some arr → ∀ x ∈ arr, DataByte ds x) (N : Nat) :
    Filled count buf (assemble buf count N 1 .char table) ds := by
  refine List.foldlRecOn (motive := fun st : Mem × Nat => Filled count buf st.1 ds) _ _ (fun _ => .inl rfl)
    fun st hst i _ => ?_
  dsimp only
  split
  case h_1 => exact hst
  case h_2 arr ha =>
    rw [Nat.div_one, genericNtoh_one, List.take_length, if_pos rfl, Int.toNat_natCast]
    exact (hst.write (h i arr ha) _).terminate h0

-- The elements of a fragment are bytes of its datagram, where that is as long as it can be.
theorem dataByte_fragment {d : Bytes} (hd : d.length = maxPayload) {len : Nat}
    (hx : x ∈ genericNtoh 1 len
      ((d.take maxPayload ++ List.replicate (maxPayload - (d.take maxPayload).length) 0).drop mpiHeader))
    (hm : d ∈ ds) : DataByte ds x := by
  rw [List.take_of_length_le hd.le, hd, Nat.sub_self, List.replicate_zero, List.append_nil, genericNtoh_one] at hx
  have ⟨i, hi⟩ := List.mem_iff_getElem?.mp (List.mem_of_mem_take hx)
  exact ⟨d, hm, i, by rwa [List.getElem?_drop] at hi⟩

-- The length of the data in the last datagram of a message, as the receiver expects it.
def finalSend (size N : Nat) : Nat :=
  if size % N ≠ 0 then size - (N - 1) * payloadSize else payloadSize

-- The datagram has one of the two lengths that the loop over the fragments expects.
def Expected (size N : Nat) (d : Bytes) : Prop :=
  maxPayload ≤ d.length ∨ d.length = mpiHeader + finalSend size N

instance : DecidablePred (Expected size N) :=
  fun _ => inferInstanceAs <| Decidable (_ ∨ _)

section Fragments

variable {size N es : Nat} {datatype : MPIDatatype} {l l' : Fragments} {t u : List (Event Note)} {e : Event Note}
  {d : Option Bytes}

theorem recvFragment_unexpected {d : Bytes} (h : ¬Expected size N d) :
    recvFragment size N es datatype l (some (d.take maxPayload)) = .inr .lost := by
  rw [Expected, not_or] at h
  have ⟨hlt, hne⟩ := h
  have hl : (d.take maxPayload).length = d.length := by
    rw [List.length_take]
    omega
  simp only [recvFragment, hl]
  rw [finalSend] at hne
  have hp : maxPayload = mpiHeader + payloadSize := rfl
  split_ifs at hne ⊢ <;> first | rfl | omega

-- The datagrams that the loop over the fragments has taken have the right lengths, and make up its table.
structure Tabled (size N : Nat) (u : List (Event Note)) (l : Fragments) : Prop where
  took  : ∀ e ∈ u, ∃ d, e = .took d ∧ Expected size N d
  table : (∀ d ∈ taken u, d.length = maxPayload) → ∀ i arr, l.table i = some arr → ∀ x ∈ arr, DataByte (taken u) x

theorem DataByte.mono {ds' : List Bytes} {x : Byte} (h : DataByte ds x) (hs : ds ⊆ ds') : DataByte ds' x := by
  have ⟨d, hd, hi⟩ := h
  exact ⟨d, hs hd, hi⟩

theorem recvFragment_tabled (h : Tabled size N u l) (hd : Input e d)
    (hn : recvFragment size N 1 .char l (d.map (·.take maxPayload)) = .inl l' ∨
      recvFragment size N 1 .char l (d.map (·.take maxPayload)) = .inr (.all l')) : Tabled size N (u ++ [e]) l' := by
  cases hd
  case timeout => simp [recvFragment] at hn
  case took d =>
    have htaken : taken (u ++ [.took d]) = taken u ++ [d] := by simp [taken]
    have hexp : Expected size N d := by
      by_contra hexp
      rw [Option.map_some, recvFragment_unexpected hexp] at hn
      simp at hn
    obtain ⟨i, len, hl⟩ : ∃ i len, l'.table = Function.update l.table i (some (genericNtoh 1 len
        ((d.take maxPayload ++ List.replicate (maxPayload - (d.take maxPayload).length) 0).drop mpiHeader))) := by
      simp only [recvFragment, Option.map_some] at hn
      generalize d.take maxPayload ++ List.replicate _ 0 = message at hn ⊢
      split_ifs at hn
      all_goals simp only [Sum.inl.injEq, Sum.inr.injEq, Received.all.injEq, reduceCtorEq, or_self, or_false,
        false_or] at hn
      all_goals exact ⟨(Header.decode message).seq.toNat, u64 (Header.decode message).len.toInt, by rw [← hn]⟩
    constructor
    case took =>
      intro e he
      rcases List.mem_append.mp he with he | he
      · exact h.took e he
      · exact ⟨d, List.mem_singleton.mp he, hexp⟩
    case table =>
      intro hlen j arr hj x hx
      rw [htaken] at hlen ⊢
      by_cases hij : j = i
      case pos =>
        rw [hl, hij, Function.update_self] at hj
        cases hj
        exact dataByte_fragment (hlen d (by simp)) hx (by simp)
      case neg =>
        rw [hl, Function.update_of_ne hij] at hj
        exact (h.table (fun d hd => hlen d (List.mem_append_left _ hd)) j arr hj x hx).mono
          (List.subset_append_left _ _)

theorem recvFragments_tabled (h : Does (recvFragments size N 1 .char) t (.ret (.all l))) : Tabled size N t l := by
  have hI : Tabled size N [] ⟨fun _ => none, 0, 0⟩ := ⟨fun _ he => absurd he List.not_mem_nil, nofun⟩
  rcases h.of_recvfrom (I := Tabled size N) (fun _ _ _ _ _ hI hd hn => recvFragment_tabled hI hd (.inl hn)) hI with
    ⟨l', hl⟩ | ⟨t₁, e, t₂, d, l', o, rfl, hI, hd, hn, hk⟩
  · contradiction
  · obtain ⟨rfl, ho⟩ := hk.of_ret
    cases ho
    exact recvFragment_tabled hI hd (.inr hn)

end Fragments

-- What the parts of a receive do.
section Parts

variable {φ : Event Note → Prop} (p : ProcessInfo) (hsend : ∀ dest m, φ (.send dest m))
  (hrecv : ∀ src m, φ (.recv src m))

include hsend in
theorem send_keeps (dest : Int) (m : Bytes) : Keeps φ (p.send dest m) fun _ => True :=
  .ite (fun _ => .fault) fun _ => .ite (fun _ => .done ()) fun _ => .send (hsend _ _) (.done ())

include hsend in
theorem _mpiSendTcpLostPacket_keeps (datatype : MPIDatatype) (root dest tag : Int) (collective : MPICollective) :
    Keeps φ (_mpiSendTcpLostPacket p datatype root dest tag collective) fun _ => True :=
  .ite (fun _ => .fault) fun _ => send_keeps p hsend _ _

include hrecv in
theorem recv_keeps (src : Int) (len : Nat) : Keeps φ (p.recv src len) fun _ => True :=
  .ite (fun _ => .fault) fun _ => .ite (fun _ => .exit) fun _ => .recv (hrecv _) .done

include hrecv in
theorem _mpiRecvTcpLoop_keeps (src : Int) (fuel left : Nat) :
    Keeps φ (_mpiRecvTcpLoop p src fuel left) fun _ => True := by
  induction fuel generalizing left
  case zero => exact .done []
  case succ fuel hi =>
    exact .ite (fun _ => .done []) fun _ => (recv_keeps p hrecv src left).bind fun _ _ => (hi _).bind fun _ _ => .done _

include hrecv in
theorem _mpiRecvTcp_keeps (buf : Mem) (count : Int) (datatype : MPIDatatype) (src : Int) :
    Keeps φ (_mpiRecvTcp p buf count datatype src) fun _ => True :=
  .ite (fun _ => .done _) fun _ => .ite (fun _ => .done _) fun _ =>
    (_mpiRecvTcpLoop_keeps p hrecv src _ _).bind fun _ _ => .ite (fun _ => .fault) fun _ => .done _

-- What has been counted when a receive is over.
def Counted (p : ProcessInfo) (src : Int) (q : ProcessInfo) : Prop :=
  src < 0 ∧ q = p ∨ p.InRange src ∧ q = p.countId src.toNat p.rank

theorem Counted.same {p q : ProcessInfo} {src : Int} (h : Counted p src q) : q.rank = p.rank ∧ q.size = p.size := by
  rcases h with ⟨_, rfl⟩ | ⟨_, rfl⟩ <;> exact ⟨rfl, rfl⟩

theorem countReceived_keeps (src : Int) : Keeps φ (countReceived p src) (Counted p src) :=
  .ite (fun h => .ret (.inl ⟨h, rfl⟩)) fun _ => .ite (fun h => .ret (.inr ⟨h, rfl⟩)) fun _ => .fault

variable (hstored : ∀ b, φ (.note (.stored b))) (htook : ∀ d, φ (.took d)) (htimeout : φ .timeout)

include hsend hrecv hstored in
theorem recvLost_keeps (buf : Mem) (count : Int) (datatype : MPIDatatype) (src tag : Int) :
    Keeps φ (recvLost p buf count datatype src tag) fun x => Counted p src x.2.2 :=
  (_mpiSendTcpLostPacket_keeps p hsend _ _ _ _ _).bind fun _ _ => (_mpiRecvTcp_keeps p hrecv _ _ _ _).bind fun _ _ =>
    .note (hstored _) ((countReceived_keeps p src).bind fun _ hq => .ret hq)

include htook htimeout in
theorem recvDatagram_keeps (len : Nat) : Keeps φ (Prog.recvDatagram len) fun _ => True :=
  .recvfrom htook htimeout .done

include htook htimeout in
theorem recvFragments_keeps (size N es : Nat) (datatype : MPIDatatype) :
    Keeps φ (recvFragments size N es datatype) fun _ => True :=
  .recvfrom htook htimeout .done

section Continuations

variable {Q : β → Prop}
include htook htimeout

theorem fragments_keep {size N es : Nat} {datatype : MPIDatatype} {k : Received → Program β}
    (hfault : k .fault = .fault) (hexit : k .exit = .exit) (hlost : Keeps φ (k .lost) Q)
    (hall : ∀ l, Keeps φ (k (.all l)) Q) : Keeps φ (recvFragments size N es datatype >>= k) Q := by
  refine (recvFragments_keeps htook htimeout size N es datatype).bind fun r _ => ?_
  cases r with
  | fault => exact hfault ▸ .fault
  | exit  => exact hexit ▸ .exit
  | lost  => exact hlost
  | all l => exact hall l

theorem datagram_keep {len : Nat} {count size : Int} {datatype : MPIDatatype} {lost : Program β}
    {k : Mem → Program β} (hlost : Keeps φ lost Q) (hk : ∀ b, Keeps φ (k b) Q) :
    Keeps φ (do
      match storeMessage buf count size datatype (← Prog.recvDatagram len) with
      | .fault => .fault
      | .lost  => lost
      | .all b => k b) Q := by
  refine (recvDatagram_keeps htook htimeout len).bind fun d _ => ?_
  split
  case h_1 => exact .fault
  case h_2 => exact hlost
  case h_3 b _ => exact hk b

end Continuations

include hsend hrecv hstored htook htimeout in
theorem mpiRecv_counts (buf : Mem) (count : Int) (datatype : MPIDatatype) (src tag : Int) :
    Keeps φ (mpiRecv p buf count datatype src tag) fun x => x.1 = -1 ∧ x.2.2 = p ∨ Counted p src x.2.2 := by
  have hlost := (recvLost_keeps p hsend hrecv hstored buf count datatype src tag).mono
    (R := fun x => x.1 = -1 ∧ x.2.2 = p ∨ Counted p src x.2.2) fun _ => Or.inr
  refine .ite (fun _ => .ret (.inl ⟨rfl, rfl⟩)) fun _ => ?_
  refine .ite (fun _ => ?_) fun _ => .ite (fun _ => .ret (.inl ⟨rfl, rfl⟩)) fun _ => ?_
  · refine fragments_keep htook htimeout rfl rfl hlost fun l => .ite (fun _ => .fault) fun _ => .note (hstored _) ?_
    exact (countReceived_keeps p src).bind fun q hq => (_mpiSendTcpLostPacket_keeps q hsend _ _ _ _ _).bind fun _ _ =>
      .ret (.inr hq)
  · exact datagram_keep htook htimeout hlost fun b => .note (hstored b) <|
      (countReceived_keeps p src).bind fun _ hq => .ret (.inr hq)

include hsend hrecv hstored htook htimeout in
theorem mpiRecv_keeps (buf : Mem) (count : Int) (datatype : MPIDatatype) (src tag : Int) :
    Keeps φ (mpiRecv p buf count datatype src tag) fun x => x.2.2.rank = p.rank ∧ x.2.2.size = p.size := by
  refine (mpiRecv_counts p hsend hrecv hstored htook htimeout buf count datatype src tag).mono fun x hx => ?_
  rcases hx with ⟨_, he⟩ | hx
  · exact he ▸ ⟨rfl, rfl⟩
  · exact hx.same

include hstored htook htimeout in
theorem mpiRecvNoAck_keeps {Q : Int × Mem × ProcessInfo → Prop} (buf : Mem) (count : Int) (datatype : MPIDatatype)
    (src : Int) (hlost : Q (-1, buf, p))
    (hgot : ¬datatypeSizeInBytes count datatype < 1 → ∀ b q, Counted p src q → Q (count, b, q)) :
    Keeps φ (mpiRecvNoAck p buf count datatype src) Q := by
  refine .ite (fun _ => .ret hlost) fun h1 => .ite (fun _ => ?_) fun _ => .ite (fun _ => .ret hlost) fun _ => ?_
  · exact fragments_keep htook htimeout rfl rfl (.ret hlost) fun l => .ite (fun _ => .fault) fun _ =>
      .note (hstored _) ((countReceived_keeps p src).bind fun q hq => .ret (hgot h1 _ q hq))
  · exact datagram_keep htook htimeout (.ret hlost) fun b => .note (hstored b) <|
      (countReceived_keeps p src).bind fun q hq => .ret (hgot h1 b q hq)

end Parts

section Stores

variable {t : List (Event Note)} {p : ProcessInfo} {src : Nat} {tag : Int}

def Quiet (e : Event Note) : Prop :=
  ∀ m, e ≠ .note m

theorem not_stored {Q : α → Prop} {x y : Program α} (hx : Keeps Quiet x Q) (h : Does x t y) : .note m ∉ t :=
  fun hm => (hx t y h).left _ hm m rfl

theorem stored_eq_of_note {Q : α → Prop} {k y : Program α} (hk : Keeps Quiet k Q)
    (h : Does (.note (.stored b') k) t y) (hs : .note (.stored b) ∈ t) : b = b' := by
  cases h with
  | refl      => contradiction
  | step h ht =>
    cases h
    rcases List.mem_cons.mp hs with hs | hs
    · cases hs
      rfl
    · exact absurd hs (not_stored hk ht)

theorem mem_taken {d : Bytes} : d ∈ taken t ↔ .took d ∈ t := by
  rw [taken, List.mem_filterMap]
  constructor
  case mp =>
    rintro ⟨e, he, h⟩
    cases e <;> simp at h
    exact h ▸ he
  case mpr => exact fun he => ⟨_, he, rfl⟩

theorem taken_append (t t' : List (Event Note)) : taken (t ++ t') = taken t ++ taken t' :=
  List.filterMap_append

-- The receive of a message of `count` characters does not turn the datagram away because of its length.
def Admitted (count : Nat) (d : Bytes) : Prop :=
  if maxPayload < mpiHeader + count then Expected count (fragments count) d else mpiHeader + count ≤ d.length

instance : DecidablePred (Admitted count) := fun d =>
  inferInstanceAs <| Decidable <|
    if maxPayload < mpiHeader + count then Expected count (fragments count) d else mpiHeader + count ≤ d.length

def admitted (count : Nat) (t : List (Event Note)) : List Bytes :=
  (taken t).filter (Admitted count ·)

theorem mem_admitted {d : Bytes} : d ∈ admitted count t ↔ .took d ∈ t ∧ Admitted count d := by
  rw [admitted, List.mem_filter, mem_taken, decide_eq_true_eq]

theorem admitted_append (count : Nat) (t t' : List (Event Note)) :
    admitted count (t ++ t') = admitted count t ++ admitted count t' := by
  rw [admitted, taken_append, List.filter_append]
  rfl

theorem Tabled.admitted {l : Fragments} (h : Tabled count (fragments count) t l) (hl : maxPayload < mpiHeader + count) :
    taken t = admitted count t := by
  refine (List.filter_eq_self.mpr fun d hd => decide_eq_true ?_).symm
  have ⟨d', he, hexp⟩ := h.took _ (mem_taken.mp hd)
  cases he
  rwa [Admitted, if_pos hl]

theorem Filled.mono {ds' : List Bytes} (h : Filled count buf b ds) (hs : ds ⊆ ds') : Filled count buf b ds' :=
  fun j => (h j).imp_right (·.imp_right (·.mono hs))

theorem _mpiRecvTcpLoop_receives (h : Does (_mpiRecvTcpLoop p src (n + 1) (n + 1)) t (.ret m)) :
    ∃ q m, .recv q m ∈ t := by
  rw [_mpiRecvTcpLoop, if_neg (by omega), ProcessInfo.recv] at h
  split_ifs at h
  · change Does Prog.exit t _ at h
    nomatch h
  · change Does (Prog.recv _ _ _) t _ at h
    cases h with | step h _ =>
    cases h
    exact ⟨_, _, List.mem_cons_self⟩
  · change Does Prog.fault t _ at h
    nomatch h

-- A message that comes over the connection is received.
theorem _mpiRecvTcp_receives {a : Int × Mem} (h : Does (_mpiRecvTcp p buf count .char src) t (.ret a)) (h0 : 0 < count)
    (hc : count < 2 ^ 31) : (∃ q m, .recv q m ∈ t) ∨ a.2 = buf := by
  rw [_mpiRecvTcp, datatypeSizeInBytes_eq 1 rfl (by omega)] at h
  dsimp only at h
  rw [if_neg (by omega)] at h
  by_cases hl : mpiHeader + count < 2 ^ 31
  case neg =>
    rw [if_pos (overflow_neg (by omega) (by omega))] at h
    have ⟨_, ha⟩ := h.of_ret
    exact .inr (Prog.ret.inj ha ▸ rfl)
  case pos =>
    have ht : i32 (mpiHeader + (1 * count : Nat)) = (mpiHeader + count : Nat) := by
      rw [Nat.one_mul]
      exact i32_natCast hl
    have ⟨n, hn⟩ := Nat.exists_eq_add_of_le' (show 1 ≤ mpiHeader + count by omega)
    rw [ht, if_neg (by omega), Int.toNat_natCast, hn] at h
    rcases h.of_bind with ⟨x, hx, he⟩ | ⟨t₁, t₂, m, rfl, h₁, _⟩
    · cases x with
      | ret m => exact .inl (_mpiRecvTcpLoop_receives hx)
      | _     => cases he
    · have ⟨q, m, hm⟩ := _mpiRecvTcpLoop_receives h₁
      exact .inl ⟨q, m, List.mem_append_left _ hm⟩

theorem recvLost_stores {y : Program (Int × Mem × ProcessInfo)} (h : Does (recvLost p buf count .char src tag) t y)
    (h0 : 0 < count) (hc : count < 2 ^ 31) (hs : .note (.stored b) ∈ t) (hr : ∀ q m, .recv q m ∉ t) : b = buf := by
  have hpacket := _mpiSendTcpLostPacket_keeps (φ := Quiet) p (fun _ _ => nofun) .nack p.rank src tag .send
  have htcp := _mpiRecvTcp_keeps (φ := Quiet) p (fun _ _ => nofun) buf count .char src
  rcases h.of_bind with ⟨x, hx, _⟩ | ⟨t₁, t₂, _, rfl, h₁, h₂⟩
  · exact absurd hs (not_stored hpacket hx)
  have hs := (List.mem_append.mp hs).resolve_left (not_stored hpacket h₁)
  rcases h₂.of_bind with ⟨x, hx, _⟩ | ⟨t₃, t₄, ⟨err, b'⟩, rfl, h₃, h₄⟩
  · exact absurd hs (not_stored htcp hx)
  have hs := (List.mem_append.mp hs).resolve_left (not_stored htcp h₃)
  have h₄ : Does (.note (.stored b') (countReceived p src >>= fun q => .ret (err, b', q))) t₄ y := h₄
  rw [stored_eq_of_note ((countReceived_keeps p src).bind fun _ _ => .done _) h₄ hs]
  rcases _mpiRecvTcp_receives h₃ h0 hc with ⟨q, m, hm⟩ | hb
  · exact absurd (List.mem_append_right _ (List.mem_append_left _ hm)) (hr q m)
  · exact hb

theorem recvDatagram_took {message : Bytes} (h : Does (Prog.recvDatagram len) t (.ret (some message))) :
    ∃ d, .took d ∈ t ∧ message = d.take len := by
  rcases h.of_recvfrom (I := fun u _ => u = []) (fun _ _ _ _ _ _ _ hn => nomatch hn) rfl with
    ⟨_, h⟩ | ⟨t₁, e, t₂, d, _, o, rfl, hI, hd, hn, hk⟩
  · contradiction
  · obtain ⟨rfl, ho⟩ := hk.of_ret
    cases ho
    cases hd
    case timeout => cases hn
    case took d =>
      cases hn
      exact ⟨d, by simp, rfl⟩

theorem filled_storeMessage {message : Bytes} (h0 : 0 < count)
    (h : storeMessage buf count count .char (some message) = .all b)
    (hm : ∀ x ∈ message.drop mpiHeader, DataByte ds x) :
    Filled count buf b ds := by
  simp only [storeMessage] at h
  split_ifs at h
  cases h
  rw [Int.toNat_natCast, show (MPIDatatype.char.sizeof?.getD 0) = 1 from rfl, genericNtoh_one]
  exact (Filled.write (fun _ => .inl rfl) (fun x hx => hm x (List.mem_of_mem_take hx)) 0).terminate h0

-- What is stored has come with a datagram that is long enough.
theorem storeMessage_admitted {d : Bytes} (hl : ¬maxPayload < mpiHeader + count)
    (h : storeMessage buf count count .char (some (d.take (mpiHeader + count))) = .all b) : Admitted count d := by
  simp only [storeMessage] at h
  split_ifs at h with hlen
  rw [List.length_take] at hlen
  rw [Admitted, if_neg hl]
  omega

-- A receive that has not got its message stores it only if it comes over the connection.
def Loses (x : Program α) (b buf : Mem) : Prop :=
  ∀ t y, Does x t y → .note (.stored b) ∈ t → (∀ q m, .recv q m ∉ t) → b = buf

section Continuations

variable {y : Program β} {Q : β → Prop} (hs : .note (.stored b) ∈ t) (hr : ∀ q m, .recv q m ∉ t)
  (h0 : 0 < count)
include hs hr h0

theorem fragments_stores {k : Received → Program β} {g : Fragments → Program β} (hl : maxPayload < mpiHeader + count)
    (h : Does (recvFragments count (fragments count) 1 .char >>= k) t y)
    (hlen : ∀ d ∈ admitted count t, d.length = maxPayload)
    (hall : ∀ l, k (.all l) = .note (.stored (assemble buf count (fragments count) 1 .char l.table)) (g l))
    (hg : ∀ l, Keeps Quiet (g l) Q) (hlost : Loses (k .lost) b buf) (hexit : k .exit = .exit)
    (hfault : k .fault = .fault) : Filled count buf b (admitted count t) := by
  have hquiet := recvFragments_keeps (φ := Quiet) (fun _ => nofun) nofun count (fragments count) 1 .char
  rcases h.of_bind with ⟨x, hx, _⟩ | ⟨t₁, t₂, r, rfl, h₁, h₂⟩
  · exact absurd hs (not_stored hquiet hx)
  have hs := (List.mem_append.mp hs).resolve_left (not_stored hquiet h₁)
  cases r with
  | fault => exact absurd hs (not_stored (Q := Q) .fault (hfault ▸ h₂))
  | exit  => exact absurd hs (not_stored (Q := Q) .exit (hexit ▸ h₂))
  | lost  =>
    rw [hlost t₂ y h₂ hs fun q m hm => hr q m (List.mem_append_right _ hm)]
    exact fun _ => .inl rfl
  | all l =>
    have htab := recvFragments_tabled h₁
    rw [hall] at h₂
    rw [stored_eq_of_note (hg l) h₂ hs, admitted_append]
    rw [admitted_append, ← htab.admitted hl] at hlen
    have hbytes := htab.table fun d hd => hlen d (List.mem_append_left _ hd)
    rw [htab.admitted hl] at hbytes
    exact (filled_assemble h0 hbytes _).mono (List.subset_append_left _ _)

theorem datagram_stores {lost : Program β} {g : Mem → Program β} (hl : ¬maxPayload < mpiHeader + count)
    (h : Does (do
      match storeMessage buf count count .char (← Prog.recvDatagram (mpiHeader + count)) with
      | .fault => .fault
      | .lost  => lost
      | .all b => do
        takeNote (.stored b)
        g b) t y)
    (hg : ∀ b, Keeps Quiet (g b) Q) (hlost : Loses lost b buf) : Filled count buf b (admitted count t) := by
  have hquiet := recvDatagram_keeps (φ := Quiet) (fun _ => nofun) nofun (mpiHeader + count)
  rcases h.of_bind with ⟨x, hx, _⟩ | ⟨t₁, t₂, m, rfl, h₁, h₂⟩
  · exact absurd hs (not_stored hquiet hx)
  have hs := (List.mem_append.mp hs).resolve_left (not_stored hquiet h₁)
  cases hm : storeMessage buf count count .char m with
  | fault =>
    rw [hm] at h₂
    exact absurd hs (not_stored (Q := Q) .fault h₂)
  | lost =>
    rw [hm] at h₂
    rw [hlost t₂ y h₂ hs fun q m hm => hr q m (List.mem_append_right _ hm)]
    exact fun _ => .inl rfl
  | all b' =>
    rw [hm] at h₂
    rw [stored_eq_of_note (hg b') h₂ hs, admitted_append]
    cases m with
    | none => cases hm
    | some message =>
      obtain ⟨d, hd, rfl⟩ := recvDatagram_took h₁
      have hmem := mem_admitted.mpr ⟨hd, storeMessage_admitted hl hm⟩
      refine (filled_storeMessage h0 hm fun x hx => ?_).mono (List.subset_append_left _ _)
      have ⟨i, hi⟩ := List.mem_iff_getElem?.mp hx
      rw [List.getElem?_drop, List.getElem?_take] at hi
      split at hi
      case isTrue  => exact ⟨d, hmem, i, hi⟩
      case isFalse => contradiction

end Continuations

-- What a program stores without a message over the connection consists of bytes of the datagrams it has not turned
-- away, where these are as long as they should be.
def Stores (count : Nat) (buf : Mem) (x : Program α) : Prop :=
  ∀ t y b, Does x t y → .note (.stored b) ∈ t → (∀ q m, .recv q m ∉ t) →
    (maxPayload < mpiHeader + count → ∀ d ∈ admitted count t, d.length = maxPayload) →
      Filled count buf b (admitted count t)

theorem Stores.bind {Q : β → Prop} {x : Program α} {g : α → Program β} (hx : Stores count buf x)
    (hg : ∀ a, Keeps Quiet (g a) Q) : Stores count buf (x >>= g) := by
  intro t y b h hs hr hlen
  rcases h.of_bind with ⟨z, hz, _⟩ | ⟨t₁, t₂, a, rfl, h₁, h₂⟩
  · exact hx t z b hz hs hr hlen
  · rw [admitted_append] at hlen ⊢
    have hs := (List.mem_append.mp hs).resolve_right (not_stored (hg a) h₂)
    exact (hx t₁ _ b h₁ hs (fun q m hm => hr q m (List.mem_append_left _ hm))
      fun hl d hd => hlen hl d (List.mem_append_left _ hd)).mono (List.subset_append_left _ _)

variable (p src buf) (hc : count < 2 ^ 31) (h0 : 0 < count)
include hc h0

variable (tag) in
theorem mpiRecv_stores : Stores count buf (mpiRecv p buf count .char src tag) := by
  intro t y b h hs hr hlen
  have hlost : Loses (recvLost p buf count .char src tag) b buf := fun t y h hs hr => recvLost_stores h h0 hc hs hr
  by_cases hl : mpiHeader + count < 2 ^ 31
  case neg =>
    rw [mpiRecv_overflow _ _ _ (by omega) hc] at h
    obtain ⟨rfl, _⟩ := h.of_ret
    exact absurd hs List.not_mem_nil
  case pos =>
    by_cases hp : maxPayload < mpiHeader + count
    case pos =>
      rw [mpiRecv_multiple rfl (by rwa [Nat.one_mul]) (by rwa [Nat.one_mul]), Nat.one_mul] at h
      exact fragments_stores hs hr h0 hp h (hlen hp) (fun _ => if_neg (terminates h0))
        (fun l => (countReceived_keeps p src).bind fun q _ =>
          (_mpiSendTcpLostPacket_keeps q (fun _ _ => nofun) _ _ _ _ _).bind fun _ _ => .done _) hlost rfl rfl
    case neg =>
      rw [mpiRecv_single rfl ⟨h0, by omega⟩, Nat.one_mul] at h
      exact datagram_stores hs hr h0 hp h (fun _ => (countReceived_keeps p src).bind fun _ _ => .done _) hlost

theorem mpiRecvNoAck_stores : Stores count buf (mpiRecvNoAck p buf count .char src) := by
  intro t y b h hs hr hlen
  have hlost : Loses (.ret (-1, buf, p) : Program (Int × Mem × ProcessInfo)) b buf := fun t y h hs _ => by
    obtain ⟨rfl, _⟩ := h.of_ret
    exact absurd hs List.not_mem_nil
  by_cases hl : mpiHeader + count < 2 ^ 31
  case neg =>
    rw [mpiRecvNoAck_overflow _ _ (by omega) hc] at h
    obtain ⟨rfl, _⟩ := h.of_ret
    exact absurd hs List.not_mem_nil
  case pos =>
    by_cases hp : maxPayload < mpiHeader + count
    case pos =>
      rw [mpiRecvNoAck_multiple rfl (by rwa [Nat.one_mul]) (by rwa [Nat.one_mul]), Nat.one_mul] at h
      exact fragments_stores hs hr h0 hp h (hlen hp) (fun _ => if_neg (terminates h0))
        (fun l => (countReceived_keeps p src).bind fun _ _ => .done _) hlost rfl rfl
    case neg =>
      rw [mpiRecvNoAck_single rfl ⟨h0, by omega⟩, Nat.one_mul] at h
      exact datagram_stores hs hr h0 hp h (fun _ => (countReceived_keeps p src).bind fun _ _ => .done _) hlost

end Stores

end Mpi

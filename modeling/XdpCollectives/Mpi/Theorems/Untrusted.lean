import XdpCollectives.Mpi.Theorems.Assembly

-- Receives that are given datagrams with any headers.
namespace Mpi

open Memory Wire Process

variable {p : ProcessInfo} {count N : Nat} {ds xs : List Bytes} {d : Bytes} {l : Fragments} {buf b : Mem}

-- The datagram names a place in the table, and either the elements that it has or so few that there is no memory for
-- them.
structure Sound (N : Nat) (d : Bytes) : Prop where
  seq : (Header.decode d).seq.toNat < N
  len : (Header.decode d).len.toInt ≤ payloadSize
  one : (Header.decode d).len.toInt ≠ -1

-- The loop over the fragments goes on after these datagrams, if they can be received at all.
structure Open (count : Nat) (ds : List Bytes) : Prop where
  pos   : ∀ d ∈ ds, 0 ≤ (Header.decode d).len.toInt
  total : (ds.map lenOf).sum < count

-- The number of elements in the last of the datagrams with this number.
def lastLen (ds : List Bytes) (i : Nat) : Nat :=
  ((ds.reverse.find? fun d => (Header.decode d).seq.toNat = i).map lenOf).getD 0

-- Every datagram that the loop gets to is sound, and when one completes the message, the last datagrams with each
-- number have room in it.
structure Tame (count : Nat) (ds : List Bytes) : Prop where
  sound : ∀ xs d, xs ++ [d] <+: ds → Open count xs → Sound (fragments count) d
  room  : ∀ xs d, xs ++ [d] <+: ds → Open count xs → 0 ≤ (Header.decode d).len.toInt →
    count ≤ ((xs ++ [d]).map lenOf).sum → ((List.range (fragments count)).map (lastLen (xs ++ [d]))).sum ≤ count

theorem Sound.fits (h : Sound N d) (hp : 0 ≤ (Header.decode d).len.toInt) : Fits N 1 d :=
  ⟨h.seq, hp, by rw [Nat.cast_one, Int.one_mul]; exact h.len⟩

theorem Open.dropLast (h : Open count (xs ++ [d])) : Open count xs := by
  refine ⟨fun x hx => h.pos x (List.mem_append_left _ hx), ?_⟩
  have ht := h.total
  rw [List.map_append, List.sum_append] at ht
  omega

section Table

theorem addAll_find (ds : List Bytes) (j : Nat) : (addAll 1 ⟨fun _ => none, 0, 0⟩ ds).table j =
    (ds.reverse.find? fun d => (Header.decode d).seq.toNat = j).map (elementsOf 1) := by
  induction ds using List.reverseRecOn
  case nil => rfl
  case append_singleton ds d hi =>
    rw [addAll_concat, Fragments.add_table, List.reverse_append, List.reverse_singleton, List.singleton_append]
    by_cases hj : (Header.decode d).seq.toNat = j
    case pos =>
      rw [List.find?_cons_of_pos (by simpa using hj), ← hj, Function.update_self]
      rfl
    case neg => rw [List.find?_cons_of_neg (by simpa using hj), Function.update_of_ne (Ne.symm hj), hi]

theorem lensTo_lastLen (hf : ∀ d ∈ ds, Fits N 1 d) (k : Nat) :
    lensTo 1 (addAll 1 ⟨fun _ => none, 0, 0⟩ ds).table k = ((List.range k).map (lastLen ds)).sum := by
  rw [lensTo]
  congr 2
  funext i
  rw [lenAt, addAll_find, lastLen]
  cases hd : ds.reverse.find? fun d => (Header.decode d).seq.toNat = i with
  | none   => rfl
  | some d =>
    have hm : d ∈ ds := List.mem_reverse.mp (List.mem_of_find?_eq_some hd)
    have hl : (elementsOf 1 d).length = 1 * lenOf d :=
      elementsOf_length (rfl : MPIDatatype.char.sizeof? = some 1) (hf d hm)
    simp [hl]

end Table

section Loop

-- A `char` takes one byte, also where its number is negative.
theorem datatypeSizeInBytes_char (len : BitVec 32) : datatypeSizeInBytes len.toInt .char = len.toInt := by
  have hge := len.le_toInt
  have hlt := len.toInt_lt
  simp only [datatypeSizeInBytes, MPIDatatype.sizeof?, i32, Int.bmod_def]
  omega

theorem recvFragment_sound (he : Expected count N d) (h : Sound N d) (hn : (Header.decode d).len.toInt < 0) :
    recvFragment count N 1 .char l (some (d.take maxPayload)) = .inr .exit := by
  have h1 := h.one
  rw [recvFragment_expected he]
  simp only [datatypeSizeInBytes_char]
  rw [if_neg (Nat.not_le_of_lt h.seq), if_pos (by omega)]

theorem recvFragment_unsound (he : Expected count N d) (h : ¬Sound N d) :
    recvFragment count N 1 .char l (some (d.take maxPayload)) = .inr .fault := by
  rw [recvFragment_expected he]
  simp only [datatypeSizeInBytes_char]
  by_cases hseq : N ≤ (Header.decode d).seq.toNat
  case pos => rw [if_pos hseq]
  case neg =>
    have hlt := (Header.decode d).len.toInt_lt
    have hlen : payloadSize < (Header.decode d).len.toInt ∨ (Header.decode d).len.toInt = -1 := by
      by_contra hc
      rw [not_or, not_lt] at hc
      exact h ⟨Nat.not_le.mp hseq, hc.left, hc.right⟩
    generalize (Header.decode d).len.toInt = len at hlt hlen
    have hu : payloadSize < u64 len := by
      rcases hlen with hlen | rfl
      · simp only [u64]
        omega
      · decide
    rw [if_neg hseq, if_neg (by omega), if_pos (.inl (by rwa [Nat.one_mul]))]

variable (hc : count < 2 ^ 31)
include hc

theorem Open.total_concat (ho : Open count xs) (d : Bytes) :
    (addAll 1 ⟨fun _ => none, 0, 0⟩ (xs ++ [d])).total = ((xs ++ [d]).map lenOf).sum := by
  have hd := (Header.decode d).len.toInt_lt
  have hlt := ho.total
  rw [addAll_total]
  · exact Nat.zero_add _
  · simp only [List.map_append, List.sum_append, List.map_cons, List.map_nil, List.sum_cons, List.sum_nil, lenOf]
    omega

variable (hds : ∀ d ∈ ds, Expected count N d)
include hds

theorem loop_open (hx : xs ⊆ ds) (hf : ∀ x ∈ xs, Fits N 1 x) (ho : Open count xs) (rest : List (Option Bytes)) :
    Prog.loop maxPayload (recvFragment count N 1 .char) ⟨fun _ => none, 0, 0⟩ (xs.map some ++ rest) =
      Prog.loop maxPayload (recvFragment count N 1 .char) (addAll 1 ⟨fun _ => none, 0, 0⟩ xs) rest := by
  have ht := ho.total
  have hsound : ∀ x ∈ xs, Expected count N x ∧ Fits N 1 x := fun x h => ⟨hds x (hx h), hf x h⟩
  rcases loop_addAll (l := ⟨fun _ => none, 0, 0⟩) (rfl : MPIDatatype.char.sizeof? = some 1) hsound rest with
    ⟨i, _, _, hsize, _⟩ | ⟨_, he⟩
  · have hle : ((xs.take i).map lenOf).sum ≤ (xs.map lenOf).sum :=
      (List.Sublist.map lenOf (List.take_sublist i xs)).sum_le_sum fun _ _ => Nat.zero_le _
    rw [addAll_total (by simp only; omega), Nat.zero_add] at hsize
    omega
  · exact he

-- What the loop may end with.
def Ends (count N : Nat) : Fragments ⊕ Received → Prop
  | .inl _        => True
  | .inr .exit    => True
  | .inr (.all l) => lensTo 1 l.table N ≤ count
  | _             => False

theorem loop_tame (ht : Tame count ds) (hN : N = fragments count) {zs : List Bytes} (he : ds = xs ++ zs)
    (ho : Open count xs) (hf : ∀ x ∈ xs, Fits N 1 x) :
    Ends count N (Prog.loop maxPayload (recvFragment count N 1 .char) (addAll 1 ⟨fun _ => none, 0, 0⟩ xs)
      (zs.map some)).1 := by
  induction zs generalizing xs
  case nil => trivial
  case cons z zs hi =>
    have hpre : xs ++ [z] <+: ds := ⟨zs, by simp [he]⟩
    have hexp := hds z (by simp [he])
    have hsound := hN ▸ ht.sound xs z hpre ho
    rw [List.map_cons, Prog.loop, Option.map_some]
    rcases lt_or_ge (Header.decode z).len.toInt 0 with hn | hp
    · rw [recvFragment_sound hexp hsound hn]
      trivial
    · have hfits := hsound.fits hp
      have hall : ∀ x ∈ xs ++ [z], Fits N 1 x := by
        intro x hx
        rcases List.mem_append.mp hx with hx | hx
        · exact hf x hx
        · rwa [List.mem_singleton.mp hx]
      have hpos : ∀ x ∈ xs ++ [z], 0 ≤ (Header.decode x).len.toInt := fun x hx => (hall x hx).pos
      rw [recvFragment_fits rfl hexp hfits, ← addAll_concat, ho.total_concat hc]
      by_cases hle : count ≤ ((xs ++ [z]).map lenOf).sum
      case pos =>
        rw [if_pos hle, Ends, lensTo_lastLen hall, hN]
        exact ht.room xs z hpre ho hp hle
      case neg =>
        rw [if_neg hle]
        exact hi (by simp [he]) ⟨hpos, Nat.not_le.mp hle⟩ hall

end Loop

-- The program keeps to the table, to the datagrams and to the buffer while it gets these datagrams. After the buffer
-- has been stored, and after a timeout, it does not use them anymore.
def KeepsWithin (count : Nat) (ds : List Bytes) (recv : Mem → Program (Int × Mem × ProcessInfo)) : Prop :=
  ∀ buf t y, Does (recv buf) t y → results t <+: ds.map some →
    (y = .fault → ∃ b, .note (.stored b) ∈ t) ∧ ∀ b, .note (.stored b) ∈ t → Inside 1 count buf b

-- A receive that puts the fragments together when it has them all.
structure Assembles (count N : Nat) (recv : Mem → Program (Int × Mem × ProcessInfo))
    (k : Mem → Received → Program (Int × Mem × ProcessInfo)) : Prop where
  eq    : ∀ buf, recv buf = recvFragments count N 1 .char >>= k buf
  fault : ∀ buf, k buf .fault = .fault
  exit  : ∀ buf, k buf .exit = .exit
  all   : ∀ buf l, ∃ g, k buf (.all l) = .note (.stored (assemble buf count N 1 .char l.table)) g ∧
    Keeps Quiet g fun _ => True

section Assembles

theorem not_mem_results (us : List (Option Bytes)) (b : Mem) :
    Event.note (Note.stored b) ∉ us.map Event.ofResult := by
  intro hm
  have ⟨r, _, he⟩ := List.mem_map.mp hm
  cases r <;> contradiction

variable {recv : Mem → Program (Int × Mem × ProcessInfo)} {k : Mem → Received → Program (Int × Mem × ProcessInfo)}
  (ha : Assembles count N recv k)
  (hds : ∀ d ∈ ds, Expected count N d) (hc : count < 2 ^ 31) (hN : N = fragments count)
include ha hds hc hN

theorem Assembles.keepsWithin (h0 : 0 < count) (ht : Tame count ds) : KeepsWithin count ds recv := by
  intro buf t y hd hr
  have hends := loop_tame hc hds ht hN (List.nil_append ds).symm ⟨by simp, h0⟩ (by simp)
  rcases hd.fed hr with ⟨⟨us, rfl⟩, hy⟩ | ⟨us, t', rfl, _, hw, hd'⟩
  · refine ⟨fun hf => ?_, fun b hb => absurd hb (not_mem_results us b)⟩
    subst hf
    contradiction
  rw [ha.eq, recvFragments, Prog.feed_loop_bind] at hw hd'
  rw [addAll, List.foldl_nil] at hends
  generalize Prog.loop maxPayload _ _ _ = o at hends hw hd'
  obtain ⟨o, rest⟩ := o
  cases o with
  | inl l => exact absurd trivial hw
  | inr o =>
    cases o with
    | fault => contradiction
    | lost  => contradiction
    | exit  =>
      dsimp only at hd'
      rw [ha.exit, Prog.feed_exit] at hd'
      cases hd' with
      | refl      => simp [not_mem_results us]
      | step hg _ => cases hg
    | all l =>
      obtain ⟨g, hk, hg⟩ := ha.all buf l
      dsimp only at hd'
      rw [hk, Prog.feed_note] at hd'
      constructor
      · rintro rfl
        cases hd' with | step hg _ =>
        cases hg
        exact ⟨_, List.mem_append_right _ List.mem_cons_self⟩
      · intro b hb
        have hb := (List.mem_append.mp hb).resolve_left (not_mem_results us b)
        rw [stored_eq_of_note hg hd' hb, assemble_eq]
        exact placed_inside (MPIDatatype.sizeof?_elementSize (t := .char) rfl) (.inl rfl) h0 hends

variable (hk : KeepsWithin count ds recv)
include hk

omit ha hds hc hN in
-- What the receive does after the first of the datagrams.
theorem KeepsWithin.fed (hx : xs <+: ds) (buf : Mem)
    (hd : Does ((recv buf).feed (xs.map some)).1 t y) (ht : results t = []) :
    (y = .fault → ∃ b, .note (.stored b) ∈ t) ∧ ∀ b, .note (.stored b) ∈ t → Inside 1 count buf b := by
  have ⟨us, hrs, hu⟩ := does_feed (recv buf) (xs.map some)
  have hpre : results (us.map Event.ofResult ++ t) <+: ds.map some := by
    rw [results_append, results_map, ht, List.append_nil]
    exact (hrs ▸ List.prefix_append us _).trans (hx.map some)
  have ⟨hf, hb⟩ := hk buf _ _ (hu.trans hd) hpre
  refine ⟨fun hy => ?_, fun b hm => hb b (List.mem_append_right _ hm)⟩
  have ⟨b, hm⟩ := hf hy
  exact ⟨b, (List.mem_append.mp hm).resolve_left (not_mem_results us b)⟩

omit hN in
theorem Assembles.sound (hf : ∀ x ∈ xs, Fits N 1 x) (ho : Open count xs) (hx : xs ++ [d] <+: ds) : Sound N d := by
  by_contra hs
  have hsub := hx.subset
  have hloop := loop_open hc hds (fun x hm => hsub (List.mem_append_left _ hm)) hf ho [some d]
  have hexp := hds d (hsub (by simp))
  have hfed : ((recv fun _ => 0).feed ((xs ++ [d]).map some)).1 = .fault := by
    rw [ha.eq, recvFragments, Prog.feed_loop_bind, List.map_append, List.map_cons, List.map_nil, hloop, Prog.loop,
      Option.map_some, recvFragment_unsound hexp hs]
    dsimp only
    rw [ha.fault, Prog.feed_fault]
  have hrun : Does ((recv fun _ => 0).feed ((xs ++ [d]).map some)).1 [] .fault := by
    rw [hfed]
    exact .refl
  obtain ⟨b, hb⟩ := (hk.fed hx (fun _ => 0) hrun rfl).left rfl
  contradiction

omit hN in
theorem Assembles.fits (hx : xs <+: ds) (ho : Open count xs) : ∀ x ∈ xs, Fits N 1 x := by
  induction xs using List.reverseRecOn
  case nil => exact nofun
  case append_singleton xs x hi =>
    have hf := hi ((List.prefix_append xs [x]).trans hx) ho.dropLast
    have hfits := (ha.sound hds hc hk hf ho.dropLast hx).fits (ho.pos x (by simp))
    intro y hy
    rcases List.mem_append.mp hy with hy | hy
    · exact hf y hy
    · rwa [List.mem_singleton.mp hy]

omit hN in
-- What the loop has put together does not depend on the buffer as far as the fragments reach.
theorem Assembles.room (hx : xs ++ [d] <+: ds) (ho : Open count xs) (hp : 0 ≤ (Header.decode d).len.toInt)
    (hle : count ≤ ((xs ++ [d]).map lenOf).sum) : ((List.range N).map (lastLen (xs ++ [d]))).sum ≤ count := by
  have hsub := hx.subset
  have hf := ha.fits hds hc hk ((List.prefix_append xs [d]).trans hx) ho
  have hd := (ha.sound hds hc hk hf ho hx).fits hp
  have hall : ∀ x ∈ xs ++ [d], Fits N 1 x := by
    intro x hx
    rcases List.mem_append.mp hx with hx | hx
    · exact hf x hx
    · rwa [List.mem_singleton.mp hx]
  have hloop := loop_open hc hds (fun x hm => hsub (List.mem_append_left _ hm)) hf ho [some d]
  have hin (buf : Mem) : Inside 1 count buf
      (placed 1 .char (addAll 1 ⟨fun _ => none, 0, 0⟩ (xs ++ [d])).table buf count N).1 := by
    have ⟨g, hg, _⟩ := ha.all buf (addAll 1 ⟨fun _ => none, 0, 0⟩ (xs ++ [d]))
    have hrun : Does ((recv buf).feed ((xs ++ [d]).map some)).1 [.note (.stored
        (placed 1 .char (addAll 1 ⟨fun _ => none, 0, 0⟩ (xs ++ [d])).table buf count N).1)] g := by
      rw [ha.eq, recvFragments, Prog.feed_loop_bind, List.map_append, List.map_cons, List.map_nil, hloop, Prog.loop,
        Option.map_some, recvFragment_fits rfl (hds d (hsub (by simp))) hd, ← addAll_concat, ho.total_concat hc,
        if_pos hle]
      dsimp only
      rw [hg, Prog.feed_note, assemble_eq]
      exact .step .note .refl
    exact (hk.fed hx buf hrun rfl).right _ List.mem_cons_self
  by_contra hlt
  rw [← lensTo_lastLen hall] at hlt
  let table := (addAll 1 ⟨fun _ => none, 0, 0⟩ (xs ++ [d])).table
  have hj : count < 1 * lensTo 1 table N := by rwa [Nat.one_mul, ← Nat.not_le]
  have hsame : (placed 1 .char table (fun _ => 0) count N).1 count =
      (placed 1 .char table (fun _ => 1) count N).1 count :=
    placed_written (MPIDatatype.sizeof?_elementSize (t := .char) rfl) _ hj
  rw [hin _ _ (by omega), hin _ _ (by omega)] at hsame
  contradiction

omit hk in
theorem Assembles.keepsWithin_iff (h0 : 0 < count) : KeepsWithin count ds recv ↔ Tame count ds := by
  subst hN
  refine ⟨fun hk => ⟨fun xs d hx ho => ?_, fun xs d hx ho => ha.room hds hc hk hx ho⟩, ha.keepsWithin hds hc rfl h0⟩
  exact ha.sound hds hc hk (ha.fits hds hc hk ((List.prefix_append xs [d]).trans hx) ho) ho hx

end Assembles

section Receives

variable (p) (source tag : Int) (hp : maxPayload < mpiHeader + count) (hl : mpiHeader + count < 2 ^ 31)
include hp hl

theorem mpiRecv_assembles :
    ∃ k, Assembles count (fragments count) (fun buf => mpiRecv p buf count .char source tag) k := by
  have h0 : 0 < count := by
    simp only [maxPayload, mpiHeader] at hp
    omega
  apply Exists.intro
  apply Assembles.mk
  case eq =>
    intro buf
    rw [mpiRecv_multiple rfl (by rwa [Nat.one_mul]) (by rwa [Nat.one_mul]), Nat.one_mul]
  case fault => exact fun _ => rfl
  case exit => exact fun _ => rfl
  case all =>
    exact fun buf l => ⟨_, if_neg (terminates h0), (countReceived_keeps p source).bind fun q _ =>
      (_mpiSendTcpLostPacket_keeps q (by rintro _ _ _ ⟨⟩) _ _ _ _ _).bind fun _ _ => .done _⟩

theorem mpiRecvNoAck_assembles :
    ∃ k, Assembles count (fragments count) (fun buf => mpiRecvNoAck p buf count .char source) k := by
  have h0 : 0 < count := by
    simp only [maxPayload, mpiHeader] at hp
    omega
  apply Exists.intro
  apply Assembles.mk
  case eq =>
    intro buf
    rw [mpiRecvNoAck_multiple rfl (by rwa [Nat.one_mul]) (by rwa [Nat.one_mul]), Nat.one_mul]
  case fault => exact fun _ => rfl
  case exit => exact fun _ => rfl
  case all =>
    exact fun buf l => ⟨_, if_neg (terminates h0), (countReceived_keeps p source).bind fun _ _ => .done _⟩

end Receives

theorem keepsWithin_ret {recv : Mem → Program (Int × Mem × ProcessInfo)} {x : Mem → Int × Mem × ProcessInfo}
    (h : ∀ buf, recv buf = .ret (x buf)) :
    KeepsWithin count ds recv := by
  intro buf t y hd _
  rw [h] at hd
  obtain ⟨rfl, rfl⟩ := hd.of_ret
  exact ⟨nofun, nofun⟩

-- Which datagrams of full length drive no receive of these characters out of its table, the datagrams or its buffer.
theorem receives_within_iff (hp : maxPayload < mpiHeader + count) (hc : count < 2 ^ 31)
    (hds : ∀ d ∈ ds, d.length = maxPayload) :
    (∀ (p : ProcessInfo) (source tag : Int),
      KeepsWithin count ds (fun buf => mpiRecv p buf count .char source tag) ∧
        KeepsWithin count ds fun buf => mpiRecvNoAck p buf count .char source) ↔
    2 ^ 31 ≤ mpiHeader + count ∨ Tame count ds := by
  have h0 : 0 < count := by
    simp only [maxPayload, mpiHeader] at hp
    omega
  by_cases hl : 2 ^ 31 ≤ mpiHeader + count
  case pos =>
    exact iff_of_true (fun p source tag => ⟨keepsWithin_ret fun buf => mpiRecv_overflow _ _ _ hl hc,
      keepsWithin_ret fun buf => mpiRecvNoAck_overflow _ _ hl hc⟩) (.inl hl)
  case neg =>
    rw [Nat.not_le] at hl
    have hexp : ∀ d ∈ ds, Expected count (fragments count) d := fun d hd => .inl (hds d hd).ge
    have hrecv (p : ProcessInfo) (source tag : Int) :=
      (mpiRecv_assembles p source tag hp hl).choose_spec.keepsWithin_iff hexp hc rfl h0
    have hnoAck (p : ProcessInfo) (source : Int) :=
      (mpiRecvNoAck_assembles p source hp hl).choose_spec.keepsWithin_iff hexp hc rfl h0
    rw [or_iff_right (Nat.not_le.mpr hl)]
    constructor
    · intro h
      exact (hrecv _ _ _).mp (h (.init 2 0 fun _ => 0) 0 0).left
    · intro ht p source tag
      exact ⟨(hrecv p source tag).mpr ht, (hnoAck p source).mpr ht⟩

-- A datagram of full length with this number.
def fullDatagram (seq : Nat) : Bytes :=
  (header (.init 2 0 fun _ => 0) 0 1 .send .char 1424 0 seq 0).encode ++ List.replicate 1424 65

theorem fullDatagram_length (seq : Nat) : (fullDatagram seq).length = maxPayload := by
  rw [fullDatagram, List.length_append, Header.encode_length, List.length_replicate]
  rfl

theorem decode_fullDatagram (seq : Nat) : Header.decode (fullDatagram seq) =
    header (.init 2 0 fun _ => 0) 0 1 .send .char 1424 0 seq 0 :=
  Header.decode_encode ..

-- The two datagrams complete a message of 2848 characters.
theorem receives_within_iff_both :
    let p : ProcessInfo := .init 2 1 fun _ => 0
    KeepsWithin 2848 [fullDatagram 0, fullDatagram 1] (fun buf => mpiRecv p buf 2848 .char 0 1) ∧
      KeepsWithin 2848 [fullDatagram 0, fullDatagram 1] fun buf => mpiRecvNoAck p buf 2848 .char 0 := by
  have hds : ∀ d ∈ [fullDatagram 0, fullDatagram 1], d.length = maxPayload := by
    simp only [List.forall_mem_cons, fullDatagram_length, List.not_mem_nil]
    simp
  refine (receives_within_iff (by decide) (by decide) hds).mpr (.inr ?_) _ 0 1
  have hcases {xs : List Bytes} {d : Bytes} (h : xs ++ [d] <+: [fullDatagram 0, fullDatagram 1]) :
      xs = [] ∧ d = fullDatagram 0 ∨ xs = [fullDatagram 0] ∧ d = fullDatagram 1 := by
    cases xs with
    | nil => exact .inl ⟨rfl, (List.cons_prefix_cons.mp h).left⟩
    | cons x xs =>
      obtain ⟨rfl, ht⟩ := List.cons_prefix_cons.mp h
      have hl := ht.length_le
      obtain rfl : xs = [] := List.length_eq_zero_iff.mp (by simpa using hl)
      exact .inr ⟨rfl, (List.cons_prefix_cons.mp ht).left⟩
  have hlen (seq : Nat) : lenOf (fullDatagram seq) = 1424 := by
    rw [lenOf, decode_fullDatagram]
    exact show (BitVec.ofInt 32 1424).toInt.toNat = 1424 by decide
  constructor
  case sound =>
    intro xs d h _
    rcases hcases h with ⟨_, rfl⟩ | ⟨_, rfl⟩ <;>
      constructor <;>
        (rw [decode_fullDatagram]
         decide)
  case room =>
    intro xs d h _ _ hle
    rcases hcases h with ⟨rfl, rfl⟩ | ⟨rfl, rfl⟩
    · simp [hlen] at hle
    · have h₀ : (Header.decode (fullDatagram 0)).seq.toNat = 0 := by rw [decode_fullDatagram]; rfl
      have h₁ : (Header.decode (fullDatagram 1)).seq.toNat = 1 := by rw [decode_fullDatagram]; rfl
      simp [show fragments 2848 = 2 from rfl, List.range_succ, lastLen, h₀, h₁, hlen]

-- A fragment of an earlier message has a number that the table has no place for.
theorem not_receives_within :
    ¬∀ (count : Nat) (ds : List Bytes), maxPayload < mpiHeader + count → count < 2 ^ 31 →
      (∀ d ∈ ds, d.length = maxPayload) → ∀ (p : ProcessInfo) (source tag : Int),
        KeepsWithin count ds (fun buf => mpiRecv p buf count .char source tag) ∧
          KeepsWithin count ds fun buf => mpiRecvNoAck p buf count .char source := by
  intro h
  have hds : ∀ d ∈ [fullDatagram 2], d.length = maxPayload := by
    intro d hd
    rw [List.mem_singleton.mp hd, fullDatagram_length]
  have hk := (h 1425 [fullDatagram 2] (by decide) (by decide) hds (.init 2 1 fun _ => 0) 0 0).right
  have hl : maxPayload < mpiHeader + 1425 := by decide
  have ha := (mpiRecvNoAck_assembles (.init 2 1 fun _ => 0) 0 hl (by decide)).choose_spec
  have ht := (ha.keepsWithin_iff (fun d hd => .inl (hds d hd).ge) (by decide) rfl (by decide)).mp hk
  have hs := (ht.sound [] (fullDatagram 2) List.prefix_rfl ⟨nofun, by decide⟩).seq
  rw [decode_fullDatagram] at hs
  exact absurd hs (by decide)

end Mpi

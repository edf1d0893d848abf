import XdpCollectives.Mpi.Theorems.Datagrams

-- What receiving a message that takes several datagrams does, as a script.
namespace Mpi

open Memory Wire Process

theorem decodeField_take (size : Nat) (m : Bytes) : decodeField size (m.take size) = decodeField size m := by
  simp [decodeField, genericNtoh, genericHton, List.take_take]

-- The programs in the kernel leave what a receiver makes use of.
theorem SameMessage.decode (h : SameMessage d d') :
    (Header.decode d).root = (Header.decode d').root ∧ (Header.decode d).len = (Header.decode d').len ∧
      (Header.decode d).seq = (Header.decode d').seq := by
  have ⟨_, ht, hd⟩ := h
  have hroot : (d.drop 4).take 4 = (d'.drop 4).take 4 := by
    simpa [List.drop_take] using congrArg (List.drop 4) ht
  have hrest k : d.drop (16 + k) = d'.drop (16 + k) := by
    rw [← List.drop_drop, ← List.drop_drop, hd]
  refine ⟨?_, congrArg (decodeField 4) (hrest 8), congrArg (decodeField 8) (hrest 16)⟩
  simp only [Header.decode]
  rw [← decodeField_take, hroot, decodeField_take]

theorem SameMessage.decode_id (h : SameMessage d d') : (Header.decode d).id = (Header.decode d').id := by
  have hd : d.drop 40 = d'.drop 40 := by
    have := congrArg (List.drop 24) h.right.right
    rwa [List.drop_drop, List.drop_drop] at this
  exact congrArg (decodeField 8) hd

section Fragment

variable {μ : Medium} {p : ProcessInfo} {buf : Mem} {size N root dest seq : Nat} {tag : Int}
  {collective : MPICollective} {datatype : MPIDatatype} {me : Nat}

-- The length of a fragment of a message of characters.
def fragmentLen (size N seq : Nat) : Nat :=
  if payloadSize < size - seq * payloadSize then payloadSize else size - (N - 1) * payloadSize

variable (seq) in
theorem fragmentLen_le (h0 : 0 < size) (hN : fragments size = N) : fragmentLen size N seq ≤ payloadSize := by
  have ⟨h1, _, hle⟩ := fragments_spec h0
  rw [hN] at h1 hle
  have : N * payloadSize = (N - 1) * payloadSize + payloadSize := by
    rw [← Nat.succ_mul]
    congr 1
    omega
  rw [fragmentLen]
  split <;> omega

-- How much there is with the next fragment.
theorem fragmentLen_add (h0 : 0 < size) (hN : fragments size = N) (hseq : seq < N) :
    seq * payloadSize + fragmentLen size N seq = min ((seq + 1) * payloadSize) size := by
  have ⟨_, hlt, hle⟩ := fragments_spec h0
  rw [hN] at hlt hle
  rw [fragmentLen, Nat.succ_mul]
  have hpos : 0 < payloadSize := by decide
  rcases Nat.lt_or_ge (seq + 1) N with hs | hs
  case inl =>
    have : (seq + 1) * payloadSize ≤ (N - 1) * payloadSize := Nat.mul_le_mul_right _ (by omega)
    rw [Nat.succ_mul] at this
    rw [if_pos (by omega)]
    omega
  case inr =>
    obtain rfl : N = seq + 1 := by omega
    rw [Nat.succ_mul] at hle
    rw [Nat.add_sub_cancel] at hlt ⊢
    by_cases hc : payloadSize < size - seq * payloadSize
    case pos => omega
    case neg =>
      rw [if_neg hc]
      omega

theorem fragment_length (h0 : 0 < size) (hN : fragments size = N) :
    (fragment p buf size N 1 datatype root dest tag collective seq).length = maxPayload := by
  have hl : (if payloadSize < size - seq * payloadSize then payloadSize
      else size - (N - 1) * payloadSize) ≤ payloadSize := fragmentLen_le _ h0 hN
  have hg {k : Nat} {bs : Bytes} (hb : bs.length = 1 * k) : (genericHton 1 k bs).length = k := by
    rw [genericHton_length (by simp [ElementSize]) (by omega), Nat.one_mul]
  have hp : mpiHeader + payloadSize = maxPayload := rfl
  rw [fragment, List.length_append, Mem.read_length, List.length_append, Header.encode_length, hg (Mem.read_length ..)]
  omega

variable (buf size root dest seq tag collective datatype) in
theorem fragment_decode :
    let h := Header.decode (fragment p buf size N 1 datatype root dest tag collective seq)
    h.root = BitVec.ofInt 32 root ∧ h.len = BitVec.ofInt 32 (fragmentLen size N seq : Nat) ∧
      h.seq = BitVec.ofNat 64 seq := by
  simp only [fragment, List.append_assoc, Header.decode_encode]
  exact ⟨rfl, rfl, rfl⟩

theorem fits {len : Nat} (h : len ≤ payloadSize) :
    ¬(len : Int) + 1 < 0 ∧ ¬(payloadSize < 1 * len ∨ ((len : Int) + 1).toNat < 1 * len) := by
  omega

theorem fragmentLen_pos (h0 : 0 < size) (hN : fragments size = N) (hseq : seq < N) : 0 < fragmentLen size N seq := by
  have ⟨_, hlt, _⟩ := fragments_spec h0
  have hle : seq * payloadSize ≤ (N - 1) * payloadSize := Nat.mul_le_mul_right _ (by omega)
  have hadd := fragmentLen_add h0 hN hseq
  have hpos : 0 < payloadSize := by decide
  rw [hN] at hlt
  rw [Nat.succ_mul] at hadd
  omega

-- The bytes of the message that a fragment holds.
def piece (buf : Mem) (size N seq : Nat) : Bytes :=
  buf.read (seq * payloadSize) (fragmentLen size N seq)

variable (p buf size N root dest seq tag collective) in
theorem fragment_carries :
    ∃ h, Carries (fragment p buf size N 1 .char root dest tag collective seq) h (piece buf size N seq) := by
  have hl : (buf.read (seq * payloadSize) (fragmentLen size N seq)).length = fragmentLen size N seq := Mem.read_length
  simp only [fragment, Nat.one_mul]
  rw [show (if payloadSize < size - seq * payloadSize then payloadSize else size - (N - 1) * payloadSize) =
    fragmentLen size N seq from rfl, if_neg (by decide), genericHton_one hl, List.append_assoc]
  exact ⟨_, _, rfl⟩

-- What a receiver makes of a fragment.
theorem fragment_data {d : Bytes}
    (hd : SameMessage d (fragment p buf size N 1 .char root dest tag collective seq)) :
    genericNtoh 1 (fragmentLen size N seq) (d.drop mpiHeader) = piece buf size N seq := by
  have ⟨h, rest, he⟩ := fragment_carries p buf size N root dest seq tag collective
  have hl : (piece buf size N seq).length = fragmentLen size N seq := Mem.read_length
  rw [hd.drop_header, he, List.drop_left' h.encode_length]
  exact (genericHton_append (by rw [hl, Nat.one_mul])).trans (genericHton_one hl)

theorem mod_of_small (ht : total < 2 ^ 31) (hk : k ≤ payloadSize) : (total + k) % 2 ^ 64 = total + k := by
  simp only [payloadSize, maxPayload, mpiHeader] at hk
  omega

-- A fragment that comes while there is something to come.
theorem recvFragment_eq (h0 : 0 < size) (hsize : size < 2 ^ 31) (hN : fragments size = N) (hseq : seq < N)
    {l : Fragments} (hl : l.total < size) {d : Bytes}
    (hd : SameMessage d (fragment p buf size N 1 .char root dest tag collective seq)) :
    let l' : Fragments := {
      table := Function.update l.table seq (some (piece buf size N seq))
      total := l.total + fragmentLen size N seq
      root  := BitVec.ofInt 32 root }
    recvFragment size N 1 .char l (some d) = if size ≤ l'.total then .inr (.all l') else .inl l' := by
  have ⟨_, hlt, _⟩ := fragments_spec h0
  rw [hN] at hlt
  have hlen : d.length = maxPayload := hd.left.trans (fragment_length h0 hN)
  have ⟨hr, hln, hsq⟩ := hd.decode
  have ⟨hr', hln', hsq'⟩ := fragment_decode buf size root dest seq tag collective .char (p := p) (N := N)
  have hfl := fragmentLen_le seq h0 hN
  have hpre : seq * payloadSize ≤ (N - 1) * payloadSize := Nat.mul_le_mul_right _ (by omega)
  have hlen31 : (Header.decode d).len.toInt = (fragmentLen size N seq : Nat) := by
    rw [hln, hln']
    exact BitVec.toInt_ofInt_eq_self (by decide) (by omega)
      (by simp only [payloadSize, maxPayload, mpiHeader] at hfl; omega)
  have hseq64 : (Header.decode d).seq.toNat = seq := by
    rw [hsq, hsq', BitVec.toNat_ofNat]
    simp only [payloadSize, maxPayload, mpiHeader] at hlt hpre
    omega
  have hu : u64 ((fragmentLen size N seq : Nat) : Int) = fragmentLen size N seq :=
    u64_natCast (by simp only [payloadSize, maxPayload, mpiHeader] at hfl; omega)
  have harr : datatypeSizeInBytes (fragmentLen size N seq : Nat) .char = (fragmentLen size N seq : Nat) := by
    rw [datatypeSizeInBytes_eq 1 rfl (by simp only [payloadSize, maxPayload, mpiHeader] at hfl; omega), Nat.one_mul]
  have htotal : (l.total + fragmentLen size N seq) % 2 ^ 64 = l.total + fragmentLen size N seq :=
    mod_of_small (hl.trans hsize) hfl
  have hpad : d ++ List.replicate (maxPayload - maxPayload) 0 = d := by simp
  rw [recvFragment]
  simp only [hlen, hpad, hlen31, hseq64, hu, harr, htotal, fragment_data hd, hr, hr']
  rw [if_neg (by decide), if_neg (fun h => h.left rfl), if_neg (by omega), if_neg (fits hfl).left,
    if_neg (fits hfl).right]

-- The lengths of the fragments with these numbers.
def lengths (size N : Nat) (qs : List Nat) : Nat :=
  (qs.map (fragmentLen size N)).sum

theorem lengths_append (ps qs : List Nat) : lengths size N (ps ++ qs) = lengths size N ps + lengths size N qs := by
  simp [lengths]

theorem lengths_singleton (i : Nat) : lengths size N [i] = fragmentLen size N i := by
  simp [lengths]

-- The fragments with these numbers have come.
structure Collected (buf : Mem) (size N root : Nat) (qs : List Nat) (l : Fragments) : Prop where
  table : ∀ i, l.table i = if i ∈ qs then some (piece buf size N i) else none
  total : l.total = lengths size N qs
  root  : qs ≠ [] → l.root = BitVec.ofInt 32 root

theorem Collected.start (buf : Mem) (size N root : Nat) : Collected buf size N root [] ⟨fun _ => none, 0, 0⟩ where
  table _ := by simp
  total   := rfl
  root    := fun h => absurd rfl h

theorem Collected.next {l : Fragments} (hc : Collected buf size N root qs l) (i : Nat) :
    Collected buf size N root (qs ++ [i]) {
      table := Function.update l.table i (some (piece buf size N i))
      total := l.total + fragmentLen size N i
      root  := BitVec.ofInt 32 root } where
  table j := by
    by_cases h : j = i
    case pos => simp [h]
    case neg => simp [h, hc.table]
  total   := by rw [lengths_append, lengths_singleton, hc.total]
  root _  := rfl

-- The loop ends with the last of these fragments.
structure Suffices (size N : Nat) (qs : List Nat) : Prop where
  lt     : ∀ q ∈ qs, q < N
  before : lengths size N qs.dropLast < size
  after  : size ≤ lengths size N qs

theorem Suffices.ne_nil (h : Suffices size N qs) (h0 : 0 < size) : qs ≠ [] := by
  rintro rfl
  exact Nat.not_le_of_lt h0 h.after

variable (me) in
theorem recvFragments_from (hm : μ.mayTimeout me = false) (hsame : ∀ d, SameMessage (μ.copy me d) d) (h0 : 0 < size)
    (hsize : size < 2 ^ 31) (hN : fragments size = N) {l : Fragments} (hc : Collected buf size N root ps l)
    (hs : Suffices size N (ps ++ i :: qs)) :
    ∃ l' : Fragments, Collected buf size N root (ps ++ i :: qs) l' ∧
      Performs μ me (Prog.recvfrom maxPayload (recvFragment size N 1 .char) l .ret : Program Received)
        ((i :: qs).map fun i => .get (.udp me) (fragment p buf size N 1 .char root dest tag collective i))
        (.ret (.all l')) := by
  induction qs generalizing i ps l with
  | nil =>
    have hb := hs.before
    have ha := hs.after
    rw [List.dropLast_concat, ← hc.total] at hb
    rw [lengths_append, lengths_singleton, ← hc.total] at ha
    have hd := hsame (fragment p buf size N 1 .char root dest tag collective i)
    have ht : (μ.copy me (fragment p buf size N 1 .char root dest tag collective i)).take maxPayload = _ :=
      List.take_of_length_le (hd.left.trans (fragment_length h0 hN)).le
    refine ⟨_, hc.next i, .take hm ?_⟩
    rw [Prog.received, Option.map_some, ht, recvFragment_eq h0 hsize hN (hs.lt i (by simp)) hb hd, if_pos ha]
    exact .refl
  | cons j qs hi =>
    have hb := hs.before
    rw [List.dropLast_append_of_ne_nil (by simp), List.dropLast_cons_cons, ← List.singleton_append, lengths_append,
      lengths_append, lengths_singleton, ← hc.total] at hb
    have hd := hsame (fragment p buf size N 1 .char root dest tag collective i)
    have ht : (μ.copy me (fragment p buf size N 1 .char root dest tag collective i)).take maxPayload = _ :=
      List.take_of_length_le (hd.left.trans (fragment_length h0 hN)).le
    rw [List.append_cons] at hs ⊢
    obtain ⟨l', hc', hp⟩ := hi (hc.next i) hs
    refine ⟨l', hc', .take hm ?_⟩
    rw [Prog.received, Option.map_some, ht, recvFragment_eq h0 hsize hN (hs.lt i (by simp)) (by omega) hd,
      if_neg (by simp only; omega)]
    exact hp

-- All fragments.
theorem lengths_range (h0 : 0 < size) (hN : fragments size = N) (hk : k ≤ N) :
    lengths size N (List.range k) = min (k * payloadSize) size := by
  induction k
  case zero => simp [lengths]
  case succ k hi =>
    have hp : k * payloadSize ≤ size := by
      have ⟨_, hlt, _⟩ := fragments_spec h0
      have : k * payloadSize ≤ (N - 1) * payloadSize := Nat.mul_le_mul_right _ (by omega)
      rw [hN] at hlt
      omega
    rw [List.range_succ, lengths_append, lengths_singleton, hi (by omega), Nat.min_eq_left hp,
      fragmentLen_add h0 hN hk]

theorem lengths_perm (h : qs.Perm ps) : lengths size N qs = lengths size N ps :=
  (h.map _).sum_eq

-- In whatever order they come.
theorem Suffices.of_perm (h0 : 0 < size) (hN : fragments size = N) (h : qs.Perm (List.range N)) :
    Suffices size N qs := by
  have ⟨h1, _, hle⟩ := fragments_spec h0
  rw [hN] at h1 hle
  have hlt : ∀ q ∈ qs, q < N := fun q hq => List.mem_range.mp (h.mem_iff.mp hq)
  have hs : lengths size N qs = size := by
    rw [lengths_perm h, lengths_range h0 hN (Nat.le_refl N)]
    omega
  have hne : qs ≠ [] := by
    rintro rfl
    have := h.length_eq
    simp at this
    omega
  refine ⟨hlt, ?_, hs.ge⟩
  have hl := fragmentLen_pos h0 hN (hlt _ (List.getLast_mem hne))
  rw [← List.dropLast_append_getLast hne, lengths_append, lengths_singleton] at hs
  omega

end Fragment

-- The terminator of a message that is not empty has its place in the buffer.
theorem terminates {count : Nat} {datatype : MPIDatatype} (h : 0 < count) :
    ¬(datatype.isChar = true ∧ (count : Int) < 1) := by
  omega

section Messages

variable {μ : Medium} {p s : ProcessInfo} {r src root dest count : Nat} {buf data : Mem} {tag tag' : Int}
  {collective : MPICollective}

-- What the fragments with these numbers leave of a message.
def gathered (data buf : Mem) (count : Nat) (qs : List Nat) : Mem :=
  assemble buf count (fragments count) 1 .char fun i =>
    if i ∈ qs then some (piece data count (fragments count) i) else none

section Contents

variable {k : Nat}

-- One round of the loop that puts the fragments together.
def putFragment (count : Nat) (state : Mem × Nat) (arr : Bytes) : Mem × Nat :=
  (((state.1.write state.2 arr).write (count - 1) [0]), state.2 + arr.length)

theorem gathered_eq : gathered data buf count qs =
    ((List.range (fragments count)).foldl (fun state i =>
      if i ∈ qs then putFragment count state (piece data count (fragments count) i) else state) (buf, 0)).1 := by
  rw [gathered, assemble]
  congr 2
  funext ⟨m, offset⟩ i
  by_cases h : i ∈ qs
  case neg => simp only [h, if_false]
  case pos =>
    simp only [h, if_true, Nat.one_mul, Nat.div_one, terminate, Int.toNat_natCast, putFragment]
    rw [show genericNtoh 1 _ _ = _ from genericHton_one rfl]
    rfl

variable (data buf) in
-- The memory after the first fragments.
theorem putFragment_range (h0 : 0 < count) (hk : k ≤ fragments count) :
    let state := (List.range k).foldl
      (fun state i => putFragment count state (piece data count (fragments count) i)) (buf, 0)
    state.2 = min (k * payloadSize) count ∧
      ∀ j, state.1 j = if 0 < k ∧ j = count - 1 then 0 else if j < state.2 then data j else buf j := by
  induction k with
  | zero => simp
  | succ k hi =>
    have ⟨hs, hm⟩ := hi (by omega)
    have ⟨_, hlt, _⟩ := fragments_spec h0
    have hle : k * payloadSize ≤ (fragments count - 1) * payloadSize := Nat.mul_le_mul_right _ (by omega)
    have hadd := fragmentLen_add h0 rfl hk
    rw [Nat.min_eq_left (by omega)] at hs
    simp only [List.range_succ, List.foldl_append, List.foldl_cons, List.foldl_nil]
    generalize (List.range k).foldl _ (buf, 0) = state at hs hm
    obtain ⟨m, offset⟩ := state
    simp only at hs hm
    subst hs
    simp only [putFragment, piece, Mem.read_length]
    refine ⟨hadd, fun j => ?_⟩
    by_cases hj : j = count - 1
    case pos =>
      rw [hj, if_pos ⟨by omega, rfl⟩]
      exact Mem.write_inside (k := 0) (by simp)
    case neg =>
      have hn (b : Prop) : ¬(b ∧ j = count - 1) := fun h => hj h.right
      rw [if_neg (hn _), Mem.write_outside (by simp; omega), Mem.write_read, hm, if_neg (hn _)]
      split_ifs <;> first | rfl | omega

-- A buffer with the characters of a message, the last of which is taken for the terminator.
def delivered (data buf : Mem) (count : Nat) : Mem := fun j =>
  if j = count - 1 then 0 else if j < count then data j else buf j

theorem delivered_read_iff (h0 : 0 < count) :
    (delivered data buf count).read 0 count = data.read 0 count ↔ data (count - 1) = 0 := by
  constructor
  case mp =>
    intro h
    have hd := Mem.read_getElem? (m := delivered data buf count) (i := 0) (k := count - 1) (n := count) (by omega)
    rw [h, Mem.read_getElem? (by omega), Nat.zero_add, Option.some_inj] at hd
    exact hd.trans (if_pos rfl)
  case mpr =>
    intro h
    refine Mem.read_congr fun k hk => ?_
    rw [Nat.zero_add, delivered]
    split
    case isTrue he => rw [he, h]
    case isFalse   => rfl

theorem delivered_outside (h0 : 0 < count) (h : count ≤ j) : delivered data buf count j = buf j := by
  rw [delivered, if_neg (by omega), if_neg (by omega)]

theorem stored_eq : stored 1 count .char (payload 1 count data) buf = delivered data buf count := by
  have hc : genericNtoh 1 count (payload 1 count data) = data.read 0 count := by
    have hc : converted 1 count data = data.read 0 (1 * count) := converted_eq (by simp [ElementSize]) (by decide)
    rwa [Nat.one_mul] at hc
  funext j
  rw [stored, hc, terminate, if_pos (by decide), Nat.one_mul, delivered]
  split
  case isTrue h =>
    rw [h]
    exact Mem.write_inside (k := 0) (by simp)
  case isFalse h =>
    rw [Mem.write_outside (by simp; omega), Mem.write_read]
    simp

theorem gathered_all (h0 : 0 < count) (hq : ∀ i < fragments count, i ∈ qs) :
    gathered data buf count qs = delivered data buf count := by
  funext j
  have ⟨h1, _, hle⟩ := fragments_spec h0
  have ⟨hs, hm⟩ := putFragment_range buf data h0 (Nat.le_refl (fragments count))
  rw [gathered_eq, List.foldl_ext _ (fun state i => putFragment count state (piece data count (fragments count) i)) _
    fun _ i hi => if_pos (hq i (List.mem_range.mp hi)), hm, hs, Nat.min_eq_right hle]
  simp only [h1, true_and, delivered]

end Contents

theorem datagrams_fragments {datatype : MPIDatatype} (hc : maxPayload < mpiHeader + count) :
    datagrams s data 1 count datatype root dest tag collective =
      (List.range (fragments count)).map
        (fragment s data count (fragments count) 1 datatype root dest tag collective) := by
  simp only [maxPayload, mpiHeader] at hc
  rw [datagrams, if_pos (by simp only [payloadSize, maxPayload, mpiHeader]; omega), Nat.one_mul,
    List.range_eq_range']

section Multiple

variable (hm : μ.mayTimeout p.rank = false) (hsame : ∀ d, SameMessage (μ.copy p.rank d) d)
  (hc : maxPayload < mpiHeader + count) (hl : mpiHeader + count < 2 ^ 31)
include hm hsame hc hl

variable (s root dest data tag' collective) in
-- The loop, as both receivers run it.
theorem recvFragments_performs (hs : Suffices count (fragments count) qs) :
    ∃ l : Fragments, Collected data count (fragments count) root qs l ∧
      Performs μ p.rank (recvFragments count (fragments count) 1 .char : Program Received)
        (qs.map fun i =>
          .get (.udp p.rank) (fragment s data count (fragments count) 1 .char root dest tag' collective i))
        (.ret (.all l)) := by
  simp only [maxPayload, mpiHeader] at hc hl
  obtain ⟨i, qs, rfl⟩ := List.exists_cons_of_ne_nil (hs.ne_nil (by omega))
  exact recvFragments_from p.rank hm hsame (by omega) (by omega) rfl (.start ..) (by simpa using hs)

omit hm hsame hc hl in
theorem Collected.assemble {l : Fragments} (h : Collected data count (fragments count) root qs l) :
    assemble buf count (fragments count) 1 .char l.table = gathered data buf count qs := by
  rw [funext h.table]
  rfl

variable (s src root dest buf data tag tag' collective) in
-- A message that takes several datagrams is acknowledged, to the rank in their headers, when it has been
-- put together.
theorem mpiRecv_gathered (hsrc : src < p.size) (hp : p.rank < p.size) (hroot : root < p.size) (hne : root ≠ p.rank) (hint : p.size < 2 ^ 31)
    (hs : Suffices count (fragments count) qs) :
    Performs μ p.rank (mpiRecv p buf count .char src tag)
      (qs.map (fun i =>
          .get (.udp p.rank) (fragment s data count (fragments count) 1 .char root dest tag' collective i)) ++
        [.note (.stored (gathered data buf count qs)),
          .put [(.tcp p.rank root, (notice (p.countId src p.rank) .ack root tag).encode)]])
      (.ret (count, gathered data buf count qs, p.countId src p.rank)) := by
  have ⟨l, hcl, hrecv⟩ := recvFragments_performs s root dest data tag' collective hm hsame hc hl hs
  have h0 : 0 < count := by
    simp only [maxPayload, mpiHeader] at hc
    omega
  have hack := _mpiSendTcpLostPacket_performs .ack (μ := μ) (p := p.countId src p.rank) (r := root) hp hroot hne tag
  have hlroot : l.root.toInt = root := by
    rw [hcl.root (hs.ne_nil h0)]
    exact BitVec.toInt_ofInt_eq_self (by decide) (by omega) (by omega)
  rw [mpiRecv_multiple rfl (by rwa [Nat.one_mul]) (by rwa [Nat.one_mul]), Nat.one_mul]
  refine hrecv.seq ?_
  dsimp only
  rw [← hlroot] at hack ⊢
  rw [← Collected.assemble hcl, if_neg (terminates h0), countReceived_natCast hsrc]
  exact .note (hack.map rfl)

variable (s src root dest buf data tag' collective) in
theorem mpiRecvNoAck_gathered (hsrc : src < p.size) (hs : Suffices count (fragments count) qs) :
    Performs μ p.rank (mpiRecvNoAck p buf count .char src)
      (qs.map (fun i =>
          .get (.udp p.rank) (fragment s data count (fragments count) 1 .char root dest tag' collective i)) ++
        [.note (.stored (gathered data buf count qs))])
      (.ret (count, gathered data buf count qs, p.countId src p.rank)) := by
  have ⟨l, hcl, hrecv⟩ := recvFragments_performs s root dest data tag' collective hm hsame hc hl hs
  have h0 : 0 < count := by
    simp only [maxPayload, mpiHeader] at hc
    omega
  rw [mpiRecvNoAck_multiple rfl (by rwa [Nat.one_mul]) (by rwa [Nat.one_mul]), Nat.one_mul]
  refine hrecv.seq ?_
  dsimp only
  rw [← Collected.assemble hcl, if_neg (terminates h0), countReceived_natCast hsrc]
  exact .note .refl

variable (src root dest buf data tag tag' collective) in
theorem mpiRecv_fragments (hsrc : src < p.size) (hp : p.rank < p.size) (hroot : root < p.size) (hne : root ≠ p.rank)
    (hint : p.size < 2 ^ 31) :
    ∃ buf', Performs μ p.rank (mpiRecv p buf count .char src tag)
      ((datagrams s data 1 count .char root dest tag' collective).map (fun d => .get (.udp p.rank) d) ++
        [.note (.stored buf'), .put [(.tcp p.rank root, (notice (p.countId src p.rank) .ack root tag).encode)]])
      (.ret (count, buf', p.countId src p.rank)) := by
  have h0 : 0 < count := by
    simp only [maxPayload, mpiHeader] at hc
    omega
  rw [datagrams_fragments hc, List.map_map]
  exact ⟨_, mpiRecv_gathered s src root dest buf data tag tag' collective hm hsame hc hl hsrc hp hroot hne hint
    (.of_perm h0 rfl (.refl _))⟩

end Multiple

theorem overflow_neg {size : Int} (hl : 2 ^ 31 ≤ mpiHeader + size) (hs : size < 2 ^ 31) :
    i32 (mpiHeader + size) < 0 := by
  simp only [mpiHeader, i32, Int.bmod_def] at hl ⊢
  omega

variable (source : Int)

section Overflow

variable {count : Int} (hl : 2 ^ 31 ≤ mpiHeader + datatypeSizeInBytes count datatype)
include hl

variable (buf tag) in
-- A message whose length with the header is not an `int` is not received.
theorem mpiRecv_too_long : mpiRecv p buf count datatype source tag = .ret (-1, buf, p) := by
  have ht := overflow_neg hl (datatypeSizeInBytes_lt count datatype)
  simp only [mpiHeader] at hl
  rw [mpiRecv, if_neg (by omega), if_neg (by simp only [maxPayload]; omega), if_pos ht]
  rfl

variable (buf) in
theorem mpiRecvNoAck_too_long : mpiRecvNoAck p buf count datatype source = .ret (-1, buf, p) := by
  have ht := overflow_neg hl (datatypeSizeInBytes_lt count datatype)
  simp only [mpiHeader] at hl
  rw [mpiRecvNoAck, if_neg (by omega), if_neg (by simp only [maxPayload]; omega), if_pos ht]
  rfl

end Overflow

variable (buf tag) in
theorem mpiRecv_overflow (hl : 2 ^ 31 ≤ mpiHeader + count) (hc : count < 2 ^ 31) :
    mpiRecv p buf count .char source tag = .ret (-1, buf, p) :=
  mpiRecv_too_long buf tag source <| by
    rw [datatypeSizeInBytes_eq 1 rfl (by omega)]
    omega

variable (buf) in
theorem mpiRecvNoAck_overflow (hl : 2 ^ 31 ≤ mpiHeader + count) (hc : count < 2 ^ 31) :
    mpiRecvNoAck p buf count .char source = .ret (-1, buf, p) :=
  mpiRecvNoAck_too_long buf source <| by
    rw [datatypeSizeInBytes_eq 1 rfl (by omega)]
    omega

end Messages

end Mpi

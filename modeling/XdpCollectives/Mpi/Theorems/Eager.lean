import XdpCollectives.Mpi.Theorems.Results

-- The receive of the eager broadcasts, and how it compares with the other one.
namespace Mpi

open Memory Wire Process

variable {p q : ProcessInfo} {buf b : Mem} {count source tag : Int} {datatype : MPIDatatype}
  {rs rest : List (Option Bytes)}

-- One entry of the table has been counted up by one, and the others are as they were.
def CountedOnce (ids ids' : Nat → Nat → BitVec 64) : Prop :=
  ∃ i j, ids' i j = ids i j + 1 ∧ ids' i j ≠ ids i j ∧ ∀ i' j', (i', j') ≠ (i, j) → ids' i' j' = ids i' j'

theorem countedOnce_countId (i j : Nat) : CountedOnce p.ids (p.countId i j).ids := by
  refine ⟨i, j, by simp [ProcessInfo.countId], ?_, fun i' j' h => ?_⟩
  · simp [ProcessInfo.countId]
  · by_cases hi : i' = i
    case neg => simp [ProcessInfo.countId, hi]
    case pos =>
      have hj : j' ≠ j := by
        rintro rfl
        exact h (by rw [hi])
      simp [ProcessInfo.countId, hi, hj]

theorem Counted.once (h : Counted p source q) (h0 : 0 ≤ source) : CountedOnce p.ids q.ids := by
  rcases h with ⟨hneg, _⟩ | ⟨_, rfl⟩
  · exact absurd hneg (Int.not_lt.mpr h0)
  · exact countedOnce_countId ..

-- What a receive leaves behind: nothing has changed when it fails, and a message is counted once.
def Atomic (p : ProcessInfo) (buf : Mem) (count source : Int) (x : Int × Mem × ProcessInfo) : Prop :=
  x = (-1, buf, p) ∨ x.1 = count ∧ x.1 ≠ -1 ∧ Counted p source x.2.2

theorem ne_of_size (h : ¬datatypeSizeInBytes count datatype < 1) : count ≠ -1 := by
  rintro rfl
  cases datatype <;> exact absurd h (by decide)

variable (p buf count datatype source) in
theorem mpiRecvNoAck_keeps_atomic :
    Keeps (fun _ => True) (mpiRecvNoAck p buf count datatype source) (Atomic p buf count source) :=
  mpiRecvNoAck_keeps p (fun _ => trivial) (fun _ => trivial) trivial buf count datatype source (.inl rfl)
    fun h1 _ _ hq => .inr ⟨rfl, ne_of_size h1, hq⟩

-- A failed receive leaves the buffer and the table as they were, and one that gets its message counts it once.
theorem mpiRecvNoAck_atomic {ret : Int} {t : List (Event Note)}
    (h : Does (mpiRecvNoAck p buf count datatype source) t (.ret (ret, b, q))) :
    (ret = -1 → b = buf ∧ q.ids = p.ids) ∧ (ret = count → ret ≠ -1 → 0 ≤ source → CountedOnce p.ids q.ids) ∧
      (ret = -1 ∨ ret = count) := by
  rcases (mpiRecvNoAck_keeps_atomic p buf count source datatype t _ h).right _ rfl with ha | ⟨hr, hne, hq⟩
  · cases ha
    exact ⟨fun _ => ⟨rfl, rfl⟩, fun _ hne => absurd rfl hne, .inl rfl⟩
  · dsimp only at hr hne hq
    exact ⟨fun h => absurd h hne, fun _ _ => hq.once, .inr hr⟩

-- The table has a row for the source of a message, if it is counted.
def Countable (p : ProcessInfo) (source : Int) : Prop :=
  source < 0 ∨ p.InRange source

theorem countReceived_eq (h : Countable p source) :
    ∃ q, countReceived p source = (.ret q : Program _) ∧ q.rank = p.rank ∧ q.size = p.size := by
  rw [countReceived]
  by_cases hneg : source < 0
  case pos =>
    rw [if_pos hneg]
    exact ⟨p, rfl, rfl, rfl⟩
  case neg =>
    rw [if_neg hneg, if_pos (h.resolve_left hneg)]
    exact ⟨_, rfl, rfl, rfl⟩

theorem countReceived_fault (h : ¬Countable p source) : countReceived p source = (.fault : Program _) := by
  rw [countReceived, if_neg (not_or.mp h).left, if_neg (not_or.mp h).right]

section Two

-- The two datagrams of a message of 1425 characters, and the root that they name.
def ofTwo (root : Int) (seq : Nat) (len : Int) : Header :=
  header (.init 2 0 fun _ => 0) root 1 .bcastRing .char len 1 seq 0

def first (root : Int) : Bytes :=
  (ofTwo root 0 1424).encode ++ List.replicate 1424 65

def second (root : Int) : Bytes :=
  (ofTwo root 1 1).encode ++ [0]

variable (root : Int) {l : Fragments}

theorem decode_first : Header.decode (first root) = ofTwo root 0 1424 :=
  Header.decode_encode ..

theorem decode_second : Header.decode (second root) = ofTwo root 1 1 :=
  Header.decode_encode ..

theorem first_expected : Expected 1425 2 (first root) :=
  .inl (by rw [first, List.length_append, Header.encode_length, List.length_replicate]; decide)

theorem second_expected : Expected 1425 2 (second root) :=
  .inr (by rw [second, List.length_append, Header.encode_length]; decide)

theorem first_fits : Fits 2 1 (first root) := by
  constructor <;> rw [decode_first]
  · exact show (BitVec.ofNat 64 0).toNat < 2 by decide
  · exact show 0 ≤ (BitVec.ofInt 32 1424).toInt by decide
  · exact show 1 * (BitVec.ofInt 32 1424).toInt ≤ payloadSize by decide

theorem second_fits : Fits 2 1 (second root) := by
  constructor <;> rw [decode_second]
  · exact show (BitVec.ofNat 64 1).toNat < 2 by decide
  · exact show 0 ≤ (BitVec.ofInt 32 1).toInt by decide
  · exact show 1 * (BitVec.ofInt 32 1).toInt ≤ payloadSize by decide

theorem lenOf_first : lenOf (first root) = 1424 := by
  rw [lenOf, decode_first]
  exact show (BitVec.ofInt 32 1424).toInt.toNat = 1424 by decide

theorem lenOf_second : lenOf (second root) = 1 := by
  rw [lenOf, decode_second]
  exact show (BitVec.ofInt 32 1).toInt.toNat = 1 by decide

theorem fits_two {d : Bytes} (hd : some d ∈ [some (first root), some (second root)]) : Fits 2 1 d := by
  simp only [List.mem_cons, Option.some.injEq, List.not_mem_nil, or_false] at hd
  rcases hd with rfl | rfl
  · exact first_fits root
  · exact second_fits root

-- The loop goes on after the first datagram, and has enough with the second one.
theorem loop_first (rs : List (Option Bytes)) : ∃ l : Fragments, l.total = 1424 ∧
    Prog.loop maxPayload (recvFragment 1425 2 1 .char) ⟨fun _ => none, 0, 0⟩ (some (first root) :: rs) =
      Prog.loop maxPayload (recvFragment 1425 2 1 .char) l rs := by
  let l : Fragments := Fragments.add ⟨fun _ => none, 0, 0⟩ 1 (first root)
  have ht : l.total = 1424 := by
    show (0 + lenOf (first root)) % 2 ^ 64 = 1424
    rw [lenOf_first]
    rfl
  refine ⟨l, ht, ?_⟩
  rw [Prog.loop, Option.map_some, recvFragment_fits rfl (first_expected root) (first_fits root),
    if_neg (show ¬1425 ≤ l.total by omega)]

theorem loop_two : ∃ l : Fragments, Prog.loop maxPayload (recvFragment 1425 2 1 .char) ⟨fun _ => none, 0, 0⟩
    [some (first root), some (second root)] = (.inr (.all l), []) := by
  obtain ⟨l, ht, hl⟩ := loop_first root [some (second root)]
  have ht' : (l.add 1 (second root)).total = 1425 := by
    show (l.total + lenOf (second root)) % 2 ^ 64 = 1425
    rw [ht, lenOf_second]
    rfl
  refine ⟨l.add 1 (second root), hl.trans ?_⟩
  rw [Prog.loop, Option.map_some, recvFragment_fits rfl (second_expected root) (second_fits root), if_pos ht'.ge]

variable (p buf source) in
theorem mpiRecvNoAck_first : Does (mpiRecvNoAck p buf (1425 : Nat) .char source) [.took (first root), .timeout]
    (.ret (-1, buf, p)) := by
  obtain ⟨l, _, hl⟩ := loop_first root [none]
  have hf : (mpiRecvNoAck p buf (1425 : Nat) .char source).feed [some (first root), none] =
      (.ret (-1, buf, p), []) := by
    rw [mpiRecvNoAck_multiple rfl (by decide) (by decide), recvFragments, Prog.feed_loop_bind]
    simp only [Nat.one_mul, show fragments 1425 = 2 from rfl, hl]
    rfl
  obtain ⟨us, hrs, hd⟩ := does_feed (mpiRecvNoAck p buf (1425 : Nat) .char source) [some (first root), none]
  rw [hf, List.append_nil] at hrs
  rw [hf, ← hrs] at hd
  exact hd

variable (p buf source) in
theorem mpiRecvNoAck_second (h : Countable p source) :
    ∃ b q, Does (mpiRecvNoAck p buf (1425 : Nat) .char source)
      [.took (first root), .took (second root), .note (.stored b)] (.ret ((1425 : Nat), b, q)) := by
  obtain ⟨l, hl⟩ := loop_two root
  obtain ⟨q, hq, _⟩ := countReceived_eq h
  let b := assemble buf (1425 : Nat) 2 1 .char l.table
  have hf : (mpiRecvNoAck p buf (1425 : Nat) .char source).feed [some (first root), some (second root)] =
      (.note (.stored b) (.ret ((1425 : Nat), b, q)), []) := by
    rw [mpiRecvNoAck_multiple rfl (by decide) (by decide), recvFragments, Prog.feed_loop_bind]
    simp only [Nat.one_mul, show fragments 1425 = 2 from rfl, hl, hq]
    rw [if_neg (by decide), takeNote_bind, Prog.feed_note]
    rfl
  obtain ⟨us, hrs, hd⟩ :=
    does_feed (mpiRecvNoAck p buf (1425 : Nat) .char source) [some (first root), some (second root)]
  rw [hf, List.append_nil] at hrs
  rw [hf, ← hrs] at hd
  exact ⟨_, _, hd.trans (.step .note .refl)⟩

end Two

-- A message of two datagrams: the second one does not come, or it does.
theorem mpiRecvNoAck_atomic_two :
    let p : ProcessInfo := .init 2 1 fun _ => 0
    (∃ b q, Does (mpiRecvNoAck p (fun _ => 7) (1425 : Nat) .char 0) [.took (first 0), .timeout] (.ret (-1, b, q)) ∧
      b = (fun _ => 7) ∧ q.ids = p.ids) ∧
    ∃ b q, Does (mpiRecvNoAck p (fun _ => 7) (1425 : Nat) .char 0)
      [.took (first 0), .took (second 0), .note (.stored b)] (.ret ((1425 : Nat), b, q)) ∧ CountedOnce p.ids q.ids := by
  intro p
  have hf := mpiRecvNoAck_first p (fun _ => 7) 0 0
  obtain ⟨b, q, hs⟩ := mpiRecvNoAck_second p (fun _ => 7) 0 0 (.inr (by decide))
  exact ⟨⟨_, _, hf, (mpiRecvNoAck_atomic hf).left rfl⟩,
    b, q, hs, (mpiRecvNoAck_atomic hs).right.left rfl (by decide) (by decide)⟩

-- The program returns without receiving another datagram.
def Yields (y : Program (Int × Mem × ProcessInfo)) (ret : Int) (b : Mem) (q : ProcessInfo) : Prop :=
  ∃ t, results t = [] ∧ Does y t (.ret (ret, b, q))

def Fails (y : Program (Int × Mem × ProcessInfo)) : Prop :=
  ∃ b q, y = .ret (-1, b, q)

-- Both receives use up the same results, the one fails when the other falls back on the connection, and otherwise, when
-- they do not wait for more, both return with the same buffer and the same table.
structure Agree (p : ProcessInfo) (buf : Mem) (count : Int) (datatype : MPIDatatype) (source tag : Int)
    (y y' : Program (Int × Mem × ProcessInfo) × List (Option Bytes)) : Prop where
  used  : y.2 = y'.2
  waits : y.1.Waits ↔ y'.1.Waits
  fails : Fails y.1 ↔ y'.1 = recvLost p buf count datatype source tag
  rest  : ¬y.1.Waits → ¬Fails y.1 → ∃ b q, Yields y.1 count b q ∧ Yields y'.1 count b q

-- The header of the datagram with which the loop over the fragments has enough.
def lastHeader (size N : Nat) : Nat → List (Option Bytes) → Option Header
  | total, some d :: rs =>
    if Expected size N d then
      let total := (total + lenOf d) % 2 ^ 64
      if size ≤ total then some (Header.decode d) else lastHeader size N total rs
    else none
  | _, _ => none

-- The length of the message is an `int`. When a message of one datagram has come, its elements are as long as their
-- number says, and when one of several has come, its last datagram names a root, and the terminator has its place.
-- Either is counted in a row of the table.
structure Answerable (p : ProcessInfo) (count : Int) (datatype : MPIDatatype) (source : Int)
    (rs : List (Option Bytes)) : Prop where
  length  : mpiHeader + datatypeSizeInBytes count datatype < 2 ^ 31
  single  : mpiHeader + datatypeSizeInBytes count datatype ≤ maxPayload → ∀ d, rs.head? = some (some d) →
    mpiHeader + datatypeSizeInBytes count datatype ≤ d.length →
    datatype.sizeof?.getD 0 * u64 count ≤ (datatypeSizeInBytes count datatype).toNat ∧ Countable p source
  several : maxPayload < mpiHeader + datatypeSizeInBytes count datatype → ∀ h,
    lastHeader (datatypeSizeInBytes count datatype).toNat (fragments (datatypeSizeInBytes count datatype).toNat) 0 rs
      = some h → p.InRange h.root.toInt ∧ (datatype.isChar → 0 < count) ∧ Countable p source

section Loop

variable {size N es : Nat} {l : Fragments}

theorem lastHeader_expected {d : Bytes} (h : Expected size N d) (es : Nat) (rs : List (Option Bytes)) :
    lastHeader size N l.total (some d :: rs) =
      if size ≤ (l.add es d).total then some (Header.decode d) else lastHeader size N (l.add es d).total rs :=
  if_pos h

-- Datagrams that fit never stop the loop but with a loss or with the whole message.
theorem loop_fits (hs : datatype.sizeof? = some es) (hd : ∀ d, some d ∈ rs → mpiHeader ≤ d.length → Fits N es d) :
    match Prog.loop maxPayload (recvFragment size N es datatype) l rs with
    | (.inl _, _)         => lastHeader size N l.total rs = none
    | (.inr .lost, _)     => lastHeader size N l.total rs = none
    | (.inr (.all l'), _) => ∃ h, lastHeader size N l.total rs = some h ∧ l'.root = h.root
    | _                   => False := by
  induction rs generalizing l
  case nil => rfl
  case cons r rs hi =>
    cases r
    case none => rfl
    case some d =>
      rw [Prog.loop, Option.map_some]
      by_cases he : Expected size N d
      case neg => rw [recvFragment_unexpected he, lastHeader, if_neg he]
      case pos =>
        rw [recvFragment_fits hs he (hd d List.mem_cons_self he.le), lastHeader_expected he es]
        by_cases ht : size ≤ (l.add es d).total
        case pos =>
          rw [if_pos ht, if_pos ht]
          exact ⟨_, rfl, rfl⟩
        case neg =>
          rw [if_neg ht, if_neg ht]
          exact hi fun d hm => hd d (List.mem_cons_of_mem _ hm)

end Loop

-- What the two receives have come to, when they have been given the same results.
section Residuals

variable {y y' : Program (Int × Mem × ProcessInfo)}

theorem Yields.of_ret (h : Yields (.ret (ret, b, q)) ret' b' q') : ret = ret' ∧ b = b' ∧ q = q' := by
  have ⟨t, _, hd⟩ := h
  have ⟨_, he⟩ := hd.of_ret
  cases he
  exact ⟨rfl, rfl, rfl⟩

theorem not_yields_fault : ¬Yields .fault ret b q := by
  rintro ⟨t, _, hd⟩
  cases hd
  case step h _ => contradiction

theorem Yields.note {m : Note} (h : Yields (.note m y) ret b q) : Yields y ret b q := by
  have ⟨t, ht, hd⟩ := h
  cases hd
  case step hg hd =>
    cases hg
    refine ⟨_, ?_, hd⟩
    exact ht

theorem yields_ret : Yields (.ret (ret, b, q)) ret b q :=
  ⟨[], rfl, .refl⟩

theorem Yields.of_note (m : Note) (h : Yields y ret b q) : Yields (.note m y) ret b q := by
  have ⟨t, ht, hd⟩ := h
  exact ⟨.note m :: t, ht, .step .note hd⟩

-- What the fallback begins with.
theorem recvLost_cases (p : ProcessInfo) (buf : Mem) (count : Int) (datatype : MPIDatatype) (source tag : Int) :
    let x := recvLost p buf count datatype source tag
    x = .fault ∨ x = .exit ∨ (∃ dest m k, x = .send dest m k) ∨
      (∃ m k, x = .note m k) ∧ (datatypeSizeInBytes count datatype < 1 ∨
        i32 (mpiHeader + datatypeSizeInBytes count datatype) < 0) := by
  simp only [recvLost]
  by_cases hr : ¬p.InRange p.rank ∨ ¬p.InRange source
  case pos =>
    rw [_mpiSendTcpLostPacket, if_pos hr]
    exact .inl rfl
  case neg =>
    rw [_mpiSendTcpLostPacket, if_neg hr, ProcessInfo.send, if_neg fun h => hr (.inr h)]
    by_cases hs : source = p.rank
    case neg =>
      rw [if_neg hs]
      exact .inr (.inr (.inl ⟨_, _, _, rfl⟩))
    case pos =>
      rw [if_pos hs, _mpiRecvTcp]
      by_cases h1 : datatypeSizeInBytes count datatype < 1
      case pos =>
        simp only [if_pos h1]
        exact .inr (.inr (.inr ⟨⟨_, _, rfl⟩, .inl h1⟩))
      by_cases ht : i32 (mpiHeader + datatypeSizeInBytes count datatype) < 0
      case pos =>
        simp only [if_neg h1, if_pos ht]
        exact .inr (.inr (.inr ⟨⟨_, _, rfl⟩, .inr ht⟩))
      -- The slot of the process itself holds no connection.
      obtain ⟨k, hk⟩ : ∃ k, (i32 (mpiHeader + datatypeSizeInBytes count datatype)).toNat = k + 1 := by
        have hl := total_eq (Int.not_lt.mp h1) (Int.not_lt.mp ht)
        exact ⟨(i32 (mpiHeader + datatypeSizeInBytes count datatype)).toNat - 1, by
          simp only [mpiHeader] at hl ⊢
          omega⟩
      simp only [if_neg h1, if_neg ht, hk]
      rw [_mpiRecvTcpLoop, if_neg (Nat.succ_ne_zero k), ProcessInfo.recv, if_neg fun h => hr (.inr h), if_pos hs]
      exact .inr (.inl rfl)

theorem not_fails_waits {y : Program (Int × Mem × ProcessInfo)} (h : y.Waits) : ¬Fails y := by
  rintro ⟨b, q, rfl⟩
  contradiction

theorem recvLost_not_waits : ¬(recvLost p buf count datatype source tag).Waits := by
  intro h
  rcases recvLost_cases p buf count datatype source tag with hx | hx | ⟨_, _, _, hx⟩ | ⟨⟨_, _, hx⟩, _⟩ <;>
    rw [hx] at h <;> contradiction

theorem recvLost_ne_ret {x : Int × Mem × ProcessInfo} : .ret x ≠ recvLost p buf count datatype source tag := by
  intro h
  rcases recvLost_cases p buf count datatype source tag with hx | hx | ⟨_, _, _, hx⟩ | ⟨⟨_, _, hx⟩, _⟩ <;>
    rw [hx] at h <;> contradiction

theorem agree_of_waits (h : y.Waits) (h' : y'.Waits) : Agree p buf count datatype source tag (y, rest) (y', rest) where
  used  := rfl
  waits := iff_of_true h h'
  fails := iff_of_false (not_fails_waits h) fun (he : y' = _) => recvLost_not_waits (he ▸ h')
  rest  := fun hw => absurd h hw

theorem agree_of_lost : Agree p buf count datatype source tag (.ret (-1, b, q), rest)
    (recvLost p buf count datatype source tag, rest) where
  used  := rfl
  waits := iff_of_false id recvLost_not_waits
  fails := iff_of_true ⟨b, q, rfl⟩ rfl
  rest  := fun _ hf => absurd ⟨b, q, rfl⟩ hf

theorem not_agree_of_ret {x : Int × Mem × ProcessInfo} :
    ¬Agree p buf count datatype source tag (.ret (-1, b, q), rest) (.ret x, rest) :=
  fun h => recvLost_ne_ret (h.fails.mp ⟨b, q, rfl⟩)

theorem not_agree_of_fault : ¬Agree p buf count datatype source tag (.fault, rest) (y', rest) := by
  intro h
  have ⟨b, q, hy, _⟩ := h.rest id nofun
  exact not_yields_fault hy

theorem not_agree_of_stored {m : Note} : ¬Agree p buf count datatype source tag (.note m .fault, rest) (y', rest) := by
  intro h
  have ⟨b, q, hy, _⟩ := h.rest id nofun
  exact not_yields_fault hy.note

theorem agree_stored_iff {m : Note} (h1 : 1 ≤ datatypeSizeInBytes count datatype)
    (ht : 0 ≤ i32 (mpiHeader + datatypeSizeInBytes count datatype)) :
    Agree p buf count datatype source tag (.note m (.ret (count, b, q)), rest) (.note m y, rest) ↔
      Yields y count b q := by
  constructor
  · intro h
    have ⟨b', q', hy, hy'⟩ := h.rest id nofun
    obtain ⟨_, rfl, rfl⟩ := hy.note.of_ret
    exact hy'.note
  · refine fun hy => ⟨rfl, .rfl, iff_of_false nofun fun h => ?_, fun _ _ => ⟨b, q, yields_ret.of_note m, hy.of_note m⟩⟩
    dsimp only at h
    rcases recvLost_cases p buf count datatype source tag with hx | hx | ⟨_, _, _, hx⟩ | ⟨_, hx⟩
    · rw [hx] at h
      contradiction
    · rw [hx] at h
      contradiction
    · rw [hx] at h
      contradiction
    · omega

theorem yields_ack_iff (hq : q.rank < q.size) {root : Int} :
    Yields (_mpiSendTcpLostPacket q .ack q.rank root tag .send >>= fun _ => pure (count, b, q)) count b q ↔
      q.InRange root := by
  have hrank := ProcessInfo.inRange_natCast hq
  rw [_mpiSendTcpLostPacket]
  by_cases hr : q.InRange root
  case neg =>
    rw [if_pos (.inr hr)]
    exact iff_of_false not_yields_fault hr
  case pos =>
    rw [if_neg (by simp [hr, hrank]), ProcessInfo.send, if_neg (by simp [hr])]
    refine iff_of_true ?_ hr
    split
    case isTrue  => exact yields_ret
    case isFalse => exact ⟨[.send _ _], rfl, .step .send .refl⟩

end Residuals

section Copies

variable (buf source tag) (hp : p.rank < p.size) (h1 : 1 ≤ datatypeSizeInBytes count datatype)
include h1

-- Messages of a length that is not an `int` are refused by both.
theorem not_agree_of_overflow (ht : i32 (mpiHeader + datatypeSizeInBytes count datatype) < 0) :
    ¬Agree p buf count datatype source tag ((mpiRecvNoAck p buf count datatype source).feed rs)
      ((mpiRecv p buf count datatype source tag).feed rs) := by
  have hl : ¬(maxPayload : Int) < i32 (mpiHeader + datatypeSizeInBytes count datatype) := by
    simp only [maxPayload]
    omega
  simp only [mpiRecvNoAck, mpiRecv]
  rw [if_neg (Int.not_lt.mpr h1), if_neg (Int.not_lt.mpr h1), if_neg hl, if_neg hl, if_pos ht, if_pos ht]
  simp only [Prog.pure_eq_ret, Prog.feed_ret]
  exact not_agree_of_ret

include hp in
theorem agree_several_iff (hs : datatype.sizeof? = some es)
    (hl : maxPayload < mpiHeader + datatypeSizeInBytes count datatype)
    (ht : i32 (mpiHeader + datatypeSizeInBytes count datatype) = mpiHeader + datatypeSizeInBytes count datatype)
    (hd : ∀ d, some d ∈ rs → mpiHeader ≤ d.length → Fits (fragments (datatypeSizeInBytes count datatype).toNat) es d) :
    Agree p buf count datatype source tag ((mpiRecvNoAck p buf count datatype source).feed rs)
        ((mpiRecv p buf count datatype source tag).feed rs) ↔
      ∀ h, lastHeader (datatypeSizeInBytes count datatype).toNat (fragments (datatypeSizeInBytes count datatype).toNat)
        0 rs = some h → p.InRange h.root.toInt ∧ (datatype.isChar → 0 < count) ∧ Countable p source := by
  have hloop := @loop_fits datatype rs (datatypeSizeInBytes count datatype).toNat _ es ⟨fun _ => none, 0, 0⟩ hs hd
  simp only [mpiRecvNoAck, mpiRecv, hs, Option.getD_some]
  rw [if_neg (Int.not_lt.mpr h1), if_neg (Int.not_lt.mpr h1), if_pos (by omega), if_pos (by omega)]
  rw [recvFragments, Prog.feed_loop_bind, Prog.feed_loop_bind]
  rw [fragments] at hloop ⊢
  generalize Prog.loop maxPayload _ _ rs = o at hloop ⊢
  obtain ⟨o, rest⟩ := o
  cases o with
  | inl l =>
    dsimp only at hloop
    rw [hloop]
    exact iff_of_true (agree_of_waits trivial trivial) (by simp)
  | inr o =>
    cases o with
    | fault => contradiction
    | exit  => contradiction
    | lost  =>
      dsimp only at hloop ⊢
      rw [hloop, Prog.feed_of_not_waits recvLost_not_waits]
      exact iff_of_true (Prog.feed_ret (-1, buf, p) rest ▸ agree_of_lost) (by simp)
    | all l =>
      obtain ⟨h, hh, hroot⟩ := hloop
      dsimp only
      rw [hh]
      by_cases hc : datatype.isChar = true ∧ count < 1
      case pos =>
        simp only [if_pos hc, Prog.feed_fault]
        exact iff_of_false not_agree_of_fault fun hq => absurd ((hq h rfl).right.left hc.left) (by omega)
      case neg =>
        rw [if_neg hc, if_neg hc, takeNote_bind, takeNote_bind, Prog.feed_note, Prog.feed_note]
        by_cases hsrc : Countable p source
        case neg =>
          rw [countReceived_fault hsrc]
          exact iff_of_false not_agree_of_stored fun hq => hsrc (hq h rfl).right.right
        case pos =>
          obtain ⟨q, hq, hrank, hsize⟩ := countReceived_eq hsrc
          rw [hq]
          refine (agree_stored_iff h1 (by omega)).trans ((yields_ack_iff (by omega)).trans ?_)
          rw [ProcessInfo.InRange, hsize, ← ProcessInfo.InRange, hroot]
          constructor
          · rintro hr _ ⟨⟩
            exact ⟨hr, fun hchar => Int.not_le.mp fun hle => hc ⟨hchar, by omega⟩, hsrc⟩
          · exact fun hq => (hq h rfl).left

theorem agree_single_iff (hs : datatype.sizeof? = some es)
    (hl : mpiHeader + datatypeSizeInBytes count datatype ≤ maxPayload)
    (ht : i32 (mpiHeader + datatypeSizeInBytes count datatype) = mpiHeader + datatypeSizeInBytes count datatype) :
    Agree p buf count datatype source tag ((mpiRecvNoAck p buf count datatype source).feed rs)
        ((mpiRecv p buf count datatype source tag).feed rs) ↔
      ∀ d, rs.head? = some (some d) → mpiHeader + datatypeSizeInBytes count datatype ≤ d.length →
        es * u64 count ≤ (datatypeSizeInBytes count datatype).toNat ∧ Countable p source := by
  simp only [mpiRecvNoAck, mpiRecv]
  rw [if_neg (Int.not_lt.mpr h1), if_neg (Int.not_lt.mpr h1), if_neg (by omega), if_neg (by omega), if_neg (by omega),
    if_neg (by omega), Prog.recvDatagram, Prog.feed_loop_bind, Prog.feed_loop_bind, ht]
  cases rs with
  | nil => exact iff_of_true (agree_of_waits trivial trivial) (by simp)
  | cons r rs =>
    cases r with
    | none =>
      simp only [Prog.loop, Option.map_none, storeMessage]
      rw [Prog.feed_of_not_waits recvLost_not_waits]
      exact iff_of_true (Prog.feed_ret (-1, buf, p) rs ▸ agree_of_lost) (by simp)
    | some d =>
      have hlen : ((d.take (mpiHeader + datatypeSizeInBytes count datatype).toNat).length : Int) - mpiHeader =
          datatypeSizeInBytes count datatype ↔ mpiHeader + datatypeSizeInBytes count datatype ≤ d.length := by
        rw [List.length_take]
        omega
      simp only [Prog.loop, Option.map_some, storeMessage, hs, Option.getD_some]
      by_cases hd : mpiHeader + datatypeSizeInBytes count datatype ≤ d.length
      case neg =>
        rw [if_pos (mt hlen.mp hd), Prog.feed_of_not_waits recvLost_not_waits]
        refine iff_of_true (Prog.feed_ret (-1, buf, p) rs ▸ agree_of_lost) ?_
        rintro _ ⟨⟩ hle
        exact absurd hle hd
      case pos =>
        rw [if_neg (not_not.mpr (hlen.mpr hd))]
        by_cases hf : es * u64 count ≤ (datatypeSizeInBytes count datatype).toNat
        case pos =>
          rw [if_neg (Nat.not_lt.mpr hf)]
          dsimp only
          rw [takeNote_bind, Prog.feed_note]
          by_cases hsrc : Countable p source
          case neg =>
            rw [countReceived_fault hsrc]
            exact iff_of_false not_agree_of_stored fun h => hsrc (h d rfl hd).right
          case pos =>
            obtain ⟨q, hq, _⟩ := countReceived_eq hsrc
            rw [hq]
            exact (agree_stored_iff h1 (by omega)).trans (iff_of_true yields_ret fun _ _ _ => ⟨hf, hsrc⟩)
        case neg =>
          rw [if_pos (Nat.not_le.mp hf)]
          dsimp only
          rw [Prog.feed_fault]
          exact iff_of_false not_agree_of_fault fun h => hf (h d rfl hd).left

include hp in
-- The two receives agree on all results that a network can give, but for these.
theorem receives_agree_iff (hd : ∀ d, some d ∈ rs → mpiHeader ≤ d.length →
      Fits (fragments (datatypeSizeInBytes count datatype).toNat) (datatype.sizeof?.getD 0) d) :
    Agree p buf count datatype source tag ((mpiRecvNoAck p buf count datatype source).feed rs)
      ((mpiRecv p buf count datatype source tag).feed rs) ↔ Answerable p count datatype source rs := by
  have ⟨es, hs⟩ : ∃ es, datatype.sizeof? = some es := by
    cases he : datatype.sizeof? with
    | none      => simp [datatypeSizeInBytes, he] at h1
    | some size => exact ⟨size, rfl⟩
  have hlt := datatypeSizeInBytes_lt count datatype
  by_cases ht : i32 (mpiHeader + datatypeSizeInBytes count datatype) < 0
  case pos =>
    refine iff_of_false (not_agree_of_overflow buf source tag h1 ht) fun h => ?_
    have hl := h.length
    simp only [i32, mpiHeader, Int.bmod_def] at ht hl
    omega
  case neg =>
    have ht := total_eq h1 (Int.not_lt.mp ht)
    have hl : mpiHeader + datatypeSizeInBytes count datatype < 2 ^ 31 := by
      rw [← ht]
      exact Int.bmod_lt (by decide)
    rw [hs, Option.getD_some] at hd
    by_cases hm : maxPayload < mpiHeader + datatypeSizeInBytes count datatype
    case pos =>
      rw [agree_several_iff buf source tag hp h1 hs hm ht hd]
      exact ⟨fun h => ⟨hl, fun hle => absurd hle (by omega), fun _ => h⟩, fun h => h.several hm⟩
    case neg =>
      rw [agree_single_iff buf source tag h1 hs (by omega) ht]
      refine ⟨fun h => ⟨hl, fun _ => ?_, fun hlt => absurd hlt hm⟩, fun h => ?_⟩
      · rwa [hs]
      · have := h.single (by omega)
        rwa [hs] at this

end Copies

theorem lastHeader_two (root : Int) :
    lastHeader 1425 2 0 [some (first root), some (second root)] = some (ofTwo root 1 1) := by
  simp [lastHeader, first_expected, second_expected, lenOf_first, lenOf_second, decode_second]

theorem receives_agree_iff_two :
    let p : ProcessInfo := .init 2 1 fun _ => 0
    let rs := [some (first 0), some (second 0)]
    Agree p (fun _ => 7) 1425 .char 0 1 ((mpiRecvNoAck p (fun _ => 7) 1425 .char 0).feed rs)
      ((mpiRecv p (fun _ => 7) 1425 .char 0 1).feed rs) := by
  intro p rs
  have hd : ∀ d, some d ∈ rs → mpiHeader ≤ d.length → Fits 2 1 d := fun _ hd _ => fits_two 0 hd
  refine (receives_agree_iff _ 0 1 (by decide) (by decide) hd).mpr ⟨by decide, fun hl => absurd hl (by decide), ?_⟩
  intro _ h hh
  obtain rfl : ofTwo 0 1 1 = h := Option.some.inj ((lastHeader_two 0).symm.trans hh)
  exact ⟨by decide, fun _ => by decide, .inr (by decide)⟩

-- The root that the datagrams name is not a rank.
theorem not_receives_agree :
    ¬∀ (p : ProcessInfo) (buf : Mem) (count : Int) (datatype : MPIDatatype) (source tag : Int)
      (rs : List (Option Bytes)),
      p.rank < p.size → 1 ≤ datatypeSizeInBytes count datatype → 0 ≤ source →
      (∀ d, some d ∈ rs → mpiHeader ≤ d.length →
        Fits (fragments (datatypeSizeInBytes count datatype).toNat) (datatype.sizeof?.getD 0) d) →
      Agree p buf count datatype source tag ((mpiRecvNoAck p buf count datatype source).feed rs)
        ((mpiRecv p buf count datatype source tag).feed rs) := by
  intro h
  have hd : ∀ d, some d ∈ [some (first 7), some (second 7)] → mpiHeader ≤ d.length → Fits 2 1 d :=
    fun _ hd _ => fits_two 7 hd
  have ha := h (.init 2 1 fun _ => 0) (fun _ => 0) 1425 .char 0 1 [some (first 7), some (second 7)] (by decide)
    (by decide) (by decide) hd
  have hr := (agree_several_iff (fun _ => 0) 0 1 (by decide) (by decide) rfl (by decide) (by decide) hd).mp ha _
    (lastHeader_two 7)
  exact absurd hr.left (by decide)

end Mpi

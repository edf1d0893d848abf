import XdpCollectives.Cascade.Basic
import XdpCollectives.Mpi.Theorems.Linear

-- Broadcasts from rank to rank with messages of one datagram, when datagrams get lost.
namespace Mpi

open Memory Wire Process Script

section Sends

variable {μ : Medium} {p p' : ProcessInfo} {r root es count : Nat} {datatype : MPIDatatype} {buf : Mem} {tag : Int}
  {collective : MPICollective}

variable (buf tag) in
-- Where the rank answers that it has not got the message, it gets it once more over the connection.
theorem mpiSend_again (hp : p.rank < p.size) (hr : r < p.size) (hne : r ≠ p.rank) (hs : datatype.sizeof? = some es)
    (hc : Sendable es count) (h1 : Single es count) {h : Header} (hh : h.datatype.toNat = MPIDatatype.nack.code)
    (hroot : h.root.toInt = r) :
    Performs μ p.rank (mpiSend p buf count datatype r tag)
      ((datagrams p buf es count datatype p.rank r tag .send).map (fun d => .put (μ.outs p.rank r d)) ++
        [.get (.tcp r p.rank) h.encode,
          .put [(.tcp p.rank r, parcel (p.countId p.rank r) es count datatype buf r tag)]])
      (.ret (count, p.countId p.rank r)) := by
  obtain ⟨_, _, hlt⟩ := h1.bounds hs
  refine (_mpiSend_performs _ _ _ _ _ hp hr hne hs hc).seq ?_
  refine (recvHeader_performs (p := p.countId p.rank r) hr hne h _).seq ?_
  rw [if_pos hh, hroot]
  have ht := _mpiSendTcp_performs (μ := μ) buf (p := p.countId p.rank r) hp hr hne hs h1.left hlt tag
  exact ht.map rfl

-- What a rank sends depends on what it has counted for the receiver only.
theorem datagrams_congr (hr : p.rank = p'.rank) (hg : p.garbage = p'.garbage) (hi : p.ids root r = p'.ids root r) :
    datagrams p buf es count datatype root r tag collective =
      datagrams p' buf es count datatype root r tag collective := by
  have hf : fragment p buf (es * count) (fragments (es * count)) es datatype root r tag collective =
      fragment p' buf (es * count) (fragments (es * count)) es datatype root r tag collective := by
    funext i
    simp only [fragment, header, hr, hg, hi]
  simp only [datagrams, header, hf, hr, hi]

theorem parcel_congr (hr : p.rank = p'.rank) (hi : p.ids r p.rank = p'.ids r p'.rank) :
    parcel p es count datatype buf r tag = parcel p' es count datatype buf r tag := by
  simp only [parcel, notice, header, Int.toNat_natCast, hi]
  simp only [hr]

end Sends

namespace Relay

section Processes

variable (t : Cascade) (P : Nat → ProcessInfo)

-- What a rank has counted when it has received the data, and when it has sent them.
def begins (r : Nat) : ProcessInfo :=
  if r = t.root then P r else (P r).countId (t.above r) r

def ends (r : Nat) : ProcessInfo :=
  (t.below r).foldl (fun p q => p.countId r q) (begins t P r)

def nack (q : Nat) : Header :=
  notice (P q) .nack (t.above q) 1

def ack (q : Nat) : Header :=
  notice (begins t P q) .ack (t.above q) 1

-- What precedes the data that a rank is sent once more.
def again (q : Nat) : Header :=
  notice ((begins t P (t.above q)).countId (t.above q) q) .char q 1

variable {t P} {q : Nat}

theorem begins_rank (ranked : Ranked t.n P) : Ranked t.n (begins t P) := by
  intro r hr
  rw [begins]
  split <;> exact ranked r hr

theorem ends_ranked (ranked : Ranked t.n P) : Ranked t.n (ends t P) := by
  intro r hr
  have hf (l : List Nat) (p : ProcessInfo) (hp : p.rank = r ∧ p.size = t.n) :
      (l.foldl (fun p q => p.countId r q) p).rank = r ∧ (l.foldl (fun p q => p.countId r q) p).size = t.n := by
    induction l generalizing p with
    | nil         => exact hp
    | cons q l hi => exact hi _ hp
  exact hf _ _ (begins_rank ranked r hr)

theorem nack_root (int : t.n < 2 ^ 31) (ranked : Ranked t.n P) (hq : q < t.n) : (nack t P q).root.toInt = q := by
  simp only [nack, notice, header, (ranked q hq).left]
  exact BitVec.toInt_ofInt_eq_self (by decide) (by omega) (by omega)

end Processes

end Relay

-- A call of the ranks `P`, with the buffers `b`, that leaves them with `mem`. The datagrams for the ranks in `lost` do
-- not arrive. Where the rank above `q` waits for the answer, it finds `heard q`, and where rank `q` waits for what has
-- got lost, it finds `given q` and `content q`.
structure Relay (t : Cascade) where
  count      : Nat
  lost       : Nat → Bool
  P          : Nat → ProcessInfo
  b          : Nat → Mem
  mem        : Nat → Mem
  heard      : Nat → Header
  given      : Nat → Header
  content    : Nat → Bytes
  int        : t.n < 2 ^ 31
  ranked     : Ranked t.n P
  single     : Single 1 count
  mem_root   : mem t.root = b t.root
  mem_above  : ∀ r < t.n, r ≠ t.root → mem r =
    if lost r then restored 1 count .char (content r) (b r)
    else stored 1 count .char (payload 1 count (mem (t.above r))) (b r)
  length     : ∀ r, (content r).length = 1 * count
  heard_root : ∀ q < t.n, (heard q).datatype.toNat = MPIDatatype.nack.code → (heard q).root.toInt = q

namespace Relay

variable {t : Cascade} (x : Relay t)

def data (q : Nat) : List Bytes :=
  datagrams (begins t x.P (t.above q)) (x.mem (t.above q)) 1 x.count .char (t.above q) q 1 .send

-- What the rank above does about rank `q`.
def settles (q : Nat) : List (Process.Act Note) :=
  .get (.tcp q (t.above q)) (x.heard q).encode ::
    if (x.heard q).datatype.toNat = MPIDatatype.nack.code then
      [.put [(.tcp (t.above q) q, (again t x.P q).encode ++ payload 1 x.count (x.mem (t.above q)))]]
    else []

def emits (q : Nat) : List (Process.Act Note) :=
  (x.data q).map fun d => .put (if x.lost q then [] else [(.udp q, d)])

def deals (q : Nat) : List (Process.Act Note) :=
  x.emits q ++ x.settles q

-- What rank `r` does until it has the data.
def takes (r : Nat) : List (Process.Act Note) :=
  if x.lost r then
    [.timeout, .put [(.tcp r (t.above r), (nack t x.P r).encode)],
      .get (.tcp (t.above r) r) ((x.given r).encode ++ x.content r), .note (.stored (x.mem r))]
  else (x.data r).map (fun d => .get (.udp r) d) ++ [.note (.stored (x.mem r))]

def answers (r : Nat) : List (Process.Act Note) :=
  x.takes r ++ [.put [(.tcp r (t.above r), (ack t x.P r).encode)]]

def script (r : Nat) : List (Process.Act Note) :=
  (if r < t.n ∧ r ≠ t.root then x.answers r else []) ++ (t.below r).flatMap x.deals

variable {x} {r q : Nat} {p : ProcessInfo} (f : Forwarder)

variable (x) in
theorem begins_ranked (hr : r < t.n) : (begins t x.P r).rank = r ∧ (begins t x.P r).size = t.n :=
  begins_rank x.ranked r hr

theorem sendable : Sendable 1 x.count := x.single.sendable

theorem payload_len (count : Nat) (m : Mem) : (payload 1 count m).length = 1 * count :=
  payload_length (by simp [ElementSize])

variable (x) in
theorem data_eq (q : Nat) : ∃ d h, x.data q = [d] ∧ Carries d h (payload 1 x.count (x.mem (t.above q))) := by
  obtain ⟨d, h, hd, hh, _⟩ := datagrams_single (t.above q) .char (x.mem (t.above q)) 1 .send
    (p := begins t x.P (t.above q)) (r := q) rfl x.sendable x.single
  exact ⟨d, h, hd, hh⟩

theorem outs_eq {d : Bytes} (hd : (Header.decode d).collective.toNat = MPICollective.send.code) (src : Nat) :
    (medium t.n f x.lost).outs src q d = if x.lost q then [] else [(.udp q, d)] := by
  have ho : MPICollective.ofCode (Header.decode d).collective.toNat = some .send := by
    rw [hd, MPICollective.ofCode_code]
  simp only [Medium.outs, medium, recipients, ho, List.filter_cons, List.filter_nil]
  cases x.lost q <;> rfl

-- A rank sends to rank `q` for the first time.
structure Fresh (x : Relay t) (r q : Nat) (p : ProcessInfo) : Prop where
  rank    : p.rank = r
  size    : p.size = t.n
  garbage : p.garbage = (begins t x.P r).garbage
  out     : p.ids r q = (begins t x.P r).ids r q
  back    : p.ids q r = (begins t x.P r).ids q r

theorem mpiSend_deals (hr : r < t.n) (hq : q ∈ t.below r) (hf : x.Fresh r q p) :
    ∃ ret, Performs (medium t.n f x.lost) r (mpiSend p (x.mem r) x.count .char q 1) (x.deals q)
      (.ret (ret, p.countId r q)) := by
  obtain ⟨hlt, hne, rfl⟩ := Cascade.mem_below.mp hq
  have hqr : q ≠ t.above q := Cascade.below_ne hq
  have hb := (x.begins_ranked hr).left
  have hd : datagrams p (x.mem (t.above q)) 1 x.count .char (t.above q) q 1 .send = x.data q :=
    datagrams_congr (hf.rank.trans hb.symm) hf.garbage hf.out
  have hm : (x.data q).map (fun d => (.put ((medium t.n f x.lost).outs (t.above q) q d) : Process.Act Note)) =
      x.emits q :=
    List.map_congr_left fun d h => by rw [outs_eq f (datagrams_collective h)]
  have hrank := hf.rank
  have hsize := hf.size
  rw [deals, settles]
  by_cases hn : (x.heard q).datatype.toNat = MPIDatatype.nack.code
  case pos =>
    have h := mpiSend_again (x.mem (t.above q)) 1 (μ := medium t.n f x.lost) (p := p) (r := q)
      (by omega) (by omega) (by omega) (show MPIDatatype.char.sizeof? = some 1 from rfl) x.sendable x.single
      (h := x.heard q) hn (x.heard_root q hlt hn)
    have hp : parcel (p.countId (t.above q) q) 1 x.count .char (x.mem (t.above q)) q 1 =
        (again t x.P q).encode ++ payload 1 x.count (x.mem (t.above q)) := by
      refine parcel_congr (hrank.trans hb.symm) ?_
      simp only [ProcessInfo.countId, hrank, hb, Function.update_of_ne hqr]
      exact hf.back
    rw [hrank, hd, hm, hp] at h
    rw [if_pos hn]
    exact ⟨x.count, h⟩
  case neg =>
    have h : Performs (medium t.n f x.lost) p.rank (mpiSend p (x.mem (t.above q)) x.count .char q 1)
        (_ ++ [.get (.tcp q p.rank) (x.heard q).encode]) (.ret (0, p.countId p.rank q)) :=
      mpiSend_performs (by omega) (by omega) (by omega) (show MPIDatatype.char.sizeof? = some 1 from rfl) x.sendable hn
    rw [hrank, hd, hm] at h
    rw [if_neg hn]
    exact ⟨0, h⟩

-- A rank goes through the ranks that it has not sent to yet.
theorem sendLinear_deals (hr : r < t.n) {is : List Nat} (hd : is.Nodup) (hi : ∀ q ∈ is, q ≠ t.root → q ∈ t.below r)
    (hf : ∀ q ∈ is, q ≠ t.root → x.Fresh r q p) :
    Performs (medium t.n f x.lost) r (sendLinear (x.mem r) x.count .char t.root 1 is p)
      ((is.filter (· ≠ t.root)).flatMap x.deals)
      (.ret ((is.filter (· ≠ t.root)).foldl (fun p q => p.countId r q) p)) := by
  induction is generalizing p with
  | nil => exact .refl
  | cons q is ih =>
    obtain ⟨hq, hd⟩ := List.nodup_cons.mp hd
    obtain ⟨hiq, hi⟩ := List.forall_mem_cons.mp hi
    obtain ⟨hfq, hf⟩ := List.forall_mem_cons.mp hf
    rw [sendLinear]
    by_cases he : q = t.root
    case pos =>
      rw [if_neg (by simpa using he), List.filter_cons_of_neg (by simpa using he)]
      exact ih hd hi hf
    case neg =>
      rw [if_pos he, List.filter_cons_of_pos (by simpa using he), List.flatMap_cons, List.foldl_cons]
      obtain ⟨ret, h⟩ := mpiSend_deals f hr (hiq he) (hfq he)
      refine h.seq (ih hd hi fun q' hq' hroot => ?_)
      have hne : q' ≠ q := fun h => hq (h ▸ hq')
      have hself : q' ≠ r := Cascade.below_ne (hi q' hq' hroot)
      have hfresh := hf q' hq' hroot
      exact {
        rank    := hfresh.rank
        size    := hfresh.size
        garbage := hfresh.garbage
        out     := by
          rw [← hfresh.out]
          simp [ProcessInfo.countId, Function.update_of_ne hne]
        back    := by
          rw [← hfresh.back]
          simp [ProcessInfo.countId, Function.update_of_ne hself] }

theorem fresh (hr : r < t.n) (q : Nat) : x.Fresh r q (begins t x.P r) := by
  obtain ⟨hrank, hsize⟩ := x.begins_ranked hr
  exact ⟨hrank, hsize, rfl, rfl, rfl⟩

-- A rank gets the data by the datagram, or once it has asked for them.
theorem mpiRecv_takes (hr : r < t.n) (hne : r ≠ t.root) :
    Performs (medium t.n f x.lost) r (mpiRecv (x.P r) (x.b r) x.count .char (t.above r) 1) (x.takes r)
      (.ret (x.count, x.mem r, begins t x.P r)) := by
  obtain ⟨hrank, hsize⟩ := x.ranked r hr
  have hlt := t.above_lt r hr hne
  have hup := t.above_ne r hr hne
  have hmem := x.mem_above r hr hne
  have hb : begins t x.P r = (x.P r).countId (t.above r) r := if_neg hne
  rw [takes]
  cases hl : x.lost r with
  | true  =>
    have h := mpiRecv_timeout .char (x.b r) 1 (μ := medium t.n f x.lost) (p := x.P r) (r := t.above r)
      (by rw [hrank]; exact hl) (by omega) (by omega) (by omega) rfl x.single (h := x.given r) (x.length r)
    rw [hl, if_pos rfl] at hmem
    rw [hrank, ← hmem, ← hb] at h
    exact h
  | false =>
    obtain ⟨d, h, hd, hc⟩ := x.data_eq r
    have h := mpiRecv_performs .char (x.b r) 1 (μ := medium t.n f x.lost) (p := x.P r) (r := t.above r)
      (by omega) (by rw [hrank]; exact hl) rfl x.single (f.same _ _) hc (payload_len _ _)
    rw [hl, if_neg Bool.false_ne_true] at hmem
    rw [hrank, ← hmem, ← hb] at h
    rw [hd]
    exact h

theorem ack_performs (hr : r < t.n) (hne : r ≠ t.root) : Performs (medium t.n f x.lost) r
    (_mpiSendTcpLostPacket (begins t x.P r) .ack (begins t x.P r).rank (t.above r) 1 .send)
    [.put [(.tcp r (t.above r), (ack t x.P r).encode)]] (.ret ()) := by
  obtain ⟨hrank, hsize⟩ := x.begins_ranked hr
  have hlt := t.above_lt r hr hne
  have hup := t.above_ne r hr hne
  have h := _mpiSendTcpLostPacket_performs .ack (μ := medium t.n f x.lost) (p := begins t x.P r) (r := t.above r)
    (by omega) (by omega) (by omega) 1
  rwa [hrank] at h ⊢

end Relay

section Programs

variable {n root r : Nat} {hroot : root < n} (f : Forwarder) (hr : r < n)
include hr

-- A rank of the ring hands the data to the rank behind it, if that is not the root.
theorem mpiSend_next (x : Relay (.cycle n root hroot)) (he : (r + 1) % n ≠ root) :
    ∃ ret, Performs (medium n f x.lost) r
      (mpiSend (Relay.begins (.cycle n root hroot) x.P r) (x.mem r) x.count .char
        (Relay.begins (.cycle n root hroot) x.P r).next 1)
      (((Cascade.cycle n root hroot).below r).flatMap x.deals)
      (.ret (ret, Relay.ends (.cycle n root hroot) x.P r)) := by
  obtain ⟨hrank, hsize⟩ := x.begins_ranked hr
  have hb : (Cascade.cycle n root hroot).below r = [(r + 1) % n] := Cascade.cycle_below hr he
  have hnext : (Relay.begins (.cycle n root hroot) x.P r).next = (r + 1) % n := by
    rw [ProcessInfo.next, hrank, hsize]
    rfl
  have h := x.mpiSend_deals f hr (q := (r + 1) % n) (hb ▸ List.mem_singleton_self _) (x.fresh hr _)
  rw [hnext, Relay.ends, hb, List.flatMap_singleton, List.foldl_cons, List.foldl_nil]
  exact h

theorem mpiBcastLinear_relays (x : Relay (.star n root hroot)) :
    Performs (medium n f x.lost) r (mpiBcastLinear (x.P r) (x.b r) x.count .char root) (x.script r)
      (.ret (0, x.mem r, Relay.ends (.star n root hroot) x.P r)) := by
  let t := Cascade.star n root hroot
  obtain ⟨hrank, hsize⟩ := x.ranked r hr
  rw [mpiBcastLinear, Relay.script]
  by_cases he : r = root
  case pos =>
    subst he
    have hb : Relay.begins (.star n r hroot) x.P r = x.P r := if_pos rfl
    have hm : x.mem r = x.b r := x.mem_root
    have hmem : ∀ q ∈ List.range n, q ≠ r → q ∈ t.below r := fun q hq hne =>
      Cascade.mem_below.mpr ⟨List.mem_range.mp hq, hne, rfl⟩
    have h := x.sendLinear_deals f hr List.nodup_range hmem fun q _ _ => x.fresh hr q
    have hrange : List.range (x.P r).size = List.range n := congrArg _ hsize
    rw [hb, hm] at h
    rw [if_pos hrank, if_neg (fun h => h.right rfl), List.nil_append, hm, Relay.ends, hb, Cascade.star_below, hrange]
    exact h.map rfl
  case neg =>
    rw [if_neg (by rwa [hrank]), if_pos ⟨hr, he⟩, Relay.answers, List.append_assoc, Relay.ends,
      Cascade.star_below_leaf he]
    refine (x.mpiRecv_takes f hr he).seq ?_
    show Performs _ _ (if (x.count : Int) < 0 then _ else _) _ _
    rw [if_neg (by omega)]
    exact (x.ack_performs f hr he).seq .refl

end Programs
end Mpi

import XdpCollectives.Mpi.Theorems.Fragments

-- What a receiver makes of the datagrams of one message.
namespace Mpi

open Memory Wire Process

-- A wire that takes every datagram to where it is sent.
def direct : Medium where
  reach _ dest _ := [dest]
  copy _ d       := d
  mayTimeout _   := false
  mayDrop        := false

-- `__mpi_send` succeeds with these datagrams.
def Emits (s : ProcessInfo) (data : Mem) (count : Nat) (datatype : MPIDatatype) (root dest : Nat) (tag : Int)
    (collective : MPICollective) (ds : List Bytes) : Prop :=
  ∃ s', Performs direct s.rank (_mpiSend s data count datatype root dest tag collective)
    (ds.map fun d => .put [(.udp dest, d)]) (.ret (count, s'))

-- A receive returns `count` when it has taken these datagrams, in this order, and nothing else.
def Returns (μ : Medium) (p : ProcessInfo) (recv : Program (Int × Mem × ProcessInfo)) (count : Nat) (ds : List Bytes)
    (buf : Mem) : Prop :=
  ∃ t p', (∀ a ∈ t, a.input = none) ∧
    Performs μ p.rank recv (ds.map (fun d => .get (.udp p.rank) d) ++ t) (.ret ((count : Int), buf, p'))

variable {f : Forwarder} {s p : ProcessInfo} {data buf : Mem} {es count root src dest : Nat} {datatype : MPIDatatype}
  {tag tag' : Int} {collective : MPICollective} {ds : List Bytes} {n : Nat} {qs : List Nat}

theorem emits_datagrams (hroot : root < s.size) (hp : p.rank < s.size) (hne : p.rank ≠ s.rank)
    (hs : datatype.sizeof? = some es) (hc : Sendable es count) :
    Emits s data count datatype root p.rank tag collective
      (datagrams s data es count datatype root p.rank tag collective) :=
  ⟨_, _mpiSend_performs root datatype data tag collective hroot hp hne hs hc⟩

theorem Emits.unique {dest : Nat} {ds' : List Bytes} (h : Emits s data count datatype root dest tag collective ds)
    (h' : Emits s data count datatype root dest tag collective ds') : ds = ds' := by
  obtain ⟨_, h⟩ := h
  obtain ⟨_, h'⟩ := h'
  have hi (ds : List Bytes) :
      (ds.map fun d => (.put [(.udp dest, d)] : Process.Act Note)).filterMap Script.Act.input = [] := by
    simp [Script.Act.input]
  obtain ⟨he, _⟩ := h.unique h' (by rw [hi, hi])
  have hinj : Function.Injective fun d : Bytes => (.put [(.udp dest, d)] : Process.Act Note) := by
    intro d d' hd
    simpa using hd
  exact List.map_injective_iff.mpr hinj he

theorem exists_perm_map {α β : Type} {g : α → β} {l : List α} {ds : List β} (h : ds.Perm (l.map g)) :
    ∃ qs : List α, qs.Perm l ∧ qs.map g = ds := by
  induction ds generalizing l
  case nil =>
    have hl : l = [] := List.map_eq_nil_iff.mp h.symm.eq_nil
    exact ⟨[], hl ▸ .refl _, rfl⟩
  case cons d ds hi =>
    have ⟨a, ha, hd⟩ := List.mem_map.mp (h.mem_iff.mp List.mem_cons_self)
    have ⟨l₁, l₂, he⟩ := List.append_of_mem ha
    subst hd he
    have hp : (g a :: ds).Perm (g a :: (l₁ ++ l₂).map g) := by
      refine h.trans ?_
      rw [← List.map_cons]
      exact List.perm_middle.map g
    have ⟨qs, hq, he⟩ := hi hp.cons_inv
    exact ⟨a :: qs, (hq.cons a).trans List.perm_middle.symm, by rw [List.map_cons, he]⟩

section

variable (hl : mpiHeader + count < 2 ^ 31)
include hl

variable (f s data buf root src tag tag' collective) in
-- A message that comes as one datagram, although the sender may have taken it for one that does not.
theorem single_returns (hsrc : src < p.size) (h1 : Single 1 count) :
    ∃ d, datagrams s data 1 count .char root p.rank tag collective = [d] ∧
      Returns (lossless s.size f) p (mpiRecv p buf count .char src tag') count [d] (delivered data buf count) := by
  have h0 := h1.left
  have hb : Sendable 1 count := ⟨h0, .inr ⟨rfl, by simp only [mpiHeader] at hl; omega⟩⟩
  obtain ⟨d, h, hd, hca, _⟩ := datagrams_single root .char data tag collective (p := s) (r := p.rank) rfl hb h1
  have hr := mpiRecv_performs .char buf tag' (μ := lossless s.size f) (p := p) (r := src) hsrc rfl rfl h1 (f.same _ _) hca
    (payload_length (by simp [ElementSize]))
  rw [stored_eq] at hr
  exact ⟨d, hd, [.note (.stored (delivered data buf count))], _, by simp [Script.Act.input], hr⟩

variable (hc : maxPayload < mpiHeader + count) (hs : Suffices count (fragments count) qs)
include hc hs

variable (f s data buf src root dest tag collective) in
theorem mpiRecvNoAck_returns (hsrc : src < p.size) :
    Returns (lossless n f) p (mpiRecvNoAck p buf count .char src) count
      (qs.map (fragment s data count (fragments count) 1 .char root dest tag collective))
      (gathered data buf count qs) := by
  have hr := mpiRecvNoAck_gathered s src root dest buf data tag collective (μ := lossless n f) (p := p) rfl (f.same _)
    hc hl hsrc hs
  rw [Returns, List.map_map]
  exact ⟨[.note (.stored (gathered data buf count qs))], _, by simp [Script.Act.input], hr⟩

variable (hp : p.rank < p.size) (hroot : root < p.size) (hack : root ≠ p.rank) (hint : p.size < 2 ^ 31)
include hp hroot hack hint

variable (f s data buf src dest tag tag' collective) in
theorem mpiRecv_returns (hsrc : src < p.size) :
    Returns (lossless n f) p (mpiRecv p buf count .char src tag') count
      (qs.map (fragment s data count (fragments count) 1 .char root dest tag collective))
      (gathered data buf count qs) := by
  have hr := mpiRecv_gathered s src root dest buf data tag' tag collective (μ := lossless n f) (p := p) rfl (f.same _)
    hc hl hsrc hp hroot hack hint hs
  rw [Returns, List.map_map]
  exact ⟨[.note (.stored (gathered data buf count qs)), .put _], _, by simp [Script.Act.input], hr⟩

end

variable (f data tag tag' collective) in
-- Whatever the size of a message and the order in which its datagrams arrive.
theorem datagrams_in_any_order (hroot : root < s.size) (hsrc : src < s.size) (hp : p.rank < s.size)
    (hne : p.rank ≠ s.rank) (hsize : p.size = s.size) (hint : s.size < 2 ^ 31) (hack : root ≠ p.rank) (h0 : 0 < count)
    (hl : mpiHeader + count < 2 ^ 31) (hlast : data (count - 1) = 0) :
    ∃ ds, Emits s data count .char root p.rank tag collective ds ∧
      ∀ ds' buf, ds'.Perm ds → ∃ b,
        Returns (lossless s.size f) p (mpiRecv p buf count .char src tag') count ds' b ∧
        b.read 0 count = data.read 0 count ∧ ∀ j, count ≤ j → b j = buf j := by
  have hb : Sendable 1 count := ⟨h0, .inr ⟨rfl, by simp only [mpiHeader] at hl; omega⟩⟩
  refine ⟨_, emits_datagrams hroot hp hne rfl hb, fun ds' buf hd => ?_⟩
  refine ⟨delivered data buf count, ?_, (delivered_read_iff h0).mpr hlast, fun j => delivered_outside h0⟩
  by_cases h1 : Single 1 count
  case pos =>
    obtain ⟨d, he, hr⟩ := single_returns f s data buf root src tag tag' collective (p := p) hl (hsize ▸ hsrc) h1
    rw [he] at hd
    exact List.perm_singleton.mp hd ▸ hr
  case neg =>
    have hc : maxPayload < mpiHeader + count := by
      by_contra hle
      exact h1 ⟨h0, by omega⟩
    rw [datagrams_fragments hc] at hd
    obtain ⟨qs, hq, he⟩ := exists_perm_map hd
    have hr := mpiRecv_returns f s data buf src p.rank tag tag' collective (n := s.size) hl hc (.of_perm h0 rfl hq)
      (hsize ▸ hp) (hsize ▸ hroot) hack (hsize ▸ hint) (hsize ▸ hsrc)
    rwa [gathered_all h0 fun i hi => hq.mem_iff.mpr (List.mem_range.mpr hi), he] at hr

theorem datagrams_in_any_order_two :
    let s : ProcessInfo := .init 2 0 fun _ => 0
    let p : ProcessInfo := .init 2 1 fun _ => 0
    -- 1424 letters and a terminator.
    let data : Mem := fun i => if i < 1424 then 65 else 0
    ∃ ds, Emits s data 1425 .char 0 1 1 .send ds ∧
      ∀ ds' buf, ds'.Perm ds → ∃ b,
        Returns (lossless 2 .id) p (mpiRecv p buf (1425 : Nat) .char (0 : Nat) 1) 1425 ds' b ∧
        b.read 0 1425 = data.read 0 1425 ∧ ∀ j, 1425 ≤ j → b j = buf j := by
  intro s p data
  exact datagrams_in_any_order .id data 1 1 .send (s := s) (p := p) (by decide) (by decide) (by decide) (by decide)
    rfl (by decide) (by decide) (by decide) (by decide) rfl

-- A message arrives whole: its datagrams are made of its own elements, fit into the largest one, and leave these
-- elements in the buffer of the receiver.
def Arrives (f : Forwarder) (s p : ProcessInfo) (data : Mem) (es count : Nat) (datatype : MPIDatatype)
    (root src : Nat) (tag tag' : Int) (collective : MPICollective) : Prop :=
  ∃ ds, Emits s data count datatype root p.rank tag collective ds ∧
    (∀ d ∈ ds, d.length ≤ maxPayload) ∧
    (∀ data' : Mem, data'.read 0 (es * count) = data.read 0 (es * count) →
      Emits s data' count datatype root p.rank tag collective ds) ∧
    ∀ buf, ∃ b, Returns (lossless s.size f) p (mpiRecv p buf count datatype src tag') count ds b ∧
      b.read 0 (es * count) = data.read 0 (es * count)

section Wide

variable (s data datatype tag collective)

-- The first fragment is already too long: the length of a fragment in bytes is taken for its number of elements.
theorem _mpiSendFragments_wide (root dest : Int) (h2 : 2 ≤ es) (hl : payloadSize < mpiHeader + size) :
    _mpiSendFragments s data size (fragments size) es datatype root dest tag collective (fragments size) 0 =
      .fault := by
  simp only [payloadSize, maxPayload, mpiHeader] at hl
  have ⟨hpos, hlt, hle⟩ := fragments_spec (show 0 < size by omega)
  have ⟨k, hk⟩ : ∃ k, fragments size = k + 1 := ⟨fragments size - 1, by omega⟩
  rw [hk] at hlt hle ⊢
  rw [_mpiSendFragments, Nat.zero_mul, Nat.sub_zero, if_neg (by omega)]
  have hlen (len : Nat) (h : payloadSize < 2 * len) : payloadSize < es * len :=
    Nat.lt_of_lt_of_le h (Nat.mul_le_mul_right len h2)
  simp only [payloadSize, maxPayload, mpiHeader] at hlt hle
  split
  case isTrue => rw [if_pos (hlen _ (by decide))]
  case isFalse h =>
    simp only [payloadSize, maxPayload, mpiHeader] at h
    obtain rfl : k = 0 := by omega
    rw [if_pos (hlen _ (by simp only [payloadSize, maxPayload, mpiHeader]; omega))]

-- Longer messages of wider elements are not sent.
theorem _mpiSend_wide (root dest : Int) (hs : datatype.sizeof? = some es) (h2 : 2 ≤ es)
    (hc : count < 2 ^ 31) (hl : payloadSize < mpiHeader + es * count) :
    _mpiSend s data count datatype root dest tag collective = .fault ∨
      _mpiSend s data count datatype root dest tag collective = .ret (-1, s) := by
  have hu : u64 count = count := u64_natCast (by omega)
  have hz : datatypeSizeInBytes count datatype = i32 (es * count : Nat) := by
    rw [datatypeSizeInBytes, hs, Nat.mul_comm]
    rfl
  have hlt : i32 (es * count : Nat) < 2 ^ 31 := Int.bmod_lt (by decide)
  rw [_mpiSend, hz]
  generalize i32 (es * count : Nat) = z at hlt
  simp only [hs, hu, Option.getD_some]
  split
  case isTrue => exact .inr rfl
  case isFalse h1 =>
    obtain ⟨size, rfl⟩ := Int.eq_ofNat_of_zero_le (a := z) (by omega)
    have hb : payloadSize < u64 (i32 (mpiHeader + (size : Nat))) ↔ payloadSize < mpiHeader + size :=
      lt_u64_i32 (n := mpiHeader + size) (by simp only [mpiHeader]; omega) (by decide)
    refine .inl ?_
    split
    case isTrue => rfl
    split
    case isTrue h =>
      have hf := _mpiSendFragments_wide s data datatype tag collective root dest h2 (hb.mp h)
      rw [fragments] at hf
      rw [Int.toNat_natCast, hf]
      rfl
    case isFalse h =>
      have hge := mt hb.mpr h
      rw [if_pos (by rw [Int.toNat_natCast]; omega)]
      rfl

end Wide

theorem not_emits {dest : Nat} (hs : datatype.sizeof? = some es) (h2 : 2 ≤ es) (hc : count < 2 ^ 31)
    (hl : payloadSize < mpiHeader + es * count) : ¬Emits s data count datatype root dest tag collective ds := by
  intro ⟨s', h⟩
  cases _mpiSend_wide s data datatype tag collective root dest hs h2 hc hl with
  | inl hf =>
    rw [hf] at h
    cases ds with
    | nil | cons => cases h
  | inr hr =>
    rw [hr] at h
    cases ds with
    | nil | cons => cases h

-- Every message of wider elements that is too long for a fragment is lost: `__mpi_send` takes the length of its first
-- fragment for a number of elements, or has a wrong size for it from the beginning.
theorem wide_never_arrives (hs : datatype.sizeof? = some es) (hes : es ∈ [2, 4, 8]) (hc : count < 2 ^ 31)
    (hl : payloadSize < mpiHeader + es * count) :
    ¬Arrives f s p data es count datatype root src tag tag' collective := by
  intro ⟨_, he, _⟩
  refine not_emits hs ?_ hc hl he
  simp only [List.mem_cons, List.not_mem_nil, or_false] at hes
  omega

theorem wide_never_arrives_int :
    ¬Arrives .id (.init 2 0 fun _ => 0) (.init 2 1 fun _ => 0) (fun _ => 7) 4 400 .int 0 0 1 1 .send :=
  wide_never_arrives rfl (by decide) (by decide) (by decide)

theorem not_arrives_int :
    ¬∀ (f : Forwarder) (s p : ProcessInfo) (data : Mem) (es count : Nat) (datatype : MPIDatatype) (root src : Nat)
      (tag tag' : Int) (collective : MPICollective),
      s.rank < s.size → p.rank < s.size → p.rank ≠ s.rank → p.size = s.size → root < s.size → src < s.size → root ≠ p.rank →
      datatype.sizeof? = some es → es ∈ [2, 4, 8] → count < 2 ^ 31 → payloadSize < mpiHeader + es * count →
      (datatype = .wchar → data.read (es * (count - 1)) es = List.replicate es 0) →
      Arrives f s p data es count datatype root src tag tag' collective := by
  intro h
  have ⟨_, he, _⟩ := h .id (.init 2 0 fun _ => 0) (.init 2 1 fun _ => 0) (fun _ => 7) 4 400 .int 0 0 1 1 .send
    (by decide) (by decide) (by decide) rfl (by decide) (by decide) (by decide) rfl (by decide) (by decide) (by decide)
    nofun
  exact not_emits rfl (by decide) (by decide) (by decide) he

end Mpi

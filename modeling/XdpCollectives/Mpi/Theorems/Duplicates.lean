import XdpCollectives.Mpi.Theorems.Reassembly
import XdpCollectives.Mpi.Theorems.Stored
import Mathlib.Data.List.Dedup

-- What a receiver makes of the datagrams of one message when some of them come more than once.
namespace Mpi

open Memory Wire Process

section Lengths

variable {size N i : Nat} {qs rs : List Nat}

theorem fragmentLen_full (h0 : 0 < size) (hN : fragments size = N) (hi : i + 1 < N) :
    fragmentLen size N i = payloadSize := by
  have ⟨_, hlt, _⟩ := fragments_spec h0
  have hle : (i + 1) * payloadSize ≤ (N - 1) * payloadSize := Nat.mul_le_mul_right _ (by omega)
  have hadd := fragmentLen_add h0 hN (show i < N by omega)
  rw [hN] at hlt
  rw [Nat.min_eq_left (by omega), Nat.succ_mul] at hadd
  omega

theorem lengths_range_all (h0 : 0 < size) (hN : fragments size = N) : lengths size N (List.range N) = size := by
  have ⟨_, _, hle⟩ := fragments_spec h0
  rw [hN] at hle
  rw [lengths_range h0 hN (Nat.le_refl N), Nat.min_eq_right hle]

-- Different fragments of a message are no longer than the message.
theorem lengths_le (h0 : 0 < size) (hN : fragments size = N) (hn : qs.Nodup) (hq : ∀ q ∈ qs, q < N) :
    lengths size N qs ≤ size := by
  have hs : qs.Subperm (List.range N) := List.subperm_of_subset hn fun q h => List.mem_range.mpr (hq q h)
  obtain ⟨l, hl, hsub⟩ := hs
  obtain ⟨rs, hrs⟩ := hsub.exists_perm_append
  have he := lengths_range_all h0 hN
  rw [lengths_perm hrs, lengths_append, lengths_perm hl] at he
  omega

theorem lengths_full (h0 : 0 < size) (hN : fragments size = N) (hq : ∀ q ∈ qs, q + 1 < N) :
    lengths size N qs = qs.length * payloadSize := by
  induction qs
  case nil => simp [lengths]
  case cons q qs hi =>
    rw [← List.singleton_append, lengths_append, lengths_singleton, fragmentLen_full h0 hN (hq q (by simp)),
      hi fun q h => hq q (by simp [h]), List.length_append, Nat.add_mul, List.length_singleton, Nat.one_mul]

-- Nothing is missing if what is repeated is shorter than a full fragment.
theorem complete_iff (h0 : 0 < size) (hN : fragments size = N) (hs : Suffices size N qs) :
    (∀ i < N, i ∈ qs) ↔ lengths size N qs - lengths size N qs.dedup < payloadSize := by
  have hd : ∀ q ∈ qs.dedup, q < N := fun q h => hs.lt q (List.mem_dedup.mp h)
  constructor
  case mp =>
    intro h
    have hp : qs.dedup.Perm (List.range N) := by
      rw [List.perm_ext_iff_of_nodup (List.nodup_dedup qs) List.nodup_range]
      exact fun i => ⟨fun hi => List.mem_range.mpr (hd i hi), fun hi => List.mem_dedup.mpr (h i (List.mem_range.mp hi))⟩
    have hne := hs.ne_nil h0
    have hlast := fragmentLen_le (qs.getLast hne) h0 hN
    have hb := hs.before
    have hpos : 0 < payloadSize := by decide
    rw [lengths_perm hp, lengths_range_all h0 hN]
    conv_lhs => rw [← List.dropLast_append_getLast hne, lengths_append, lengths_singleton]
    omega
  case mpr =>
    intro h i hi
    by_contra hni
    have hn : (i :: qs.dedup).Nodup := List.nodup_cons.mpr ⟨fun h => hni (List.mem_dedup.mp h), List.nodup_dedup qs⟩
    have hle := lengths_le h0 hN hn <| by simpa using ⟨hi, fun q hq => hs.lt q hq⟩
    have ha := hs.after
    rw [← List.singleton_append, lengths_append, lengths_singleton] at hle
    by_cases hf : i + 1 < N
    case pos =>
      rw [fragmentLen_full h0 hN hf] at hle
      omega
    case neg =>
      -- Only the last fragment is missing, so all others are full.
      have hq : ∀ q ∈ qs, q + 1 < N := by
        intro q hq
        have := hs.lt q hq
        have : q ≠ i := fun he => hni (he ▸ hq)
        omega
      have hpos := fragmentLen_pos h0 hN hi
      rw [lengths_full h0 hN hq] at h ha
      rw [lengths_full h0 hN fun q h => hq q (List.mem_dedup.mp h)] at h hle
      rw [← Nat.sub_mul] at h
      have hlt : qs.dedup.length * payloadSize < qs.length * payloadSize := by omega
      have := Nat.lt_of_mul_lt_mul_right hlt
      have : 1 * payloadSize ≤ (qs.length - qs.dedup.length) * payloadSize := Nat.mul_le_mul_right _ (by omega)
      omega

theorem exists_continued (h0 : 0 < size) (hN : fragments size = N) (hq : ∀ q ∈ qs, q < N)
    (hl : lengths size N qs < size) (k : Nat) (hk : size ≤ lengths size N qs + k) :
    ∃ rs, Suffices size N (qs ++ rs) := by
  have ⟨hpos, _⟩ := fragments_spec h0
  rw [hN] at hpos
  induction k generalizing qs
  case zero => omega
  case succ k hi =>
    have hq' : ∀ q ∈ qs ++ [0], q < N := by
      simp only [List.mem_append, List.mem_singleton]
      rintro q (h | rfl)
      · exact hq q h
      · exact hpos
    have hadd : lengths size N (qs ++ [0]) = lengths size N qs + fragmentLen size N 0 := by
      rw [lengths_append, lengths_singleton]
    have hlen := fragmentLen_pos h0 hN hpos
    by_cases he : size ≤ lengths size N (qs ++ [0])
    case pos => exact ⟨[0], hq', by rwa [List.dropLast_concat], he⟩
    case neg =>
      have ⟨rs, hs⟩ := hi hq' (by omega) (by omega)
      exact ⟨0 :: rs, by rwa [List.append_cons]⟩

theorem exists_cut (h0 : 0 < size) (hq : ∀ q ∈ qs, q < N) (hl : size ≤ lengths size N qs) :
    ∃ rs, Suffices size N rs ∧ rs <+: qs := by
  induction qs using List.reverseRecOn
  case nil => exact absurd hl (Nat.not_le_of_lt h0)
  case append_singleton qs q hi =>
    by_cases hb : lengths size N qs < size
    case pos => exact ⟨_, ⟨hq, by rwa [List.dropLast_concat], hl⟩, List.prefix_refl _⟩
    case neg =>
      have ⟨rs, hs, hp⟩ := hi (fun q h => hq q (by simp [h])) (by omega)
      exact ⟨rs, hs, hp.trans (List.prefix_append ..)⟩

-- A receive ends before these fragments have all come, with the last of them, or after some more.
theorem exists_suffices (h0 : 0 < size) (hN : fragments size = N) (hq : ∀ q ∈ qs, q < N) :
    ∃ rs, Suffices size N rs ∧ (rs <+: qs ∨ qs <+: rs) := by
  by_cases hl : size ≤ lengths size N qs
  case pos =>
    have ⟨rs, hs, hp⟩ := exists_cut h0 hq hl
    exact ⟨rs, hs, .inl hp⟩
  case neg =>
    have ⟨rs, hs⟩ := exists_continued h0 hN hq (by omega) size (by omega)
    exact ⟨_, hs, .inr (List.prefix_append ..)⟩

end Lengths

variable {f : Forwarder} {s p : ProcessInfo} {data buf b : Mem} {count root src dest n : Nat} {tag tag' : Int}
  {collective : MPICollective} {qs : List Nat} {recv : Program (Int × Mem × ProcessInfo)}

theorem Returns.unique {μ : Medium} {ds ds' : List Bytes} {b' : Mem} (h : Returns μ p recv count ds b)
    (h' : Returns μ p recv count ds' b') (hp : ds <+: ds') : ds = ds' ∧ b = b' := by
  obtain ⟨t, q, ht, h⟩ := h
  obtain ⟨t', q', ht', h'⟩ := h'
  have hi (ds : List Bytes) (t : List (Process.Act Note)) (ht : ∀ a ∈ t, a.input = none) :
      (ds.map (fun d => Script.Act.get (Chan.udp p.rank) d) ++ t).filterMap Script.Act.input =
        ds.map fun d => (Chan.udp p.rank, d) := by
    rw [List.filterMap_append, List.filterMap_eq_nil_iff.mpr ht, List.append_nil, List.filterMap_map]
    exact congrFun (List.filterMap_eq_map (f := fun d => (Chan.udp p.rank, d))) ds
  have ⟨he, hv⟩ := h.unique h' <| by
    rw [hi ds t ht, hi ds' t' ht']
    exact hp.map _
  have hd := hi ds t ht
  rw [he, hi ds' t' ht'] at hd
  have hinj : Function.Injective fun d : Bytes => (Chan.udp p.rank, d) := fun _ _ h => (Prod.mk.inj h).right
  exact ⟨(List.map_injective_iff.mpr hinj hd).symm, (Prod.mk.inj (Prod.mk.inj hv).right).left⟩

-- Either of the two receivers returns.
def Finishes (n : Nat) (f : Forwarder) (p : ProcessInfo) (buf : Mem) (count src : Nat) (tag : Int) (ds : List Bytes)
    (b : Mem) : Prop :=
  Returns (lossless n f) p (mpiRecv p buf count .char src tag) count ds b ∨
  Returns (lossless n f) p (mpiRecvNoAck p buf count .char src) count ds b

-- A receive that returns a count has counted the message in a row of the table.
theorem Finishes.source_lt (h : Finishes n f p buf count src tag ds b) : src < p.size := by
  have hlt {p' : ProcessInfo} (h : (count : Int) = -1 ∧ p' = p ∨ Counted p src p') : src < p.size := by
    rcases h with ⟨h, _⟩ | ⟨h, _⟩ | ⟨h, _⟩
    · omega
    · omega
    · exact Int.ofNat_lt.mp h.right
  cases h with
  | inl h =>
    obtain ⟨_, _, _, h⟩ := h
    have ⟨_, _, hd⟩ := h.does
    have hk := mpiRecv_counts (φ := fun _ => True) p (fun _ _ => trivial) (fun _ _ => trivial) (fun _ => trivial)
      (fun _ => trivial) trivial buf count .char src tag
    exact hlt ((hk _ _ hd).right _ rfl)
  | inr h =>
    obtain ⟨_, _, _, h⟩ := h
    have ⟨_, _, hd⟩ := h.does
    have hk := mpiRecvNoAck_keeps (φ := fun _ => True) p (fun _ => trivial) (fun _ => trivial) trivial buf count .char
      src (Q := fun x => x.1 = -1 ∧ x.2.2 = p ∨ Counted p src x.2.2) (.inl ⟨rfl, rfl⟩) fun _ _ _ hq => .inr hq
    exact hlt ((hk _ _ hd).right _ rfl)

section

variable (hl : mpiHeader + count < 2 ^ 31) (hc : payloadSize < count)
include hl hc

theorem Finishes.suffices (hp : p.rank < p.size) (hroot : root < p.size) (hack : root ≠ p.rank) (hint : p.size < 2 ^ 31)
    (hq : ∀ q ∈ qs, q < fragments count)
    (h : Finishes n f p buf count src tag'
      (qs.map (fragment s data count (fragments count) 1 .char root dest tag collective)) b) :
    Suffices count (fragments count) qs ∧ b = gathered data buf count qs := by
  have hsrc := h.source_lt
  have h0 : 0 < count := by omega
  have hm : maxPayload < mpiHeader + count := by
    simp only [payloadSize] at hc
    omega
  obtain ⟨rs, hs, hpre⟩ := exists_suffices h0 rfl hq
  have hr {recv : Program (Int × Mem × ProcessInfo)}
      (h : Returns (lossless n f) p recv count
        (qs.map (fragment s data count (fragments count) 1 .char root dest tag collective)) b)
      (hr : Returns (lossless n f) p recv count
        (rs.map (fragment s data count (fragments count) 1 .char root dest tag collective))
        (gathered data buf count rs)) :
      Suffices count (fragments count) qs ∧ b = gathered data buf count qs := by
    cases hpre with
    | inl hp =>
      obtain ⟨hd, hb⟩ := hr.unique h (hp.map _)
      have he := hp.eq_of_length (by simpa using congrArg List.length hd)
      exact ⟨he ▸ hs, he ▸ hb.symm⟩
    | inr hp =>
      obtain ⟨hd, hb⟩ := h.unique hr (hp.map _)
      have he := hp.eq_of_length (by simpa using congrArg List.length hd)
      exact ⟨he ▸ hs, he ▸ hb⟩
  cases h with
  | inl h =>
    have ha := mpiRecv_returns f s data buf src dest tag tag' collective (n := n) hl hm hs hp hroot hack hint hsrc
    exact hr h ha
  | inr h =>
    have hn := mpiRecvNoAck_returns f s data buf root src dest tag collective (n := n) (p := p) hl hm hs hsrc
    exact hr h hn

end

-- The bytes in the datagrams of a sequence, and in those that it repeats.
def carried (ds : List Bytes) (qs : List (Fin ds.length)) : Nat :=
  (qs.map fun i => (Header.decode (ds.get i)).len.toNat).sum

def repeated (ds : List Bytes) (qs : List (Fin ds.length)) : Nat :=
  carried ds qs - carried ds qs.dedup

-- A sequence of datagrams has all of them, and the receiver the message.
structure Whole (ds : List Bytes) (qs : List (Fin ds.length)) (data b : Mem) (count : Nat) : Prop where
  complete : ∀ i, i ∈ qs
  equal    : b.read 0 count = data.read 0 count

theorem carried_eq (hc : payloadSize < count)
    (qs : List (Fin ((List.range (fragments count)).map
      (fragment s data count (fragments count) 1 .char root dest tag collective)).length)) :
    carried _ qs = lengths count (fragments count) (qs.map Fin.val) := by
  rw [carried, lengths, List.map_map]
  congr 1
  refine List.map_congr_left fun i _ => ?_
  have hle : fragmentLen count (fragments count) i ≤ payloadSize := fragmentLen_le i (by omega) rfl
  obtain ⟨_, hl, _⟩ := fragment_decode data count root dest i tag collective .char (p := s) (N := fragments count)
  simp only [List.get_eq_getElem, List.getElem_map, List.getElem_range, Function.comp_apply, hl]
  rw [BitVec.ofInt_natCast, BitVec.toNat_ofNat]
  refine Nat.mod_eq_of_lt (Nat.lt_of_le_of_lt hle ?_)
  decide

-- A receiver has the message at the end unless it has counted repeated datagrams for missing ones.
theorem whole_iff {ds : List Bytes} {qs : List (Fin ds.length)} (hroot : root < s.size) (hp : p.rank < s.size)
    (hne : p.rank ≠ s.rank) (hsize : p.size = s.size) (hint : s.size < 2 ^ 31) (hack : root ≠ p.rank)
    (hc : payloadSize < count) (hl : mpiHeader + count < 2 ^ 31)
    (he : Emits s data count .char root p.rank tag collective ds)
    (h : Finishes s.size f p buf count src tag' (qs.map ds.get) b) :
    Whole ds qs data b count ↔ repeated ds qs < payloadSize ∧ data (count - 1) = 0 := by
  have h0 : 0 < count := by omega
  have hd := he.unique <| emits_datagrams hroot hp hne rfl
    (show Sendable 1 count from ⟨h0, .inr ⟨rfl, by simp only [mpiHeader] at hl; omega⟩⟩)
  rw [datagrams_fragments (by simp only [payloadSize] at hc; omega)] at hd
  subst hd
  have hmap : qs.map (List.get _) = (qs.map Fin.val).map
      (fragment s data count (fragments count) 1 .char root p.rank tag collective) := by
    rw [List.map_map]
    exact List.map_congr_left fun i _ => by simp
  have hlt : ∀ q ∈ qs.map Fin.val, q < fragments count := by
    intro q hq
    obtain ⟨i, _, hi⟩ := List.mem_map.mp hq
    have := i.isLt
    simp only [List.length_map, List.length_range] at this
    omega
  rw [hmap] at h
  obtain ⟨hs, hb⟩ := h.suffices hl hc (hsize ▸ hp) (hsize ▸ hroot) hack (hsize ▸ hint) hlt
  have hall : (∀ i, i ∈ qs) ↔ ∀ i < fragments count, i ∈ qs.map Fin.val := by
    constructor
    case mp  => exact fun h i hi => List.mem_map.mpr ⟨⟨i, by simpa using hi⟩, h _, rfl⟩
    case mpr =>
      intro h i
      obtain ⟨j, hj, he⟩ := List.mem_map.mp (h i (by simpa using i.isLt))
      exact Fin.ext he ▸ hj
  have hr : repeated _ qs < payloadSize ↔ ∀ i, i ∈ qs := by
    rw [repeated, carried_eq hc, carried_eq hc, hall, complete_iff h0 rfl hs,
      ← List.dedup_map_of_injective Fin.val_injective]
  rw [hr]
  constructor
  case mp =>
    intro hw
    refine ⟨hw.complete, ?_⟩
    have he := hw.equal
    rwa [hb, gathered_all h0 (hall.mp hw.complete), delivered_read_iff h0] at he
  case mpr =>
    rintro ⟨hq, hz⟩
    refine ⟨hq, ?_⟩
    rwa [hb, gathered_all h0 (hall.mp hq), delivered_read_iff h0]

section Two

-- A message of zeros in two full fragments, from rank 0 to rank 1.
abbrev zeros : Mem := fun _ => 0

abbrev two (i : Nat) : Bytes := fragment (.init 2 0 zeros) zeros 2848 2 1 .char 0 1 1 .send i

theorem emits_two : Emits (.init 2 0 zeros) zeros 2848 .char 0 1 1 .send ((List.range 2).map two) := by
  have hb : Sendable 1 2848 := ⟨by decide, .inr ⟨rfl, by decide⟩⟩
  have h : Emits (.init 2 0 zeros) zeros 2848 .char 0 1 1 .send
      (datagrams (.init 2 0 zeros) zeros 1 2848 .char 0 1 1 .send) :=
    emits_datagrams (p := .init 2 1 zeros) (by decide) (by decide) (by decide) rfl hb
  rwa [datagrams_fragments (by decide)] at h

theorem finishes_two (hs : Suffices 2848 2 qs) :
    Finishes 2 .id (.init 2 1 zeros) zeros 2848 0 1 (qs.map two) (gathered zeros zeros 2848 qs) := by
  have hp : ProcessInfo.rank (.init 2 1 zeros) < ProcessInfo.size (.init 2 1 zeros) := by decide
  exact .inl (mpiRecv_returns .id _ _ _ _ _ _ _ _ (by decide) (by decide) hs hp (by decide) (by decide) (by decide)
    (by decide))

theorem suffices_two (hq : ∀ q ∈ [i, j], q < 2) (hi : fragmentLen 2848 2 i = 1424) (hj : fragmentLen 2848 2 j = 1424) :
    Suffices 2848 2 [i, j] where
  lt     := hq
  before := by simp [lengths, hi]
  after  := by simp [lengths, hi, hj]

end Two

theorem whole_iff_two :
    let ds := (List.range 2).map two
    let qs : List (Fin ds.length) := [⟨1, by decide⟩, ⟨0, by decide⟩]
    let b := gathered zeros zeros 2848 [1, 0]
    Whole ds qs zeros b 2848 ↔ repeated ds qs < payloadSize ∧ zeros 2847 = 0 := by
  intro ds qs b
  have hq : qs.map ds.get = [1, 0].map two := by simp [ds, qs]
  have h : Finishes 2 .id (.init 2 1 zeros) zeros 2848 0 1 (qs.map ds.get) b := by
    rw [hq]
    exact finishes_two (suffices_two (by decide) (by decide) (by decide))
  exact whole_iff (s := .init 2 0 zeros) (p := .init 2 1 zeros) (by decide) (by decide) (by decide) rfl (by decide)
    (by decide) (by decide) (by decide) emits_two h

-- The first datagram comes twice and the second one never.
theorem not_whole_two :
    ¬∀ (f : Forwarder) (s p : ProcessInfo) (data buf b : Mem) (count root src : Nat) (tag tag' : Int)
      (collective : MPICollective) (ds : List Bytes) (qs : List (Fin ds.length)),
      root < s.size → p.rank < s.size → p.rank ≠ s.rank → p.size = s.size → s.size < 2 ^ 31 → root ≠ p.rank →
      payloadSize < count → mpiHeader + count < 2 ^ 31 → Emits s data count .char root p.rank tag collective ds →
      Finishes s.size f p buf count src tag' (qs.map ds.get) b → data (count - 1) = 0 → Whole ds qs data b count := by
  intro h
  let ds := (List.range 2).map two
  let qs : List (Fin ds.length) := [⟨0, by decide⟩, ⟨0, by decide⟩]
  have hq : qs.map ds.get = [0, 0].map two := by simp [ds, qs]
  have hf : Finishes 2 .id (.init 2 1 zeros) zeros 2848 0 1 (qs.map ds.get) (gathered zeros zeros 2848 [0, 0]) := by
    rw [hq]
    exact finishes_two (suffices_two (by decide) (by decide) (by decide))
  have hw := h .id (.init 2 0 zeros) (.init 2 1 zeros) zeros zeros _ 2848 0 0 1 1 .send ds qs (by decide) (by decide)
    (by decide) rfl (by decide) (by decide) (by decide) (by decide) emits_two hf rfl
  exact absurd (hw.complete ⟨1, by decide⟩) (by decide)

end Mpi

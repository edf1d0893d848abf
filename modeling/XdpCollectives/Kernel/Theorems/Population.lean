import XdpCollectives.Kernel.Tables
import XdpCollectives.Kernel.Arrival
import Mathlib.Data.Finset.Prod

open Wire Store

-- What the processes leave in the maps.
namespace Kernel

variable {n s d : Nat} {os : List (Nat × MapUpdate)} {m : Tables} {k : SocketId} {t : TupleProcess}

-- An entry for every pair of ranks, and the way back.
structure Populated (n : Nat) (m : Tables) : Prop where
  procToAddress : ∀ t, m.procToAddress.lookup t = (Maps.filled n).procToAddress t
  addressToProc : ∀ k t, m.addressToProc.lookup k = some t ↔ m.procToAddress.lookup t = some k
  pairs         : m.procToAddress.keys.card = n * (n - 1)

namespace MapUpdate

def toProc : MapUpdate → Option (SocketId × TupleProcess)
  | addressToProc k t => some (k, t)
  | procToAddress ..  => none

def toAddress : MapUpdate → Option (TupleProcess × SocketId)
  | addressToProc ..  => none
  | procToAddress t k => some (t, k)

end MapUpdate

namespace Tables

theorem updates_addressToProc (m : Tables) (us : List MapUpdate) :
    (m.updates us).addressToProc = m.addressToProc.puts (us.filterMap MapUpdate.toProc) := by
  induction us generalizing m
  case nil => rfl
  case cons u us hi => cases u <;> exact hi _

theorem updates_procToAddress (m : Tables) (us : List MapUpdate) :
    (m.updates us).procToAddress = m.procToAddress.puts (us.filterMap MapUpdate.toAddress) := by
  induction us generalizing m
  case nil => rfl
  case cons u us hi => cases u <;> exact hi _

end Tables

theorem mem_peers : d ∈ peers n s ↔ d < n ∧ d ≠ s := by
  simp [peers]

-- The entries for a pair of ranks.
def Entry (s d : Nat) (u : MapUpdate) : Prop :=
  u = .addressToProc (socketMap s d) (tuple s d) ∨ u = .procToAddress (tuple s d) (socketMap s d)

theorem mem_mpiInit {r : Nat} {u : MapUpdate} :
    u ∈ mpiInit n r ↔ ∃ peer < n, peer ≠ r ∧ (Entry r peer u ∨ Entry peer r u) := by
  simp only [mpiInit, List.mem_append, List.mem_flatMap, mem_peers, List.mem_cons, List.not_mem_nil, or_false, Entry]
  constructor
  case mp =>
    rintro (⟨peer, ⟨hp, hr⟩, h | h⟩ | ⟨peer, ⟨hp, hr⟩, h | h⟩)
    · exact ⟨peer, hp, hr, .inl (.inl h)⟩
    · exact ⟨peer, hp, hr, .inr (.inl h)⟩
    · exact ⟨peer, hp, hr, .inl (.inr h)⟩
    · exact ⟨peer, hp, hr, .inr (.inr h)⟩
  case mpr =>
    rintro ⟨peer, hp, hr, (h | h) | (h | h)⟩
    · exact .inl ⟨peer, ⟨hp, hr⟩, .inl h⟩
    · exact .inr ⟨peer, ⟨hp, hr⟩, .inl h⟩
    · exact .inl ⟨peer, ⟨hp, hr⟩, .inr h⟩
    · exact .inr ⟨peer, ⟨hp, hr⟩, .inr h⟩

namespace Interleaves

theorem mem_iff (h : Interleaves n os) {u : MapUpdate} :
    u ∈ os.map Prod.snd ↔ ∃ s < n, ∃ d < n, s ≠ d ∧ Entry s d u := by
  have hr (r : Nat) : (r, u) ∈ os ↔ r < n ∧ u ∈ mpiInit n r := by
    have hp : u ∈ os.filterMap (fun o => if o.1 = r then some o.2 else none) ↔ (r, u) ∈ os := by
      rw [List.mem_filterMap]
      constructor
      case mp =>
        intro ⟨o, ho, he⟩
        split at he
        case isTrue hr  => exact hr ▸ Option.some_inj.mp he ▸ ho
        case isFalse    => contradiction
      case mpr => exact fun ho => ⟨_, ho, if_pos rfl⟩
    rw [← hp, h r]
    split
    case isTrue hr  => simp [hr]
    case isFalse hr => simp [hr]
  simp only [List.mem_map, Prod.exists, exists_eq_right, hr, mem_mpiInit]
  constructor
  case mp =>
    rintro ⟨r, hr, peer, hp, hne, he | he⟩
    · exact ⟨r, hr, peer, hp, hne.symm, he⟩
    · exact ⟨peer, hp, r, hr, hne, he⟩
  case mpr =>
    rintro ⟨s, hs, d, hd, hne, he⟩
    exact ⟨s, hs, d, hd, hne.symm, .inl he⟩

theorem toAddress_iff (h : Interleaves n os) :
    (t, k) ∈ (os.map Prod.snd).filterMap MapUpdate.toAddress ↔
      ∃ s < n, ∃ d < n, s ≠ d ∧ t = tuple s d ∧ k = socketMap s d := by
  have hu : (t, k) ∈ (os.map Prod.snd).filterMap MapUpdate.toAddress ↔ .procToAddress t k ∈ os.map Prod.snd := by
    rw [List.mem_filterMap]
    constructor
    case mp =>
      intro ⟨u, hu, he⟩
      cases u with
      | addressToProc   => contradiction
      | procToAddress t' k' =>
        cases he
        exact hu
    case mpr => exact fun hu => ⟨_, hu, rfl⟩
  simp only [hu, h.mem_iff, Entry, reduceCtorEq, false_or, MapUpdate.procToAddress.injEq]

theorem toProc_iff (h : Interleaves n os) :
    (k, t) ∈ (os.map Prod.snd).filterMap MapUpdate.toProc ↔
      ∃ s < n, ∃ d < n, s ≠ d ∧ k = socketMap s d ∧ t = tuple s d := by
  have hu : (k, t) ∈ (os.map Prod.snd).filterMap MapUpdate.toProc ↔ .addressToProc k t ∈ os.map Prod.snd := by
    rw [List.mem_filterMap]
    constructor
    case mp =>
      intro ⟨u, hu, he⟩
      cases u with
      | addressToProc =>
        cases he
        exact hu
      | procToAddress => contradiction
    case mpr => exact fun hu => ⟨_, hu, rfl⟩
  simp only [hu, h.mem_iff, Entry, reduceCtorEq, or_false, MapUpdate.addressToProc.injEq]

end Interleaves

theorem tuple_toNat (hs : s < 2 ^ 32) (hd : d < 2 ^ 32) :
    (tuple s d).srcProcc.toNat = s ∧ (tuple s d).dstProcc.toNat = d := by
  simp only [tuple, BitVec.toNat_ofNat]
  exact ⟨Nat.mod_eq_of_lt hs, Nat.mod_eq_of_lt hd⟩

theorem socketMap_toNat (hs : s < 2 ^ 15) (hd : d < 2 ^ 15) :
    (socketMap s d).srcPort.toNat = basePort + s ∧ (socketMap s d).dstPort.toNat = basePort + d := by
  simp only [socketMap, BitVec.toNat_ofNat, basePort]
  exact ⟨Nat.mod_eq_of_lt (by omega), Nat.mod_eq_of_lt (by omega)⟩

theorem filled_iff (hn : n ≤ 2 ^ 32) :
    (Maps.filled n).procToAddress t = some k ↔ ∃ s < n, ∃ d < n, s ≠ d ∧ t = tuple s d ∧ k = socketMap s d := by
  simp only [Maps.filled, Option.ite_none_right_eq_some]
  constructor
  case mp =>
    rintro ⟨⟨hs, hd, hne⟩, hk⟩
    refine ⟨_, hs, _, hd, mt BitVec.eq_of_toNat_eq hne, ?_, (Option.some_inj.mp hk).symm⟩
    simp only [tuple, BitVec.ofNat_toNat, BitVec.setWidth_eq]
  case mpr =>
    rintro ⟨s, hs, d, hd, hne, rfl, rfl⟩
    obtain ⟨h₁, h₂⟩ := tuple_toNat (hs.trans_le hn) (hd.trans_le hn)
    have ht : (tuple s d).srcProcc ≠ (tuple s d).dstProcc := fun he => hne (h₁.symm.trans (he ▸ h₂))
    rw [h₁, h₂]
    exact ⟨⟨hs, hd, ht⟩, rfl⟩

theorem card_offDiag (n : Nat) : (Finset.range n).offDiag.card = n * (n - 1) := by
  rw [Finset.offDiag_card, Finset.card_range, Nat.mul_sub_one]

-- The keys of the two maps.
theorem Interleaves.keys_toAddress (h : Interleaves n os) :
    (((os.map Prod.snd).filterMap MapUpdate.toAddress).map Prod.fst).toFinset =
      (Finset.range n).offDiag.image fun x => tuple x.1 x.2 := by
  ext t
  simp only [List.mem_toFinset, List.mem_map, Prod.exists, exists_eq_right, exists_and_right, h.toAddress_iff,
    Finset.mem_image, Finset.mem_offDiag, Finset.mem_range]
  constructor
  case mp =>
    intro ⟨_, s, hs, d, hd, hne, ht, _⟩
    exact ⟨s, d, ⟨hs, hd, hne⟩, ht.symm⟩
  case mpr =>
    intro ⟨s, d, ⟨hs, hd, hne⟩, ht⟩
    exact ⟨_, s, hs, d, hd, hne, ht.symm, rfl⟩

theorem Interleaves.keys_toProc (h : Interleaves n os) :
    (((os.map Prod.snd).filterMap MapUpdate.toProc).map Prod.fst).toFinset =
      (Finset.range n).offDiag.image fun x => socketMap x.1 x.2 := by
  ext k
  simp only [List.mem_toFinset, List.mem_map, Prod.exists, exists_eq_right, exists_and_right, h.toProc_iff,
    Finset.mem_image, Finset.mem_offDiag, Finset.mem_range]
  constructor
  case mp =>
    intro ⟨_, s, hs, d, hd, hne, hk, _⟩
    exact ⟨s, d, ⟨hs, hd, hne⟩, hk.symm⟩
  case mpr =>
    intro ⟨s, d, ⟨hs, hd, hne⟩, hk⟩
    exact ⟨_, s, hs, d, hd, hne, hk.symm, rfl⟩

-- What the updates say of a pair follows from its ranks, and from its ports.
def ofRanks (t : TupleProcess) : SocketId :=
  socketMap t.srcProcc.toNat t.dstProcc.toNat

def ofPorts (k : SocketId) : TupleProcess :=
  tuple (k.srcPort.toNat - basePort) (k.dstPort.toNat - basePort)

theorem Interleaves.toAddress_eq (h : Interleaves n os) (hn : n ≤ 2 ^ 32) {u : TupleProcess × SocketId}
    (hu : u ∈ (os.map Prod.snd).filterMap MapUpdate.toAddress) :
    u.2 = ofRanks u.1 := by
  obtain ⟨t, k⟩ := u
  obtain ⟨s, hs, d, hd, _, rfl, rfl⟩ := h.toAddress_iff.mp hu
  have ⟨h₁, h₂⟩ := tuple_toNat (hs.trans_le hn) (hd.trans_le hn)
  rw [ofRanks, h₁, h₂]

theorem Interleaves.toProc_eq (h : Interleaves n os) (hn : n ≤ 2 ^ 15) {u : SocketId × TupleProcess}
    (hu : u ∈ (os.map Prod.snd).filterMap MapUpdate.toProc) :
    u.2 = ofPorts u.1 := by
  obtain ⟨k, t⟩ := u
  obtain ⟨s, hs, d, hd, _, rfl, rfl⟩ := h.toProc_iff.mp hu
  have ⟨h₁, h₂⟩ := socketMap_toNat (hs.trans_le hn) (hd.trans_le hn)
  rw [ofPorts, h₁, h₂, Nat.add_sub_cancel_left, Nat.add_sub_cancel_left]

theorem room (hn : n ≤ 32) : (Finset.range n).offDiag.card ≤ 1024 := by
  rw [card_offDiag]
  exact (Nat.mul_le_mul hn (Nat.sub_le_sub_right hn 1)).trans (by decide)

theorem tuple_inj (hn : n ≤ 2 ^ 32) :
    Set.InjOn (fun x : Nat × Nat => tuple x.1 x.2) (Finset.range n).offDiag := by
  intro x hx y hy he
  simp only [Finset.coe_offDiag, Finset.coe_range, Set.mem_offDiag, Set.mem_Iio] at hx hy
  have ⟨h₁, h₂⟩ := tuple_toNat (hx.1.trans_le hn) (hx.2.1.trans_le hn)
  have ⟨h₃, h₄⟩ := tuple_toNat (hy.1.trans_le hn) (hy.2.1.trans_le hn)
  have he : tuple x.1 x.2 = tuple y.1 y.2 := he
  rw [he] at h₁ h₂
  exact Prod.ext (h₁.symm.trans h₃) (h₂.symm.trans h₄)

theorem Interleaves.populated (h : Interleaves n os) (hn : n ≤ 32) :
    Populated n (Tables.empty.updates (os.map Prod.snd)) := by
  have hct : (((os.map Prod.snd).filterMap MapUpdate.toAddress).map Prod.fst).toFinset.card ≤ 1024 := by
    rw [h.keys_toAddress]
    exact Finset.card_image_le.trans (room hn)
  have hck : (((os.map Prod.snd).filterMap MapUpdate.toProc).map Prod.fst).toFinset.card ≤ 1024 := by
    rw [h.keys_toProc]
    exact Finset.card_image_le.trans (room hn)
  have hgt := fun u => h.toAddress_eq (u := u) (hn.trans (by decide))
  have hgk := fun u => h.toProc_eq (u := u) (hn.trans (by decide))
  have hp {k : SocketId} {t : TupleProcess} :
      (Tables.empty.updates (os.map Prod.snd)).procToAddress.lookup t = some k ↔
        ∃ s < n, ∃ d < n, s ≠ d ∧ t = tuple s d ∧ k = socketMap s d := by
    rw [Tables.updates_procToAddress, ← h.toAddress_iff]
    exact HashMap.puts_lookup_iff hgt hct
  have ha {k : SocketId} {t : TupleProcess} :
      (Tables.empty.updates (os.map Prod.snd)).addressToProc.lookup k = some t ↔
        ∃ s < n, ∃ d < n, s ≠ d ∧ k = socketMap s d ∧ t = tuple s d := by
    rw [Tables.updates_addressToProc, ← h.toProc_iff]
    exact HashMap.puts_lookup_iff hgk hck
  exact {
    procToAddress := fun t => Option.ext fun k => hp.trans (filled_iff (hn.trans (by decide))).symm
    addressToProc := fun k t => by
      rw [ha, hp]
      exact ⟨fun ⟨s, hs, d, hd, hne, hk, ht⟩ => ⟨s, hs, d, hd, hne, ht, hk⟩,
        fun ⟨s, hs, d, hd, hne, ht, hk⟩ => ⟨s, hs, d, hd, hne, hk, ht⟩⟩
    pairs         := by
      rw [Tables.updates_procToAddress]
      refine (congrArg Finset.card (HashMap.puts_keys hgt hct)).trans ?_
      rw [h.keys_toAddress, Finset.card_image_of_injOn (tuple_inj (hn.trans (by decide))), card_offDiag] }

theorem Populated.le (h : Populated n m) : n ≤ 32 := by
  have hc := HashMap.card_keys_le m.procToAddress
  rw [h.pairs] at hc
  by_contra hn
  have := Nat.mul_le_mul (show 33 ≤ n by omega) (show 32 ≤ n - 1 by omega)
  omega

-- The programs in the kernel then find what the forwarding of broadcasts relies on.
theorem Populated.maps (h : Populated n m) : m.maps n = .filled n := by
  rw [Tables.maps, Maps.filled, Maps.mk.injEq]
  exact ⟨rfl, funext h.procToAddress⟩

theorem Populated.complete (h : Populated n m) : (m.maps n).Complete n := by
  rw [h.maps]
  exact Maps.filled_complete (h.le.trans (by decide))

theorem Populated.ports (h : Populated n m) : (m.maps n).Ports n := by
  rw [h.maps]
  exact Maps.filled_ports (h.le.trans (by decide))

-- Whatever the order of their updates, the processes fill the maps as long as the maps have room for all of them.
theorem populated_iff (h : Interleaves n os) : Populated n (Tables.empty.updates (os.map Prod.snd)) ↔ n ≤ 32 :=
  ⟨Populated.le, h.populated⟩

-- The processes one after the other.
def inTurn (n : Nat) : List (Nat × MapUpdate) :=
  (List.range n).flatMap fun r => (mpiInit n r).map fun u => (r, u)

theorem flatMap_range {r : Nat} (l : List MapUpdate) :
    ((List.range n).flatMap fun r' => if r' = r then l else []) = if r < n then l else [] := by
  induction n
  case zero => rfl
  case succ n hi =>
    rw [List.range_succ, List.flatMap_append, hi, List.flatMap_singleton]
    split_ifs <;> first | omega | simp

theorem interleaves_inTurn (n : Nat) : Interleaves n (inTurn n) := by
  intro r
  have hf : (fun r' => ((mpiInit n r').map fun u => (r', u)).filterMap fun o => if o.1 = r then some o.2 else none) =
      fun r' => if r' = r then mpiInit n r else [] := by
    ext1 r'
    rw [List.filterMap_map]
    split
    case isTrue h =>
      rw [h]
      exact (congrArg (List.filterMap · _) (funext fun u => if_pos rfl)).trans List.filterMap_some
    case isFalse h =>
      exact (congrArg (List.filterMap · _) (funext fun u => if_neg h)).trans (List.filterMap_none _)
  rw [inTurn, List.filterMap_flatMap, hf]
  exact flatMap_range _

theorem populated_iff_two : Populated 2 (Tables.empty.updates ((inTurn 2).map Prod.snd)) ↔ 2 ≤ 32 :=
  populated_iff (interleaves_inTurn 2)

theorem not_populated_thirty_three : ¬∀ n os, 1 ≤ n → Interleaves n os →
    Populated n (Tables.empty.updates (os.map Prod.snd)) :=
  fun h => absurd (h 33 _ (by decide) (interleaves_inTurn 33)).le (by decide)

end Kernel

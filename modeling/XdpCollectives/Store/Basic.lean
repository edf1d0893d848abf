import Mathlib.Data.List.AList
import Mathlib.Data.Finset.Card

-- Hash maps with room for a limited number of keys.
namespace Store

structure HashMap (K V : Type) (maxEntries : Nat) where
  entries : AList fun _ : K => V
  fits    : entries.keys.length ≤ maxEntries

namespace HashMap

variable {K V : Type} [DecidableEq K] {maxEntries : Nat}

def empty : HashMap K V maxEntries where
  entries := ∅
  fits    := Nat.zero_le _

variable (m : HashMap K V maxEntries)

def lookup (k : K) : Option V :=
  m.entries.lookup k

def keys : Finset K :=
  m.entries.keys.toFinset

-- A new key is refused when the map is full.
def update (k : K) (v : V) : Option (HashMap K V maxEntries) :=
  if h : k ∈ m.entries then some {
    entries := m.entries.insert k v
    fits    := by
      have hp := List.length_pos_of_mem (AList.mem_keys.mp h)
      have hm := m.fits
      rw [AList.keys_insert, List.length_cons, List.length_erase_of_mem (AList.mem_keys.mp h)]
      omega }
  else if hl : m.entries.keys.length < maxEntries then some {
    entries := m.entries.insert k v
    fits    := by
      rw [AList.keys_insert, List.length_cons, List.erase_of_not_mem (mt AList.mem_keys.mpr h)]
      exact hl }
  else none

-- A refused update leaves the map as it is.
def put (u : K × V) : HashMap K V maxEntries :=
  (m.update u.1 u.2).getD m

def puts (us : List (K × V)) : HashMap K V maxEntries :=
  us.foldl put m

variable {m} {us : List (K × V)} {k : K} {u : K × V} {g : K → V}

theorem mem_keys : k ∈ m.keys ↔ (m.lookup k).isSome := by
  rw [keys, List.mem_toFinset, lookup, AList.lookup_isSome, AList.mem_keys]

theorem card_keys : m.keys.card = m.entries.keys.length :=
  List.toFinset_card_of_nodup m.entries.keys_nodup

theorem card_keys_le (m : HashMap K V maxEntries) : m.keys.card ≤ maxEntries :=
  card_keys.trans_le m.fits

-- An update of a map that has room for its key.
theorem put_lookup (h : (insert u.1 m.keys).card ≤ maxEntries) :
    (m.put u).lookup k = if k = u.1 then some u.2 else m.lookup k := by
  have hput : (m.put u).entries = m.entries.insert u.1 u.2 := by
    rw [put, update]
    split
    case isTrue => rfl
    case isFalse hk =>
      rw [Finset.card_insert_of_notMem (by rwa [mem_keys, lookup, AList.lookup_isSome]), card_keys] at h
      rw [dif_pos (by omega)]
      rfl
  rw [lookup, hput]
  split
  case isTrue he  => rw [he, AList.lookup_insert]
  case isFalse he => exact AList.lookup_insert_ne he

-- Updates that agree on what to store under every key, of a map that has room for all of them.
theorem puts_lookup (hg : ∀ u ∈ us, u.2 = g u.1) (hc : (us.map Prod.fst).toFinset.card ≤ maxEntries) (k : K) :
    ((empty : HashMap K V maxEntries).puts us).lookup k = if k ∈ us.map Prod.fst then some (g k) else none := by
  induction us using List.reverseRecOn generalizing k
  case nil => rfl
  case append_singleton us u hi =>
    rw [List.map_append, List.toFinset_append] at hc
    have hi (k : K) := hi (fun u h => hg u (by simp [h])) ((Finset.card_le_card Finset.subset_union_left).trans hc) k
    have hk : insert u.1 ((empty : HashMap K V maxEntries).puts us).keys =
        (us.map Prod.fst).toFinset ∪ ([u].map Prod.fst).toFinset := by
      ext k
      rw [Finset.mem_insert, mem_keys, hi]
      simp only [Finset.mem_union, List.mem_toFinset, List.map_cons, List.map_nil, List.mem_singleton]
      by_cases h : k ∈ us.map Prod.fst <;> simp [h]
    rw [puts, List.foldl_append]
    show (put (puts empty us) u).lookup k = _
    rw [put_lookup (hk ▸ hc), hi]
    have hu := hg u (by simp)
    have hm : k ∈ (us ++ [u]).map Prod.fst ↔ k ∈ us.map Prod.fst ∨ k = u.1 := by
      rw [List.map_append, List.mem_append, List.map_singleton, List.mem_singleton]
    by_cases he : k = u.1
    case pos => rw [if_pos he, if_pos (hm.mpr (.inr he)), he, hu]
    case neg =>
      rw [if_neg he]
      exact if_congr (hm.trans (or_iff_left he)).symm rfl rfl

theorem puts_lookup_iff (hg : ∀ u ∈ us, u.2 = g u.1) (hc : (us.map Prod.fst).toFinset.card ≤ maxEntries) {v : V} :
    ((empty : HashMap K V maxEntries).puts us).lookup k = some v ↔ (k, v) ∈ us := by
  rw [puts_lookup hg hc]
  split
  case isTrue h =>
    have ⟨u, hu, he⟩ := List.mem_map.mp h
    rw [Option.some_inj, ← he, ← hg u hu]
    constructor
    case mp  => exact fun hv => hv ▸ hu
    case mpr => exact fun hv => (hg u hu).trans (hg _ hv).symm
  case isFalse h => simpa using fun hv => h (List.mem_map_of_mem hv)

theorem puts_keys (hg : ∀ u ∈ us, u.2 = g u.1) (hc : (us.map Prod.fst).toFinset.card ≤ maxEntries) :
    ((empty : HashMap K V maxEntries).puts us).keys = (us.map Prod.fst).toFinset := by
  ext k
  rw [mem_keys, puts_lookup hg hc, List.mem_toFinset]
  split
  case isTrue h  => simp [h]
  case isFalse h => simp [h]

end HashMap
end Store

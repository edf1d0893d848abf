import Mathlib.Data.List.Perm.Subperm
import Mathlib.Data.List.Nodup
import Mathlib.Data.Nat.ModEq

-- Positions on a cycle of `n` places.
namespace Cycle

variable {n i k : Nat}

theorem add_mod_ne (hi : i < n) (h₀ : 0 < k) (hk : k < n) : (i + k) % n ≠ i := by
  by_cases h : i + k < n
  case pos => rw [Nat.mod_eq_of_lt h]; omega
  case neg => rw [Nat.mod_eq_sub_mod (by omega), Nat.mod_eq_of_lt (by omega)]; omega

theorem add_mod_injOn (hj : j < n) (hk : k < n) (h : (i + j) % n = (i + k) % n) : j = k :=
  Nat.ModEq.eq_of_lt_of_lt (Nat.ModEq.add_left_cancel' i h) hj hk

-- How far place `j` is behind place `i`.
def distance (n i j : Nat) : Nat :=
  (j + n - i) % n

theorem distance_lt (hi : i < n) (j : Nat) : distance n i j < n :=
  Nat.mod_lt _ (Nat.zero_lt_of_lt hi)

theorem add_distance (hi : i < n) (hj : j < n) : (i + distance n i j) % n = j := by
  rw [distance, Nat.add_mod_mod, show i + (j + n - i) = j + n by omega, Nat.add_mod_right, Nat.mod_eq_of_lt hj]

theorem distance_add (hi : i < n) (hk : k < n) : distance n i ((i + k) % n) = k :=
  add_mod_injOn (i := i) (distance_lt hi _) hk (add_distance hi (Nat.mod_lt _ (by omega)))

theorem distance_self (n i : Nat) : distance n i i = 0 := by
  rw [distance, Nat.add_sub_cancel_left, Nat.mod_self]

theorem distance_pos (hi : i < n) (hj : j < n) (h : i ≠ j) : 0 < distance n i j := by
  have hd := add_distance hi hj
  by_contra h₀
  rw [Nat.eq_zero_of_not_pos h₀, Nat.add_zero, Nat.mod_eq_of_lt hi] at hd
  exact h hd

theorem distance_succ (hi : i < n) (hj : j < n) (h : i ≠ j) : distance n ((i + 1) % n) j + 1 = distance n i j := by
  have hk := distance_lt hi j
  have hd := add_distance hi hj
  have h₀ := distance_pos hi hj h
  have hs : ((i + 1) % n + (distance n i j - 1)) % n = j := by
    rw [Nat.mod_add_mod, show i + 1 + (distance n i j - 1) = i + distance n i j by omega, hd]
  have hl := distance_add (k := distance n i j - 1) (Nat.mod_lt (i + 1) (Nat.zero_lt_of_lt hi)) (by omega)
  rw [hs] at hl
  omega

theorem add_mod_pred (hn : 0 < n) (i k : Nat) : ((i + (k + 1)) % n + n - 1) % n = (i + k) % n := by
  rw [Nat.add_sub_assoc hn, Nat.mod_add_mod, show i + (k + 1) + (n - 1) = i + k + n by omega, Nat.add_mod_right]

-- Going once around the cycle, from any place, visits every place once.
theorem map_add_mod_perm (i n : Nat) :
    ((List.range n).map fun k => (i + k) % n).Perm (List.range n) := by
  have hn : ((List.range n).map fun k => (i + k) % n).Nodup := by
    apply List.Nodup.map_on _ List.nodup_range
    intro j hj k hk h
    exact add_mod_injOn (List.mem_range.mp hj) (List.mem_range.mp hk) h
  apply (List.subperm_of_subset hn ?_).perm_of_length_le (by simp)
  intro j hj
  have ⟨k, hk, h⟩ := List.mem_map.mp hj
  exact List.mem_range.mpr (h ▸ Nat.mod_lt _ (Nat.zero_lt_of_lt (List.mem_range.mp hk)))

end Cycle

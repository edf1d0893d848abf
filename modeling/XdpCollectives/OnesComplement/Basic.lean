import Mathlib.Algebra.BigOperators.Group.List.Basic
import Mathlib.Data.Nat.ModEq
import Mathlib.Tactic.Ring

-- Addition of the numbers from 0 to `m`, where a carry out of the sum is added to it again. Both 0 and `m` are zero.
namespace OnesComplement

variable {m a b n r k : Nat} {ws : List Nat}

theorem modEq_of_add_mul (h : r + m * k = n) : r ≡ n [MOD m] := by
  subst h
  simp [Nat.ModEq]

def add (m a b : Nat) : Nat :=
  if m < a + b then a + b - m else a + b

def sum (m : Nat) (ws : List Nat) : Nat :=
  ws.foldl (add m) 0

-- The number that stands for `n`: zero is 0 only when nothing was added to it.
def norm (m n : Nat) : Nat :=
  if n = 0 then 0 else (n - 1) % m + 1

@[simp]
theorem norm_zero : norm m 0 = 0 :=
  rfl

theorem norm_eq_zero : norm m n = 0 ↔ n = 0 := by
  simp only [norm]
  split <;> simp [*]

theorem norm_modEq (m n : Nat) : norm m n ≡ n [MOD m] := by
  simp only [norm]
  split
  case isTrue h => rw [h]
  case isFalse h =>
    have hm : (n - 1) % m + 1 ≡ n - 1 + 1 [MOD m] := (Nat.mod_modEq (n - 1) m).add_right 1
    rwa [Nat.sub_add_cancel (Nat.pos_of_ne_zero h)] at hm

theorem norm_le (h : 0 < m) : norm m n ≤ m := by
  have hl := Nat.mod_lt (n - 1) h
  simp only [norm]
  split <;> omega

theorem norm_of_le (h : n ≤ m) : norm m n = n := by
  simp only [norm]
  split
  case isTrue hn => rw [hn]
  case isFalse =>
    rw [Nat.mod_eq_of_lt (by omega)]
    omega

theorem norm_congr (h : a ≡ b [MOD m]) (hz : a = 0 ↔ b = 0) : norm m a = norm m b := by
  by_cases ha : a = 0
  case pos => rw [ha, hz.mp ha]
  case neg =>
    have hb : b ≠ 0 := mt hz.mpr ha
    have hp : a - 1 ≡ b - 1 [MOD m] := by
      apply Nat.ModEq.add_right_cancel' 1
      rwa [Nat.sub_add_cancel (Nat.pos_of_ne_zero ha), Nat.sub_add_cancel (Nat.pos_of_ne_zero hb)]
    rw [norm, norm, if_neg ha, if_neg hb, hp]

theorem eq_norm (hr : r ≤ m) (h : r ≡ n [MOD m]) (hz : r = 0 ↔ n = 0) : r = norm m n :=
  (norm_of_le hr).symm.trans (norm_congr h hz)

theorem norm_eq_all (h : 0 < m) : norm m n = m ↔ n ≠ 0 ∧ n ≡ 0 [MOD m] := by
  constructor
  · intro he
    refine ⟨fun hn => ?_, ?_⟩
    · rw [hn, norm_zero] at he
      omega
    · have hm := norm_modEq m n
      rw [he] at hm
      exact hm.symm.trans (by simp [Nat.ModEq])
  · intro ⟨hn, hm⟩
    exact (eq_norm (Nat.le_refl m) (hm.trans (by simp [Nat.ModEq])).symm (by omega)).symm

theorem add_eq_norm (ha : a ≤ m) (hb : b ≤ m) : add m a b = norm m (a + b) := by
  simp only [add]
  split
  case isTrue h =>
    have hm : a + b - m + m * 1 = a + b := by omega
    exact eq_norm (by omega) (modEq_of_add_mul hm) (by omega)
  case isFalse h => exact (norm_of_le (by omega)).symm

theorem foldl_add_eq_norm (hm : 0 < m) (ha : a ≤ m) (hw : ∀ w ∈ ws, w ≤ m) :
    ws.foldl (add m) a = norm m (a + ws.sum) := by
  induction ws generalizing a
  case nil => exact (norm_of_le ha).symm
  case cons w ws hi =>
    have hwm := hw w (by simp)
    have hn : norm m (a + w) ≤ m := norm_le hm
    rw [List.foldl_cons, add_eq_norm ha hwm, hi hn fun w h => hw w (List.mem_cons_of_mem _ h), List.sum_cons,
      ← Nat.add_assoc]
    refine norm_congr ((norm_modEq m _).add_right _) ?_
    have hz : norm m (a + w) = 0 ↔ a + w = 0 := norm_eq_zero
    omega

theorem sum_eq_norm (hm : 0 < m) (hw : ∀ w ∈ ws, w ≤ m) : sum m ws = norm m ws.sum := by
  rw [sum, foldl_add_eq_norm hm (Nat.zero_le m) hw, Nat.zero_add]

-- A sum that starts at `m` differs from one that starts at 0 when only zeros are added.
theorem foldl_add_all (hm : 0 < m) (hw : ∀ w ∈ ws, w ≤ m) (hs : ws.sum ≠ 0) :
    ws.foldl (add m) m = norm m ws.sum := by
  rw [foldl_add_eq_norm hm (Nat.le_refl m) hw]
  exact norm_congr (by simp [Nat.ModEq]) (by omega)

-- The digits of a number above the first one are carries.
theorem norm_carry (m n : Nat) : norm m (n % (m + 1) + n / (m + 1)) = norm m n := by
  have hd := Nat.mod_add_div n (m + 1)
  have hq : n % (m + 1) + n / (m + 1) + m * (n / (m + 1)) = n := by
    rw [Nat.add_mul, Nat.one_mul] at hd
    omega
  refine norm_congr (modEq_of_add_mul hq) ⟨fun h => ?_, fun h => by simp [h]⟩
  rw [← hd, Nat.eq_zero_of_add_eq_zero_right h, Nat.eq_zero_of_add_eq_zero_left h, Nat.mul_zero]

-- The number of two digits in base `b` with its digits exchanged.
def swap (b n : Nat) : Nat :=
  n % b * b + n / b

theorem swap_modEq (h : m + 1 = b * b) (n : Nat) : swap b n ≡ b * n [MOD m] := by
  have hd := Nat.mod_add_div n b
  have hs : swap b n + m * (n / b) = b * n :=
    calc
      _ = n % b * b + (m + 1) * (n / b) := by rw [swap]; ring
      _ = b * (n % b + b * (n / b))     := by rw [h]; ring
      _ = b * n                         := by rw [hd]
  exact modEq_of_add_mul hs

theorem swap_le (h : m + 1 = b * b) (hn : n ≤ m) : swap b n ≤ m := by
  have hb : 0 < b := Nat.pos_of_ne_zero fun h0 => by simp [h0] at h
  have hq : n / b < b := Nat.div_lt_of_lt_mul (by omega)
  have hr := Nat.mod_lt n hb
  have hl : n % b * b + n / b < (n % b + 1) * b := by rw [Nat.add_mul, Nat.one_mul]; omega
  have hu : (n % b + 1) * b ≤ b * b := Nat.mul_le_mul_right b hr
  rw [swap]
  omega

theorem swap_eq_zero (hb : 0 < b) : swap b n = 0 ↔ n = 0 := by
  constructor
  · intro h
    rw [swap] at h
    have hr : n % b = 0 := (Nat.mul_eq_zero.mp (Nat.eq_zero_of_add_eq_zero_right h)).resolve_right hb.ne'
    have hd := Nat.mod_add_div n b
    rw [hr, Nat.eq_zero_of_add_eq_zero_left h] at hd
    omega
  · rintro rfl
    simp [swap]

theorem sum_map_swap_modEq (h : m + 1 = b * b) (ws : List Nat) : (ws.map (swap b)).sum ≡ b * ws.sum [MOD m] := by
  induction ws
  case nil => simp [Nat.ModEq]
  case cons w ws hi =>
    rw [List.map_cons, List.sum_cons, List.sum_cons, Nat.mul_add]
    exact (swap_modEq h w).add hi

theorem sum_map_swap_eq_zero (hb : 0 < b) (ws : List Nat) : (ws.map (swap b)).sum = 0 ↔ ws.sum = 0 := by
  induction ws
  case nil => simp
  case cons w ws hi => simp only [List.map_cons, List.sum_cons, Nat.add_eq_zero_iff, swap_eq_zero hb, hi]

-- A sum may be taken over swapped numbers, and swapped at the end.
theorem swap_norm (hm : 0 < m) (h : m + 1 = b * b) (ws : List Nat) :
    swap b (norm m ws.sum) = norm m (ws.map (swap b)).sum := by
  have hb : 0 < b := Nat.pos_of_ne_zero fun h0 => by simp [h0] at h
  refine eq_norm (swap_le h (norm_le hm)) ?_ ?_
  · calc
      _ ≡ b * norm m ws.sum [MOD m]       := swap_modEq h _
      _ ≡ b * ws.sum [MOD m]              := (norm_modEq m _).mul_left b
      _ ≡ (ws.map (swap b)).sum [MOD m]   := (sum_map_swap_modEq h ws).symm
  · rw [swap_eq_zero hb, norm_eq_zero, sum_map_swap_eq_zero hb]

-- What is added to a sum and its complement is seen on its own.
theorem norm_complement (hm : 0 < m) (s o : Nat) : norm m (s + (m - norm m s) + o) = m ↔ o ≡ 0 [MOD m] := by
  have hl : norm m s ≤ m := norm_le hm
  have hc : s + (m - norm m s) ≡ 0 [MOD m] :=
    calc
      _ ≡ norm m s + (m - norm m s) [MOD m] := (norm_modEq m s).symm.add_right _
      _ ≡ 0 [MOD m]                         := by rw [Nat.add_sub_cancel' hl]; simp [Nat.ModEq]
  have hp : s + (m - norm m s) + o ≠ 0 := by
    intro h0
    have hz : s = 0 := by omega
    rw [hz, norm_zero] at h0
    omega
  rw [norm_eq_all hm, and_iff_right hp]
  have ho : s + (m - norm m s) + o ≡ 0 + o [MOD m] := hc.add_right o
  rw [Nat.zero_add] at ho
  exact ⟨ho.symm.trans, ho.trans⟩

end OnesComplement

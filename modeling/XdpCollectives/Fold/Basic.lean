import Mathlib.Algebra.Group.Nat.Even
import Mathlib.Algebra.NeZero
import Mathlib.Data.List.Perm.Basic
import Mathlib.Order.Lattice

-- Nonempty lists that are folded from the left, and how the result depends on their order.
namespace Fold

variable {α β : Type*} {f : α → α → α} {xs ys : List α}

def fold1 (f : α → α → α) : List α → Option α
  | []      => none
  | x :: xs => some (xs.foldl f x)

-- Every order of the values gives one result, and it is as asked for.
def Settles (f : α → α → α) (xs : List α) (P : α → Prop) : Prop :=
  ∃ r, P r ∧ ∀ ys, ys.Perm xs → fold1 f ys = some r

theorem fold1_isSome (h : xs ≠ []) : ∃ r, fold1 f xs = some r := by
  cases xs with
  | nil       => contradiction
  | cons x xs => exact ⟨_, rfl⟩

theorem fold1_append (h : fold1 f xs = some r) (ys : List α) : fold1 f (xs ++ ys) = some (ys.foldl f r) := by
  cases xs with
  | nil       => contradiction
  | cons x xs =>
    obtain rfl := Option.some.inj h
    rw [List.cons_append, fold1, List.foldl_append]

-- A function that takes one operation to another takes the results to each other.
theorem fold1_map {f' : β → β → β} {g : α → β} (h : ∀ x y, g (f x y) = f' (g x) (g y)) (xs : List α) :
    (fold1 f xs).map g = fold1 f' (xs.map g) := by
  cases xs with
  | nil       => rfl
  | cons x xs =>
    rw [fold1, Option.map_some, List.map_cons, fold1]
    congr 1
    induction xs generalizing x
    case nil           => rfl
    case cons y xs hi => rw [List.foldl_cons, hi, h, List.map_cons, List.foldl_cons]

theorem fold1_perm [Std.Commutative f] [Std.Associative f] (h : xs.Perm ys) : fold1 f xs = fold1 f ys := by
  induction h with
  | nil            => rfl
  | cons x h       => exact congrArg some h.foldl_op_eq
  | swap x y l     =>
    have hc : f x y = f y x := Std.Commutative.comm x y
    rw [fold1, fold1, List.foldl_cons, List.foldl_cons, hc]
  | trans _ _ h h' => exact h.trans h'

theorem settles_of_fold1 [Std.Commutative f] [Std.Associative f] (hf : fold1 f xs = some r) (hr : P r) :
    Settles f xs P :=
  ⟨r, hr, fun _ h => (fold1_perm h).trans hf⟩

theorem fold1_all {g : α → Bool} (h : ∀ x y, g (f x y) = (g x && g y)) (hr : fold1 f xs = some r) :
    g r = xs.all g := by
  cases xs with
  | nil       => contradiction
  | cons x xs =>
    obtain rfl := Option.some.inj hr
    induction xs generalizing x
    case nil          => simp
    case cons y xs hi => rw [List.foldl_cons, hi _ rfl, List.all_cons, h, List.all_cons, List.all_cons, Bool.and_assoc]

theorem fold1_any {g : α → Bool} (h : ∀ x y, g (f x y) = (g x || g y)) (hr : fold1 f xs = some r) :
    g r = xs.any g := by
  cases xs with
  | nil       => contradiction
  | cons x xs =>
    obtain rfl := Option.some.inj hr
    induction xs generalizing x
    case nil          => simp
    case cons y xs hi => rw [List.foldl_cons, hi _ rfl, List.any_cons, h, List.any_cons, List.any_cons, Bool.or_assoc]

section Choose

variable [LinearOrder κ] {key : α → κ} {better : α → α → Prop} [DecidableRel better]

theorem choose_comm (hk : ∀ x y, key x = key y → x = y) (hb : ∀ x y, better x y ↔ key x < key y) :
    Std.Commutative fun x y => if better x y then y else x := by
  refine ⟨fun x y => ?_⟩
  simp only [hb]
  rcases lt_trichotomy (key x) (key y) with h | h | h
  · rw [if_pos h, if_neg (lt_asymm h)]
  · rw [hk x y h]
  · rw [if_neg (lt_asymm h), if_pos h]

theorem choose_assoc (hb : ∀ x y, better x y ↔ key x < key y) :
    Std.Associative fun x y => if better x y then y else x := by
  refine ⟨fun x y z => ?_⟩
  simp only [hb]
  by_cases hxy : key x < key y
  case pos =>
    rw [if_pos hxy]
    by_cases hyz : key y < key z
    case pos => rw [if_pos hyz, if_pos (lt_trans hxy hyz)]
    case neg => rw [if_neg hyz, if_pos hxy]
  case neg =>
    rw [if_neg hxy]
    by_cases hyz : key y < key z
    case pos => rw [if_pos hyz]
    case neg => rw [if_neg hyz, if_neg hxy, if_neg fun h => hxy (lt_of_lt_of_le h (not_lt.mp hyz))]

end Choose

end Fold
